import Redial.Proofs.Session.Runs
import Redial.Proofs.Stream.Effects

/-!
# What the lock guards

The connection in use, the hello and the settlement are changed by the holder of the lock only
(`Effect.guarded`), and by nobody once the question is settled (`Effect.settled`). A call that holds
the lock is its holder, so there is at most one (`Reachable.holder`).
-/

namespace Redial

namespace Lock

variable {k j : TaskId} {l : Lock}

theorem holder?_ask_of_held (h : l.holder? = some j) : (l.ask k).holder? = some j := by
  cases l with
  | free => cases h
  | held holder queue => exact h

theorem holder?_forget_of_ne (h : l.holder? = some j) (hjk : j ≠ k) :
    (l.forget k).holder? = some j := by
  cases l with
  | free => cases h
  | held holder queue =>
    have hj : holder = j := Option.some.inj h
    show (if holder = k then _ else held holder (queue.filter (· != k))).holder? = some j
    rw [if_neg (hj ▸ hjk)]
    exact h

end Lock

theorem Waiter.isSet_of_released {α : Type} {l : Latch α} {w : Waiter}
    (h : w.step l = some .released) : l.isSet = true := by
  cases w with
  | arriving =>
    by_cases hl : l.isSet = true
    · exact hl
    · have hnext := Option.some.inj h
      rw [if_neg hl] at hnext
      cases hnext
  | asleep listener =>
    by_cases hl : listener.woken l.bell = true
    · rw [Waiter.step, if_pos hl] at h
      cases h
    · rw [Waiter.step, if_neg hl] at h
      cases h

namespace Stream

/-- The part of the memory that the lock guards is the same. -/
structure State.SameGuarded (s s' : State) : Prop where
  current : s'.memory.current = s.memory.current
  hello : s'.memory.hello = s.memory.hello
  split : s'.memory.split = s.memory.split
  retried : s'.memory.retried = s.memory.retried
  strategy : s'.memory.strategy = s.memory.strategy
  decision : s'.memory.decision = s.memory.decision

namespace State.SameGuarded

variable {s s' : State}

theorem refl (s : State) : s.SameGuarded s := ⟨rfl, rfl, rfl, rfl, rfl, rfl⟩

theorem trans {s₁ s₂ s₃ : State} (h : s₁.SameGuarded s₂) (h' : s₂.SameGuarded s₃) :
    s₁.SameGuarded s₃ :=
  ⟨h'.current.trans h.current, h'.hello.trans h.hello, h'.split.trans h.split,
    h'.retried.trans h.retried, h'.strategy.trans h.strategy, h'.decision.trans h.decision⟩

theorem withWorld (s : State) (w : World) : s.SameGuarded (s.withWorld w) :=
  ⟨rfl, rfl, rfl, rfl, rfl, rfl⟩

theorem withLock (s : State) (l : Lock) : s.SameGuarded (s.withLock l) :=
  ⟨rfl, rfl, rfl, rfl, rfl, rfl⟩

theorem askShut (s : State) (half : Half) : s.SameGuarded (s.askShut half) := by
  cases half <;> exact ⟨rfl, rfl, rfl, rfl, rfl, rfl⟩

theorem isDecided (h : s.SameGuarded s') : s'.isDecided = s.isDecided := by
  unfold State.isDecided
  rw [h.decision]

theorem finalLink? (h : s.SameGuarded s') : s'.finalLink? = s.finalLink? := by
  unfold State.finalLink?
  rw [h.decision]

theorem stats? (h : s.SameGuarded s') : s'.stats? = s.stats? := by
  unfold State.stats?
  rw [h.decision]

end State.SameGuarded

/-- Whether a call is at a place that it leaves before the question is settled. -/
def Call.isProvisional : Call → Bool
  | redialling .. => true
  | replaying .. => true
  | reshutting .. => true
  | answering .. => true
  | sending .. => true
  | _ => false

section Steps

variable {k j : TaskId} {s s₁ : State} {c : Call} {p : Progress Call Outcome} {l l' : Lock}

/-- What the lock guards is changed by its holder only. -/
theorem Effect.guarded (h : Effect k s c s₁ p) :
    s.SameGuarded s₁ ∨ c.holds = true ∨ s.memory.lock.holder? = some k := by
  cases h with
  | passes => exact Or.inl (.refl s)
  | asksShut => exact Or.inl (.askShut s _)
  | reads | sendsTo | bare => exact Or.inl (.withWorld s _)
  | settlesAtEnd hk | settlesOnBytes hk | settlesOnFault hk | retries hk =>
    exact Or.inr (Or.inr hk)
  | _ => exact Or.inr (Or.inl rfl)

/-- Once the question is settled, what the lock guards is not changed any more. -/
theorem Effect.settled (h : Effect k s c s₁ p) (hd : s.isDecided = true)
    (hc : c.isProvisional = false) : s.SameGuarded s₁ := by
  cases h with
  | passes => exact .refl s
  | asksShut => exact .askShut s _
  | reads | sendsTo | bare | shuts => exact .withWorld s _
  | settlesAtEnd _ _ ho | settlesOnBytes _ ho | settlesOnFault _ _ ho | retries _ _ ho =>
    rw [hd] at ho
    cases ho
  | _ => cases hc

theorem LockMove.holder?_of_ne (h : LockMove k l c p l') (hc : c.holds = true → l.holder? = some k)
    (hj : l.holder? = some j) (hjk : j ≠ k) : l'.holder? = some j := by
  have hmine : l.holder? ≠ some k := fun hk => hjk (Option.some.inj (hj.symm.trans hk))
  cases h with
  | apart | keeps => exact hj
  | asks => exact Lock.holder?_ask_of_held hj
  | gives hh =>
    rcases hh with hh | hh
    · exact absurd (hc hh) hmine
    · exact absurd hh hmine
  | asksAgain hh => exact absurd (hc hh) hmine

theorem partsFrom_of_holdsOn (h : holdsOn p = true) : partsFrom p = false := by
  cases p with
  | done o => cases h
  | goesOn d =>
    show (!d.holds && !d.isQueued) = false
    rw [show d.holds = true from h]
    rfl

theorem LockMove.holder?_self (h : LockMove k l c p l') (hc : c.holds = true → l.holder? = some k)
    (hp : holdsOn p = true) : l'.holder? = some k := by
  have hparts := partsFrom_of_holdsOn hp
  cases h with
  | apart _ hpart | gives _ hpart =>
    rw [hparts] at hpart
    cases hpart
  | asks | asksAgain => cases hp
  | keeps hh =>
    rcases hh with hh | hh
    · exact hc hh
    · exact hh

end Steps

end Stream

namespace StreamSession

open Redial.Stream

variable {rule : Rule} {setup : Setup} {m : Moment}

/-- A task that takes a step does one of the things that its call can do. -/
theorem Moment.Moves.effect {k : TaskId} {m' : Moment} (h : m.Moves k m') :
    ∃ c s₁ l p, ⟨k, c⟩ ∈ m.machine.tasks ∧ Effect k m.state c s₁ p ∧
      m' = ⟨m.actions, m.machine.advance k (s₁.withLock l) p⟩ := by
  obtain ⟨c, s, p, hc, hstep, rfl⟩ := h.call
  obtain ⟨s₁, l, he, -, rfl⟩ := does_of_step hstep
  exact ⟨c, s₁, l, p, hc, he, rfl⟩

/-- A task that is done after its step has been brought to its end by the step. -/
theorem Moment.Moves.ends {k : TaskId} {m' : Moment} (hmove : m.Moves k m')
    (h : Reachable rule setup m) {o : Outcome} (ho : (k, o) ∈ m'.machine.finished) :
    ∃ c s₁ l, ⟨k, c⟩ ∈ m.machine.tasks ∧ Effect k m.state c s₁ (.done o) ∧
      m' = ⟨m.actions, m.machine.advance k (s₁.withLock l) (.done o)⟩ := by
  obtain ⟨c, s₁, l, p, hk, he, rfl⟩ := hmove.effect
  cases p with
  | goesOn c' => exact absurd ho (h.unfinished hk _)
  | done o' =>
    rcases List.mem_cons.mp ho with heq | hold
    · cases heq
      exact ⟨c, s₁, l, hk, he, rfl⟩
    · exact absurd hold (h.unfinished hk _)

/-- A task that is done has been brought to its end by a step. -/
theorem Reachable.ended (h : Reachable rule setup m) {k : TaskId} {o : Outcome}
    (ho : (k, o) ∈ m.machine.finished) :
    ∃ m₀ m₁, Reachable rule setup m₀ ∧ m₀.Moves k m₁ ∧ (k, o) ∈ m₁.machine.finished ∧
      m₁.Leads rule m := by
  refine Reachable.induction (P := fun m => (k, o) ∈ m.machine.finished →
    ∃ m₀ m₁, Reachable rule setup m₀ ∧ m₀.Moves k m₁ ∧ (k, o) ∈ m₁.machine.finished ∧
      m₁.Leads rule m) h ?_ ?_ ho
  · intro s _ ho
    exact absurd ho List.not_mem_nil
  · intro m m' hm ih hn ho
    by_cases hold : (k, o) ∈ m.machine.finished
    · obtain ⟨m₀, m₁, h₀, hmove, hdone, hl⟩ := ih hold
      exact ⟨m₀, m₁, h₀, hmove, hdone, hl.tail hn⟩
    · cases hn with
      | act action allowed =>
        rw [(acts_act m action).finished] at ho
        exact absurd ho hold
      | @step machine j hs =>
        obtain ⟨c, s, p, hk, -, rfl⟩ := Machine.step_eq_some hs
        cases p with
        | goesOn c' => exact absurd ho hold
        | done o' =>
          rcases List.mem_cons.mp ho with heq | hbefore
          · cases heq
            exact ⟨m, ⟨m.actions, _⟩, hm, ⟨hs, rfl⟩, ho, .refl⟩
          · exact absurd hbefore hold

theorem Acts.sameGuarded {action : Session.Action} {machine : StreamMachine}
    (h : Acts m action machine) : m.state.SameGuarded machine.env := by
  rcases h.env with ⟨l, he⟩ | he
  · rw [he]
    exact .withLock _ _
  · rw [he]
    exact .withWorld _ _

/-- A call that holds the lock is its holder. -/
theorem Reachable.holder (h : Reachable rule setup m) {k : TaskId} {c : Call}
    (ht : ⟨k, c⟩ ∈ m.machine.tasks) (hc : c.holds = true) :
    m.state.memory.lock.holder? = some k := by
  refine Reachable.induction
    (P := fun m => ∀ k c, ⟨k, c⟩ ∈ m.machine.tasks → Call.holds c = true →
      m.state.memory.lock.holder? = some k) h ?_ ?_ k c ht hc
  · intro s _ k c ht
    exact absurd ht List.not_mem_nil
  · intro m m' hm ih hn j d hj hd
    rcases hn.split with ⟨action, machine, -, ha, rfl⟩ | ⟨k, c, s, p, hk, hs, rfl⟩
    · cases ha with
      | starts request =>
        rcases List.mem_append.mp hj with hj | hj
        · exact ih j d hj hd
        · cases List.mem_singleton.mp hj
          cases hd
      | drops k =>
        obtain ⟨hj, hjk⟩ := Machine.mem_cancel_iff.mp hj
        rcases Machine.env_cancel Stream.behaviour m.machine k with he | ⟨he, -⟩
        · show (m.machine.cancel Stream.behaviour k).env.memory.lock.holder? = some j
          rw [he]
          exact ih j d hj hd
        · show (m.machine.cancel Stream.behaviour k).env.memory.lock.holder? = some j
          rw [he]
          exact Lock.holder?_forget_of_ne (ih j d hj hd) hjk
      | happens => exact ih j d hj hd
    · obtain ⟨s₁, l, -, hl, hs₁⟩ := does_of_step hs
      have hmine : c.holds = true → m.state.memory.lock.holder? = some k := ih k c hk
      have henv : (m.machine.advance k s p).env.memory.lock = l := by
        rw [Machine.env_advance]
        exact congrArg (·.memory.lock) hs₁
      show (m.machine.advance k s p).env.memory.lock.holder? = some j
      rw [henv]
      rcases Machine.mem_advance hj with ⟨c', rfl, hc'⟩ | ⟨hj, hjk⟩
      · cases hc'
        exact hl.holder?_self hmine hd
      · exact hl.holder?_of_ne hmine (ih j d hj hd) hjk

end StreamSession

end Redial
