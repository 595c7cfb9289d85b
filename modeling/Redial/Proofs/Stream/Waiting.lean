import Redial.Proofs.Stream.Kinds
import Redial.Proofs.Stream.Settlement

/-!
# Calls that wait for other calls

A call waits for other calls at the lock, or until the question is settled. The tasks at the lock
are the unfinished calls that have asked for it and not yet released it (`Moment.Attended`), so the
lock never belongs to a call that is gone. Those who listen to the latch have found it unset, and
setting it is the only thing that rings its bell (`Call.Listens`), so nobody sleeps through it.

At a quiet moment every call is blocked. Then a call that waits for the lock waits for another call
that is blocked while it holds the lock (`Moment.Quiet.holder`), and a call that waits for the
question to be settled finds it open (`Moment.Quiet.isDecided`).
-/

namespace Redial

namespace Lock

variable {k : TaskId} {l : Lock}

/-- The task that holds the lock and those that wait for it, in their order. -/
def members : Lock → List TaskId
  | free => []
  | held holder queue => holder :: queue

theorem head?_members (l : Lock) : l.members.head? = l.holder? := by
  cases l <;> rfl

theorem members_of_holder? (h : l.holder? = some k) : l.members = k :: l.queue := by
  cases l with
  | free => cases h
  | held holder queue =>
    cases h
    rfl

@[simp] theorem members_ask (k : TaskId) (l : Lock) : (l.ask k).members = l.members ++ [k] := by
  cases l <;> rfl

@[simp] theorem members_release (l : Lock) : l.release.members = l.members.tail := by
  cases l with
  | free => rfl
  | held holder queue => cases queue <;> rfl

theorem members_forget (h : l.members.Nodup) (k : TaskId) :
    (l.forget k).members = l.members.filter (· != k) := by
  cases l with
  | free => rfl
  | held holder queue =>
    obtain ⟨hholder, -⟩ := List.nodup_cons.mp h
    show (if holder = k then (held holder queue).release
      else held holder (queue.filter (· != k))).members = (holder :: queue).filter (· != k)
    split
    · rename_i hk
      subst hk
      have hqueue : queue.filter (· != holder) = queue := by
        refine List.filter_eq_self.mpr fun j hj => ?_
        rw [bne_iff_ne]
        rintro rfl
        exact hholder hj
      rw [members_release, List.filter_cons_of_neg (by simp), hqueue]
      rfl
    · rename_i hk
      rw [List.filter_cons_of_pos (by simpa using hk)]
      rfl

end Lock

namespace Stream

section Lock

variable {k : TaskId} {l l' : Lock} {c : Call} {p : Progress Call Outcome}

/-- A move of the lock concerns the turn of the call that makes it: the call has a turn from then on
unless it parts from the lock, and the turns of others stay. -/
theorem LockMove.members (h : LockMove k l c p l') (hn : l.members.Nodup)
    (hk : k ∈ l.members ↔ c.isApart = false) (hc : c.holds = true → l.holder? = some k) :
    l'.members.Nodup ∧ (k ∈ l'.members ↔ partsFrom p = false) ∧
      ∀ j, j ≠ k → (j ∈ l'.members ↔ j ∈ l.members) := by
  have hout : c.isApart = true → k ∉ l.members := by
    intro ha hmem
    rw [hk.mp hmem] at ha
    cases ha
  cases h with
  | apart ha hp =>
    refine ⟨hn, iff_of_false (hout ha) ?_, fun j _ => Iff.rfl⟩
    rw [hp]
    decide
  | keeps hh hp =>
    have hholder : l.holder? = some k := hh.elim hc id
    refine ⟨hn, iff_of_true ?_ (partsFrom_of_holdsOn hp), fun j _ => Iff.rfl⟩
    rw [Lock.members_of_holder? hholder]
    exact List.mem_cons_self
  | asks ha =>
    rw [Lock.members_ask, ← List.concat_eq_append]
    exact ⟨hn.concat (hout ha), iff_of_true (by simp) rfl, fun j hj => by simp [hj]⟩
  | gives hh hp =>
    have hholder : l.holder? = some k := hh.elim hc id
    rw [Lock.members_of_holder? hholder] at hn ⊢
    obtain ⟨hnot, hqueue⟩ := List.nodup_cons.mp hn
    rw [Lock.members_release, Lock.members_of_holder? hholder]
    refine ⟨hqueue, iff_of_false hnot ?_, fun j hj => by simp [hj]⟩
    rw [hp]
    decide
  | asksAgain hh =>
    have hholder := hc hh
    rw [Lock.members_of_holder? hholder] at hn ⊢
    obtain ⟨hnot, hqueue⟩ := List.nodup_cons.mp hn
    rw [Lock.members_ask, Lock.members_release, Lock.members_of_holder? hholder,
      ← List.concat_eq_append]
    exact ⟨hqueue.concat hnot, iff_of_true (by simp) rfl, fun j hj => by simp [hj]⟩

end Lock

/-! ## The latch -/

/-- The bell of the latch has rung once if the question is settled, and else never. -/
def State.RungOnce (s : State) : Prop :=
  s.memory.decision.bell.rings = if s.isDecided then 1 else 0

/-- A call that waits for the question to be settled has listened since before the first ring. -/
def Call.Listens : Call → Prop
  | awaiting _ _ (.asleep listener) => listener.before = 0
  | _ => True

section Latch

variable {k : TaskId} {s s₁ : State} {c c' : Call} {p : Progress Call Outcome}

theorem State.RungOnce.congr (h : s.RungOnce) (hd : s₁.memory.decision = s.memory.decision) :
    s₁.RungOnce := by
  unfold State.RungOnce State.isDecided at h ⊢
  rw [hd]
  exact h

theorem State.RungOnce.settle (h : s.RungOnce) : s.settle.RungOnce := by
  unfold State.RungOnce at h ⊢
  rw [State.isDecided_settle, if_pos rfl]
  cases hd : s.isDecided with
  | true =>
    rw [hd, if_pos rfl] at h
    have hsame : s.settle.memory.decision = s.memory.decision := Latch.value_set_of_isSet hd _
    rw [hsame]
    exact h
  | false =>
    rw [hd] at h
    show (s.memory.decision.set _).bell.rings = 1
    unfold Latch.set
    rw [State.value_eq_none hd]
    exact congrArg (· + 1) h

theorem Effect.rungOnce (h : Effect k s c s₁ p) (hs : s.Sound) (hc : c.Phase s)
    (hr : s.RungOnce) : s₁.RungOnce := by
  cases h.turns hs hc with
  | stays hd => exact hr.congr hd
  | retries => exact hr.congr rfl
  | settles _ hm => exact State.RungOnce.settle (hr.congr (congrArg (·.decision) hm))

theorem Resumes.listens (h : Resumes s c) : c.Listens := by
  cases h <;> trivial

theorem Passes.listens (h : Passes k s c p) (hr : s.RungOnce) (hp : p = .goesOn c') :
    c'.Listens := by
  cases h with
  | beginWrite | beginWriteAll | pullPiece => exact (resumes_offer hp).listens
  | @goOnWaiting goal buf waiter waiter' hw =>
    cases hp
    cases waiter with
    | arriving =>
      -- Who falls asleep has found the latch unset.
      by_cases hd : s.memory.decision.isSet = true
      · rw [Waiter.step, if_pos hd] at hw
        cases hw
      · rw [Waiter.step, if_neg hd] at hw
        cases hw
        unfold State.RungOnce State.isDecided at hr
        rw [if_neg hd] at hr
        exact hr
    | asleep listener =>
      by_cases hwoken : listener.woken s.memory.decision.bell = true
      · rw [Waiter.step, if_pos hwoken] at hw
        cases hw
        trivial
      · rw [Waiter.step, if_neg hwoken] at hw
        cases hw
  | @replayed len cut =>
    rcases afterReplay_cases s len with ⟨-, ha⟩ | ⟨-, ha⟩
    · rw [ha] at hp
      cases hp
      trivial
    · rw [ha] at hp
      cases writeHalfNext_of_reshutWrite hp <;> trivial
  | emptyWrite | emptyWriteAll | confirmEnd | bringLate | pullEnd | pullFault => cases hp
  | _ =>
    cases hp
    trivial

theorem Effect.listens (h : Effect k s c s₁ p) (hr : s.RungOnce) (hp : p = .goesOn c') :
    c'.Listens := by
  cases h with
  | passes h => exact h.listens hr hp
  | @reads link len w r =>
    rcases afterReading_cases s k link len r with ⟨-, ha⟩ | ⟨-, -, ha⟩ | ⟨-, -, ha⟩
    · rw [ha] at hp
      cases hp
      trivial
    · rw [ha] at hp
      cases hp
    · rw [ha] at hp
      cases hp
      trivial
  | reshutsRead => cases writeHalfNext_of_reshutWrite hp <;> trivial
  | sends | sendsTo => exact (resumes_afterWrite hp).listens
  | @bare link call w p' hw =>
    cases p' with
    | done o => cases hp
    | goesOn call' =>
      cases hp
      trivial
  | retries | redials | replays | replayInterrupted | reshutsWrite | asksShut | sendFails =>
    cases hp
    trivial
  | _ => cases hp

end Latch

/-! ## Calls that hold the lock and are blocked -/

/-- A call that is no part of a retry holds the lock and waits for the connection in use: for a
write, or for a request to shut a half. -/
def Call.Stalls (k : TaskId) (s : State) : Call → Prop
  | sending _ buf => s.world.write s.memory.current (.call k) buf = none
  | shutting half => s.world.shut s.memory.current half = none
  | _ => False

instance (k : TaskId) (s : State) : ∀ c : Call, Decidable (c.Stalls k s)
  | .sending _ buf =>
    inferInstanceAs (Decidable (s.world.write s.memory.current (.call k) buf = none))
  | .shutting half => inferInstanceAs (Decidable (s.world.shut s.memory.current half = none))
  | .start _ | .queued _ | .reading .. | .redialling .. | .replaying .. | .reshutting ..
  | .answering _ | .awaiting .. | .sendingTo .. | .looking .. | .pulling .. | .bare .. =>
    .isFalse id

theorem Call.stalls_of_blocked {k : TaskId} {s : State} {c : Call} (hh : c.holds = true)
    (hr : c.isRead = false) (hb : c.step k s = none) : c.Stalls k s := by
  cases c with
  | sending goal buf =>
    cases hw : s.world.write s.memory.current (.call k) buf with
    | none => exact hw
    | some t => simp [Call.step, hw] at hb
  | shutting half =>
    cases hw : s.world.shut s.memory.current half with
    | none => exact hw
    | some t => simp [Call.step, hw] at hb
  | redialling | replaying | reshutting | answering => cases hr
  | _ => cases hh

/-- A read holds the lock in a retry only, before the question is settled. -/
theorem Call.Phase.of_holds {s : State} {c : Call} (h : c.Phase s) (hs : s.Sound)
    (hh : c.holds = true) (hr : c.isRead = true) :
    s.memory.retried = true ∧ s.isDecided = false := by
  have hsecond : s.memory.current = secondLink → s.memory.retried = true := by
    intro hcur
    rcases hs.current with hfirst | ⟨-, ht⟩
    · rw [hcur] at hfirst
      cases hfirst
    · exact ht
  cases c with
  | redialling => exact ⟨h.2.1, h.2.2.2⟩
  | replaying | reshutting | answering => exact ⟨hsecond h.1, h.2⟩
  | sending | shutting => cases hr
  | _ => cases hh

end Stream

namespace StreamSession

open Redial.Stream

variable {rule : Rule} {setup : Setup} {m : Moment}

/-! ## Turns at the lock -/

/-- The tasks at the lock are the unfinished calls that have something to do with it, and each has
one turn. -/
structure Moment.Attended (m : Moment) : Prop where
  nodup : m.state.memory.lock.members.Nodup
  mem_iff : ∀ k, k ∈ m.state.memory.lock.members ↔
    ∃ c, ⟨k, c⟩ ∈ m.machine.tasks ∧ Call.isApart c = false

theorem Moment.Attended.act (ha : m.Attended) {action : Session.Action} {machine : StreamMachine}
    (h : Acts m action machine) : Moment.Attended ⟨m.actions ++ [action], machine⟩ := by
  cases h with
  | starts request =>
    -- A call that is not yet begun has nothing to do with the lock.
    refine ⟨ha.nodup, fun k => (ha.mem_iff k).trans ⟨?_, ?_⟩⟩
    · rintro ⟨c, hk, hc⟩
      exact ⟨c, List.mem_append_left _ hk, hc⟩
    · rintro ⟨c, hk, hc⟩
      rcases List.mem_append.mp hk with hk | hk
      · exact ⟨c, hk, hc⟩
      · cases List.mem_singleton.mp hk
        cases hc
  | happens => exact ⟨ha.nodup, ha.mem_iff⟩
  | drops k =>
    unfold Machine.cancel
    split
    · exact ⟨ha.nodup, ha.mem_iff⟩
    · have hmembers : (m.state.memory.lock.forget k).members =
          m.state.memory.lock.members.filter (· != k) := Lock.members_forget ha.nodup k
      refine ⟨?_, fun j => ?_⟩
      · show (m.state.memory.lock.forget k).members.Nodup
        rw [hmembers]
        exact ha.nodup.filter _
      · show j ∈ (m.state.memory.lock.forget k).members ↔
          ∃ c, ⟨j, c⟩ ∈ Machine.without k m.machine.tasks ∧ _
        rw [hmembers, List.mem_filter, ha.mem_iff, bne_iff_ne]
        constructor
        · rintro ⟨⟨c, hj, hc⟩, hjk⟩
          exact ⟨c, Machine.mem_without_iff.mpr ⟨hj, hjk⟩, hc⟩
        · rintro ⟨c, hj, hc⟩
          obtain ⟨hj, hjk⟩ := Machine.mem_without_iff.mp hj
          exact ⟨⟨c, hj, hc⟩, hjk⟩

theorem Moment.Attended.step (ha : m.Attended) (hm : Reachable rule setup m) {k : TaskId} {c : Call}
    {s₁ : State} {l : Lock} {p : Progress Call Outcome} (hk : ⟨k, c⟩ ∈ m.machine.tasks)
    (hl : LockMove k m.state.memory.lock c p l) :
    Moment.Attended ⟨m.actions, m.machine.advance k (s₁.withLock l) p⟩ := by
  have hmine : k ∈ m.state.memory.lock.members ↔ c.isApart = false := by
    rw [ha.mem_iff]
    constructor
    · rintro ⟨d, hd, hapart⟩
      rw [Machine.call_unique hm.numbered.nodup hk hd]
      exact hapart
    · exact fun hc => ⟨c, hk, hc⟩
  obtain ⟨hnodup, hself, hothers⟩ := hl.members ha.nodup hmine (hm.holder hk)
  refine ⟨?_, fun j => ?_⟩
  · rw [Moment.state_advance]
    exact hnodup
  · rw [Moment.state_advance]
    show j ∈ l.members ↔ _
    by_cases hjk : j = k
    · subst hjk
      rw [hself]
      constructor
      · intro hp
        cases p with
        | done o => cases hp
        | goesOn d => exact ⟨d, Machine.mem_advance_self hk, hp⟩
      · rintro ⟨d, hd, hapart⟩
        rcases Machine.mem_advance hd with ⟨c', rfl, hc'⟩ | ⟨-, hne⟩
        · cases hc'
          exact hapart
        · exact absurd rfl hne
    · rw [hothers j hjk, ha.mem_iff]
      constructor
      · rintro ⟨d, hj, hd⟩
        exact ⟨d, Machine.mem_advance_of_ne hj hjk _ _, hd⟩
      · rintro ⟨d, hj, hd⟩
        rcases Machine.mem_advance hj with ⟨c', -, hc'⟩ | ⟨hj, -⟩
        · cases hc'
          exact absurd rfl hjk
        · exact ⟨d, hj, hd⟩

theorem Reachable.attended (h : Reachable rule setup m) : m.Attended := by
  refine Reachable.induction (P := Moment.Attended) h ?_ ?_
  · intro s hs
    have hmembers : s.memory.lock.members = [] := by
      rw [memory_of_opening hs]
      rfl
    refine ⟨?_, fun k => ?_⟩
    · show s.memory.lock.members.Nodup
      rw [hmembers]
      exact List.nodup_nil
    · show k ∈ s.memory.lock.members ↔ _
      rw [hmembers]
      exact iff_of_false List.not_mem_nil fun ⟨c, hk, _⟩ => List.not_mem_nil hk
  · intro m m' hm ha hn
    rcases hn.split with ⟨action, machine, -, hact, rfl⟩ | ⟨k, c, s, p, hk, hstep, rfl⟩
    · exact ha.act hact
    · obtain ⟨s₁, l, -, hl, rfl⟩ := does_of_step hstep
      exact ha.step hm hk hl

/-! ## Listeners -/

theorem inductive_listens :
    Inductive rule setup State.RungOnce fun _ _ c => c.Listens where
  opened s hs := by
    unfold State.RungOnce State.isDecided
    rw [memory_of_opening hs]
    rfl
  started k s request := trivial
  changes s action hr := ⟨hr.congr rfl, fun k c hc => hc⟩
  locks s l hr := ⟨hr.congr rfl, fun k c hc => hc⟩
  steps m k c s₁ p hm hk hr _ he :=
    ⟨he.rungOnce hm.sound (hm.phase hk) hr, fun c' hp => he.listens hr hp⟩
  others m k c s₁ p j d _ _ _ _ _ _ _ hd := hd

/-- Once the question is settled, a call that waits for that can go on. -/
theorem Reachable.wakes (h : Reachable rule setup m) (hd : m.state.isDecided = true) {k : TaskId}
    {goal : Goal} {buf : Bytes} {waiter : Waiter}
    (hk : ⟨k, .awaiting goal buf waiter⟩ ∈ m.machine.tasks) :
    Call.step k m.state (.awaiting goal buf waiter) ≠ none := by
  obtain ⟨hrung, hlistens⟩ := inductive_listens.holds h
  intro hblocked
  cases waiter with
  | arriving =>
    simp only [Call.step, Waiter.step, Option.bind_eq_bind, Option.bind_some] at hblocked
    split at hblocked <;> cases hblocked
  | asleep listener =>
    have hbefore : listener.before = 0 := hlistens k _ hk
    have hwoken : listener.woken m.state.memory.decision.bell = true := by
      unfold State.RungOnce at hrung
      rw [hd, if_pos rfl] at hrung
      simp [Listener.woken, hbefore, hrung]
    simp only [Call.step, Waiter.step, hwoken, if_true, Option.bind_eq_bind,
      Option.bind_some] at hblocked
    cases hblocked

/-! ## Quiet moments -/

/-- Every unfinished call is blocked. -/
def Moment.Quiet (m : Moment) : Prop := m.machine.quiet Stream.behaviour = true

instance (m : Moment) : Decidable m.Quiet := inferInstanceAs (Decidable (_ = true))

namespace Moment.Quiet

theorem step_eq_none (hq : m.Quiet) (h : Reachable rule setup m) {k : TaskId} {c : Call}
    (hk : ⟨k, c⟩ ∈ m.machine.tasks) : c.step k m.state = none :=
  Machine.step_eq_none_of_quiet hq h.numbered.nodup hk

/-- A call that waits for the lock waits for another call, which is blocked while it holds it. -/
theorem holder (hq : m.Quiet) (h : Reachable rule setup m) {k : TaskId} {errand : Errand}
    (hk : ⟨k, .queued errand⟩ ∈ m.machine.tasks) :
    ∃ j d, ⟨j, d⟩ ∈ m.machine.tasks ∧ m.state.memory.lock.holder? = some j ∧ j ≠ k ∧
      d.holds = true ∧ d.step j m.state = none := by
  have hmem : k ∈ m.state.memory.lock.members := (h.attended.mem_iff k).mpr ⟨_, hk, rfl⟩
  obtain ⟨j, hj⟩ : ∃ j, m.state.memory.lock.holder? = some j := by
    rw [← Lock.head?_members, ← Option.isSome_iff_exists, List.isSome_head?]
    exact List.ne_nil_of_mem hmem
  have hjmem : j ∈ m.state.memory.lock.members := by
    rw [Lock.members_of_holder? hj]
    exact List.mem_cons_self
  -- The holder is not at the place of one who has just been given the lock.
  have hnot : ∀ {i e}, ⟨i, .queued e⟩ ∈ m.machine.tasks →
      m.state.memory.lock.holder? ≠ some i := by
    intro i e hi hholder
    have hstep := hq.step_eq_none h hi
    unfold Call.step at hstep
    dsimp only at hstep
    rw [if_pos hholder] at hstep
    cases hstep
  obtain ⟨d, hd, hapart⟩ := (h.attended.mem_iff j).mp hjmem
  refine ⟨j, d, hd, hj, ?_, ?_, hq.step_eq_none h hd⟩
  · rintro rfl
    exact hnot hk hj
  · cases d with
    | queued e => exact absurd hj (hnot hd)
    | redialling | replaying | reshutting | answering | sending | shutting => rfl
    | _ => cases hapart

/-- A call that waits for the question to be settled finds it open. -/
theorem isDecided (hq : m.Quiet) (h : Reachable rule setup m) {k : TaskId} {goal : Goal}
    {buf : Bytes} {waiter : Waiter} (hk : ⟨k, .awaiting goal buf waiter⟩ ∈ m.machine.tasks) :
    m.state.isDecided = false := by
  rw [← Bool.not_eq_true]
  intro hd
  exact h.wakes hd hk (hq.step_eq_none h hk)

/-- Once the question is settled, no call waits for that. -/
theorem not_awaiting (hq : m.Quiet) (h : Reachable rule setup m) (hd : m.state.isDecided = true)
    (k : TaskId) (goal : Goal) (buf : Bytes) (waiter : Waiter) :
    ⟨k, .awaiting goal buf waiter⟩ ∉ m.machine.tasks := by
  intro hk
  rw [hq.isDecided h hk] at hd
  cases hd

end Moment.Quiet

/-- A read waits for the lock, which is held by a write or a request to shut a half that waits for
the connection in use. -/
structure Moment.HeldUp (m : Moment) (k : TaskId) : Prop where
  waits : ∃ errand, ⟨k, .queued errand⟩ ∈ m.machine.tasks ∧ errand.kind = .read
  stalled : ∃ j d, ⟨j, d⟩ ∈ m.machine.tasks ∧ m.state.memory.lock.holder? = some j ∧
    d.Stalls j m.state

/-- If no other read holds the lock, a call that waits for it waits for the connection in use in the
end. -/
theorem Moment.Quiet.stalled (hq : m.Quiet) (h : Reachable rule setup m) {k : TaskId}
    {errand : Errand} (hk : ⟨k, .queued errand⟩ ∈ m.machine.tasks)
    (hreads : ∀ j d, ⟨j, d⟩ ∈ m.machine.tasks → j ≠ k → Call.holds d = true →
      Call.isRead d = false) :
    ∃ j d, ⟨j, d⟩ ∈ m.machine.tasks ∧ m.state.memory.lock.holder? = some j ∧
      Call.Stalls j m.state d := by
  obtain ⟨j, d, hj, hholder, hjk, hholds, hblocked⟩ := hq.holder h hk
  exact ⟨j, d, hj, hholder, Call.stalls_of_blocked hholds (hreads j d hj hjk hholds) hblocked⟩

/-- Before any retry, no read holds the lock over a wait. -/
theorem Moment.Quiet.stalled_of_unretried (hq : m.Quiet) (h : Reachable rule setup m)
    (ht : m.state.memory.retried = false) {k : TaskId} {errand : Errand}
    (hk : ⟨k, .queued errand⟩ ∈ m.machine.tasks) :
    ∃ j d, ⟨j, d⟩ ∈ m.machine.tasks ∧ m.state.memory.lock.holder? = some j ∧
      Call.Stalls j m.state d := by
  refine hq.stalled h hk fun j d hj _ hholds => ?_
  rw [← Bool.not_eq_true]
  intro hread
  rw [((h.phase hj).of_holds h.sound hholds hread).1] at ht
  cases ht

end StreamSession

end Redial
