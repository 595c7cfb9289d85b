import Redial.Proofs.Stream.Kinds
import Redial.Proofs.Wire.Deliveries

/-!
# One read at a time

Sessions in which a read is started only if no other one is unfinished. Then nobody but the reader
replaces the connection in use or settles the question, so a read that was begun while the question
was open finds it open when it brings its result, and the connection that it has looked up is still
in use (`Call.Placed`).
-/

namespace Redial

namespace Stream

/-- What holds of the shared state while the only read is at a place before any retry. -/
def Call.Placed (s : State) : Call → Prop
  | queued (.locate _) => s.isDecided = false
  | queued .confirmEnd => s.isDecided = false
  | reading link _ => link = s.memory.current ∧ s.isDecided = false
  | queued (.judge link _ _) => link = s.memory.current ∧ s.isDecided = false
  | _ => True

section Steps

variable {k : TaskId} {s s₁ : State} {c c' : Call} {p : Progress Call Outcome}

/-- Only reads replace the connection in use, settle the question, and take from connections. -/
theorem Effect.of_not_read (h : Effect k s c s₁ p) (hc : c.isRead = false) :
    s₁.memory.current = s.memory.current ∧ s₁.memory.decision = s.memory.decision ∧
      s.world.Enters (·.isRead = false) s₁.world := by
  have hwrite : ∀ {i purpose buf w r}, s.world.write i purpose buf = some (w, r) →
      s.world.Enters (·.isRead = false) w := by
    intro i purpose buf w r hw
    refine .write hw ?_
    cases r <;> rfl
  cases h with
  | passes => exact ⟨rfl, rfl, .refl _⟩
  | @asksShut half => cases half <;> exact ⟨rfl, rfl, .refl _⟩
  | sends hw => exact ⟨rfl, rfl, (hwrite hw).trans (.setDeadline rfl)⟩
  | sendFails hw =>
    exact ⟨rfl, rfl, (hwrite hw).trans (World.Enters.trans (.setDeadline rfl) (.note rfl))⟩
  | sendsTo hw => exact ⟨rfl, rfl, hwrite hw⟩
  | shuts hw => exact ⟨rfl, rfl, .shut hw rfl⟩
  | bare hw =>
    cases BareCall.effect_of_step hw with
    | reads => cases hc
    | writes hin | writesAll _ hin | copies _ hin => exact ⟨rfl, rfl, hwrite hin⟩
    | shuts hin => exact ⟨rfl, rfl, .shut hin rfl⟩
    | _ => exact ⟨rfl, rfl, .refl _⟩
  | _ => cases hc

theorem Call.Placed.congr (h : c.Placed s) (hc : s₁.memory.current = s.memory.current)
    (hd : s₁.memory.decision = s.memory.decision) : c.Placed s₁ := by
  unfold Call.Placed State.isDecided at h ⊢
  rw [hc, hd]
  exact h

theorem Call.Placed.of_not_retrieves (h : c.retrieves = false) : c.Placed s := by
  unfold Call.Placed
  split
  · cases h
  · cases h
  · cases h
  · cases h
  · trivial

theorem Retrieval.placed (h : Retrieval k s c s₁ c') (hc : c.Placed s) : c'.Placed s₁ := by
  cases h with
  | begins hd => exact State.isDecided_eq_false_iff.mpr hd
  | locates => exact ⟨rfl, hc⟩
  | brings => exact hc
  | meetsEnd => exact hc.2

end Steps

end Stream

namespace StreamSession

open Redial.Stream

/-- Whether no read is unfinished. -/
def Moment.readless (m : Moment) : Bool := m.machine.tasks.all fun t => !t.call.isRead

/-- A read may be started only if no read is unfinished. -/
def oneReader : Rule
  | m, .call (.read _) => m.readless = true
  | _, _ => True

/-- Reads must not overlap, and none may be dropped. -/
def patientReader : Rule
  | m, .call (.read _) => m.readless = true
  | m, .cancel k => m.machine.tasks.all (fun t => t.id != k || !t.call.isRead) = true
  | _, _ => True

instance (m : Moment) : ∀ action, Decidable (oneReader m action)
  | .call (.read _) => inferInstanceAs (Decidable (m.readless = true))
  | .call (.write _) | .call (.writeAll _) | .call (.copy _) | .call (.shut _) | .cancel _
  | .openGate _ | .elapse _ | .feed _ _ | .describe | .idle => .isTrue trivial

instance (m : Moment) : ∀ action, Decidable (patientReader m action)
  | .call (.read _) => inferInstanceAs (Decidable (m.readless = true))
  | .cancel _ => inferInstanceAs (Decidable (_ = true))
  | .call (.write _) | .call (.writeAll _) | .call (.copy _) | .call (.shut _)
  | .openGate _ | .elapse _ | .feed _ _ | .describe | .idle => .isTrue trivial

theorem oneReader_of_patientReader {m : Moment} {action : Session.Action}
    (h : patientReader m action) : oneReader m action := by
  unfold patientReader at h
  unfold oneReader
  split
  · exact h
  · trivial

variable {setup : Setup} {m m' : Moment}

/-- At most one read is unfinished. -/
def Moment.Single (m : Moment) : Prop :=
  ∀ k c j d, ⟨k, c⟩ ∈ m.machine.tasks → ⟨j, d⟩ ∈ m.machine.tasks →
    Call.isRead c = true → Call.isRead d = true → j = k

theorem Reachable.single (h : Reachable oneReader setup m) : m.Single := by
  refine Reachable.induction (P := Moment.Single) h ?_ ?_
  · intro s _ k c j d hk
    exact absurd hk List.not_mem_nil
  · intro m m' _ hs hn
    rcases hn.split with ⟨action, machine, hrule, ha, rfl⟩ | ⟨k, c, s, p, hk, hstep, rfl⟩
    · -- A new read finds no other one.
      have hnew : ∀ request, action = .call request →
          Call.isRead (.start request) = true → ∀ k c, ⟨k, c⟩ ∈ m.machine.tasks →
            Call.isRead c = false := by
        intro request haction hr k c hk
        cases request with
        | read len =>
          subst haction
          have hall := List.all_eq_true.mp hrule _ hk
          simpa using hall
        | _ => cases hr
      intro k c j d hk hj hc hd
      rcases ha.mem_tasks hk with hk | ⟨request, haction, hk', rfl⟩
      · rcases ha.mem_tasks hj with hj | ⟨request, haction, -, rfl⟩
        · exact hs k c j d hk hj hc hd
        · rw [hnew request haction hd k c hk] at hc
          cases hc
      · rcases ha.mem_tasks hj with hj | ⟨request', -, hj', rfl⟩
        · rw [hnew request haction hc j d hj] at hd
          cases hd
        · rw [hk', hj']
    · obtain ⟨s₁, l, he, -, rfl⟩ := does_of_step hstep
      -- The step leaves each call a read that was one.
      have hold : ∀ j d, ⟨j, d⟩ ∈ (m.machine.advance k (s₁.withLock l) p).tasks →
          Call.isRead d = true → ∃ d', ⟨j, d'⟩ ∈ m.machine.tasks ∧ d'.isRead = true := by
        intro j d hj hd
        rcases Machine.mem_advance hj with ⟨c', hgo, hc'⟩ | ⟨hj, -⟩
        · cases hc'
          exact ⟨c, hk, (he.isRead hgo).symm.trans hd⟩
        · exact ⟨d, hj, hd⟩
      intro i c₁ j c₂ hi hj h₁ h₂
      obtain ⟨d₁, hi, h₁⟩ := hold i c₁ hi h₁
      obtain ⟨d₂, hj, h₂⟩ := hold j c₂ hj h₂
      exact hs i d₁ j d₂ hi hj h₁ h₂

/-- The only read finds the question as it has left it. -/
theorem inductive_placed : Inductive oneReader setup (fun _ => True) fun _ s c => c.Placed s where
  opened s hs := trivial
  started k s request := trivial
  changes s action _ := ⟨trivial, fun k c hc => hc.congr rfl rfl⟩
  locks s l _ := ⟨trivial, fun k c hc => hc.congr rfl rfl⟩
  steps m k c s₁ p hm hk _ hc he := by
    refine ⟨trivial, fun c' hp => ?_⟩
    cases hr : c'.retrieves with
    | false => exact .of_not_retrieves hr
    | true => exact (he.retrieval hp hr).placed hc
  others m k c s₁ p j d hm hk hj hjk _ _ he hd := by
    cases hr : d.retrieves with
    | false => exact .of_not_retrieves hr
    | true =>
      have hread : d.isRead = true := by
        cases d with
        | queued errand => cases errand <;> first | rfl | cases hr
        | reading => rfl
        | _ => cases hr
      have hnot : c.isRead = false := by
        rw [← Bool.not_eq_true]
        intro hc
        exact hjk (hm.single k c j d hk hj hc hread)
      obtain ⟨hcur, hdec, -⟩ := he.of_not_read hnot
      exact hd.congr hcur hdec

theorem Reachable.placed (h : Reachable oneReader setup m) {k : TaskId} {c : Call}
    (ht : ⟨k, c⟩ ∈ m.machine.tasks) : c.Placed m.state :=
  (inductive_placed.holds h).2 k c ht

end StreamSession

end Redial
