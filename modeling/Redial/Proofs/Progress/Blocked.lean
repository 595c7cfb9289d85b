import Redial.Proofs.Progress.Reply

/-!
# What blocked calls wait for

A call is blocked at the lock, at the latch, or outside the stream: by a connection, by the dial of
a retry, or by the source of a copy (`Call.waits_of_blocked`). Whoever holds the lock at a quiet
moment waits outside, and nobody waits for a question that is settled. So when nothing outside keeps
a call waiting and the question is settled, no call is left (`no_internal_deadlock`).
-/

namespace Redial

namespace Stream

/-- A call is blocked by something outside the stream. -/
def Call.WaitsOutside (k : TaskId) (s : State) : Call → Prop
  | reading link len => s.world.read link k len = none
  | redialling _ dial => s.world.dialled dial = none
  | replaying _ _ _ rest => rest ≠ [] ∧ s.world.write s.memory.current (.replay k) rest = none
  | reshutting _ half => s.world.shut s.memory.current half = none
  | answering len => s.world.read s.memory.current k len = none
  | sending _ buf => s.world.write s.memory.current (.call k) buf = none
  | sendingTo link _ buf => s.world.write link (.call k) buf = none
  | pulling _ source => source.pull s.world.opened s.terms.chunkLen = none
  | shutting half => s.world.shut s.memory.current half = none
  | bare link call => call.step k link s.world = none
  | _ => False

instance (k : TaskId) (s : State) : ∀ c : Call, Decidable (c.WaitsOutside k s)
  | .reading link len => inferInstanceAs (Decidable (s.world.read link k len = none))
  | .redialling _ dial => inferInstanceAs (Decidable (s.world.dialled dial = none))
  | .replaying _ _ _ rest =>
    inferInstanceAs (Decidable (rest ≠ [] ∧ s.world.write s.memory.current (.replay k) rest = none))
  | .reshutting _ half => inferInstanceAs (Decidable (s.world.shut s.memory.current half = none))
  | .answering len => inferInstanceAs (Decidable (s.world.read s.memory.current k len = none))
  | .sending _ buf =>
    inferInstanceAs (Decidable (s.world.write s.memory.current (.call k) buf = none))
  | .sendingTo link _ buf => inferInstanceAs (Decidable (s.world.write link (.call k) buf = none))
  | .pulling _ source =>
    inferInstanceAs (Decidable (source.pull s.world.opened s.terms.chunkLen = none))
  | .shutting half => inferInstanceAs (Decidable (s.world.shut s.memory.current half = none))
  | .bare link call => inferInstanceAs (Decidable (call.step k link s.world = none))
  | .start _ | .queued _ | .awaiting .. | .looking .. => .isFalse id

/-- Whether a call waits for the question to be settled. -/
def Call.isAwaiting : Call → Bool
  | awaiting .. => true
  | _ => false

theorem Call.eq_queued {c : Call} (h : c.isQueued = true) : ∃ errand, c = .queued errand := by
  cases c with
  | queued errand => exact ⟨errand, rfl⟩
  | _ => cases h

theorem Call.eq_awaiting {c : Call} (h : c.isAwaiting = true) :
    ∃ goal buf waiter, c = .awaiting goal buf waiter := by
  cases c with
  | awaiting goal buf waiter => exact ⟨goal, buf, waiter, rfl⟩
  | _ => cases h

/-- Where a call can be blocked: at the lock, at the latch, or outside. -/
theorem Call.waits_of_blocked {k : TaskId} {s : State} {c : Call} (h : c.step k s = none) :
    c.isQueued = true ∨ c.isAwaiting = true ∨ c.WaitsOutside k s := by
  -- A step of any other place is that of the call outside that it makes.
  have houtside : ∀ {α : Type} {o : Option α} {f : α → Turn},
      (o.bind fun a => some (f a)) = none → o = none := by
    intro α o f hnone
    cases o with
    | none => rfl
    | some a => cases hnone
  cases c with
  | queued errand => exact Or.inl rfl
  | awaiting goal buf waiter => exact Or.inr (Or.inl rfl)
  | start request => cases h
  | looking copied source => cases h
  | replaying len cut piece rest =>
    cases rest with
    | nil => cases piece <;> cases h
    | cons b bs =>
      refine Or.inr (Or.inr ⟨List.cons_ne_nil b bs, ?_⟩)
      cases piece <;> exact houtside h
  | _ => exact Or.inr (Or.inr (houtside h))

end Stream

namespace StreamSession

open Redial.Stream

variable {rule : Rule} {setup : Setup} {m : Moment}

/-- A call that waits for the question to be settled has released the lock. -/
theorem Reachable.not_holder_of_awaiting (h : Reachable rule setup m) {k : TaskId} {goal : Goal}
    {buf : Bytes} {waiter : Waiter} (hk : ⟨k, .awaiting goal buf waiter⟩ ∈ m.machine.tasks) :
    m.state.memory.lock.holder? ≠ some k := by
  intro hholder
  have hmem : k ∈ m.state.memory.lock.members := by
    rw [Lock.members_of_holder? hholder]
    exact List.mem_cons_self
  obtain ⟨c, hc, hapart⟩ := (h.attended.mem_iff k).mp hmem
  cases Machine.call_unique h.numbered.nodup hk hc
  cases hapart

/-- At a quiet moment whoever holds the lock is blocked outside. -/
theorem Moment.Quiet.holder_waits (hq : m.Quiet) (h : Reachable rule setup m) {k : TaskId}
    {errand : Errand} (hk : ⟨k, .queued errand⟩ ∈ m.machine.tasks) :
    ∃ j d, ⟨j, d⟩ ∈ m.machine.tasks ∧ m.state.memory.lock.holder? = some j ∧ j ≠ k ∧
      d.holds = true ∧ d.WaitsOutside j m.state := by
  obtain ⟨j, d, hj, hholder, hjk, hholds, hblocked⟩ := hq.holder h hk
  refine ⟨j, d, hj, hholder, hjk, hholds, ?_⟩
  rcases Call.waits_of_blocked hblocked with hqueued | hawaits | hout
  · obtain ⟨errand, rfl⟩ := Call.eq_queued hqueued
    cases hholds
  · obtain ⟨goal, buf, waiter, rfl⟩ := Call.eq_awaiting hawaits
    cases hholds
  · exact hout

/-- Once the question is settled, calls are left at a quiet moment only if one waits outside. -/
theorem Moment.Quiet.pending_eq_nil (hq : m.Quiet) (h : Reachable rule setup m)
    (hd : m.state.isDecided = true)
    (hout : ∀ k c, ⟨k, c⟩ ∈ m.machine.tasks → ¬Call.WaitsOutside k m.state c) :
    m.machine.pending = [] := by
  unfold Machine.pending
  rw [List.map_eq_nil_iff, List.eq_nil_iff_forall_not_mem]
  rintro ⟨k, c⟩ hk
  rcases Call.waits_of_blocked (hq.step_eq_none h hk) with hqueued | hawaits | hwaits
  · obtain ⟨errand, rfl⟩ := Call.eq_queued hqueued
    obtain ⟨j, d, hj, -, -, -, hwaits⟩ := hq.holder_waits h hk
    exact hout j d hj hwaits
  · obtain ⟨goal, buf, waiter, rfl⟩ := Call.eq_awaiting hawaits
    exact hq.not_awaiting h hd k goal buf waiter hk
  · exact hout k c hk hwaits

/-- At a quiet moment a call that waits for the lock waits for another one, which is unfinished and
not dropped, and which holds the lock while it waits outside: for a write, a request to shut a half,
or, in a retry, for the dial or for the second connection. A call that waits for the question to be
settled does not hold the lock, and the question is open. When the question is settled and no call
waits outside, every call is done. -/
theorem no_internal_deadlock {setup : Setup} {m : Moment} (h : Reachable anything setup m)
    (hq : m.Quiet) :
    (∀ k errand, ⟨k, .queued errand⟩ ∈ m.machine.tasks →
      ∃ j d, ⟨j, d⟩ ∈ m.machine.tasks ∧ m.state.memory.lock.holder? = some j ∧ j ≠ k ∧
        (∀ o, (j, o) ∉ m.machine.finished) ∧ .cancel j ∉ m.actions.drop j ∧
        d.holds = true ∧ d.WaitsOutside j m.state ∧
        (d.renews = true → m.state.memory.current = secondLink)) ∧
    (∀ k goal buf waiter, ⟨k, .awaiting goal buf waiter⟩ ∈ m.machine.tasks →
      m.state.memory.lock.holder? ≠ some k ∧ m.state.isDecided = false) ∧
    (m.state.isDecided = true →
      (∀ k c, ⟨k, c⟩ ∈ m.machine.tasks → ¬Call.WaitsOutside k m.state c) →
      m.machine.pending = []) := by
  refine ⟨fun k errand hk => ?_, fun k goal buf waiter hk => ?_, hq.pending_eq_nil h⟩
  · obtain ⟨j, d, hj, hholder, hjk, hholds, hout⟩ := hq.holder_waits h hk
    refine ⟨j, d, hj, hholder, hjk, h.unfinished hj, h.undropped hj, hholds, hout, fun hr => ?_⟩
    exact ((h.phase hj).of_renews hr).1
  · exact ⟨h.not_holder_of_awaiting hk, hq.isDecided h hk⟩

/-- One write has failed and waits for the question to be settled, another one waits for the lock,
which the retry holds while it waits for the reply. After the reply nothing is left. -/
theorem no_internal_deadlock_after_failed_write : ∃ m, Reachable anything failedWriteSession m ∧
    m.Quiet ∧ m.machine.pending = [1, 2, 3] ∧ m.state.isDecided = false ∧
    (∃ j d, ⟨j, d⟩ ∈ m.machine.tasks ∧ m.state.memory.lock.holder? = some j ∧ j ≠ 3 ∧
      d.WaitsOutside j m.state) ∧
    (m.next reply).Quiet ∧ (m.next reply).machine.pending = [] := by
  have hm : ∃ m, failedWriteSession.played [.call (.write [1]), .call (.write [2]),
      .call (.read 4), .call (.write [3])] = some m ∧ m.Quiet ∧ m.machine.pending = [1, 2, 3] ∧
      (∃ t ∈ m.machine.tasks, t.id = 1 ∧ t.call.isAwaiting = true) ∧
      (∃ t ∈ m.machine.tasks, t.id = 3 ∧ t.call.isQueued = true) ∧
      (m.next reply).Quiet ∧ (m.next reply).state.isDecided = true ∧
      ∀ t ∈ (m.next reply).machine.tasks, ¬t.call.WaitsOutside t.id (m.next reply).state := by
    refine ⟨_, rfl, ?_, ?_, ?_, ?_, ?_, ?_, ?_⟩
    · decide +kernel
    · decide +kernel
    · decide +kernel
    · decide +kernel
    · decide +kernel
    · decide +kernel
    · decide +kernel
  obtain ⟨m, hplayed, hq, hpending, ⟨⟨_, c⟩, hk, rfl, hc⟩, ⟨⟨_, d⟩, hj, rfl, hd⟩, hq', hd',
    hout⟩ := hm
  obtain ⟨goal, buf, waiter, rfl⟩ := Call.eq_awaiting hc
  obtain ⟨errand, rfl⟩ := Call.eq_queued hd
  have h : Reachable anything failedWriteSession m :=
    reachable_of_played (Setup.keeps_anything _ _) hplayed
  have h' : Reachable anything failedWriteSession (m.next reply) :=
    h.leads (Moment.leads_next trivial)
  obtain ⟨hlock, hlatch, -⟩ := no_internal_deadlock h hq
  obtain ⟨i, e, hi, hholder, hne, -, -, -, hwaits, -⟩ := hlock 3 errand hj
  obtain ⟨-, -, hnone⟩ := no_internal_deadlock h' hq'
  exact ⟨m, h, hq, hpending, (hlatch 1 goal buf waiter hk).2, ⟨i, e, hi, hholder, hne, hwaits⟩, hq',
    hnone hd' fun k c hk => hout ⟨k, c⟩ hk⟩

end StreamSession

end Redial
