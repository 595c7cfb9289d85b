import Redial.Proofs.Wire.Calls

/-!
# What connections have accepted

Two views of a journal: the bytes that one connection has accepted, whoever wrote them, and the
bytes of callers that any connection has accepted (`Journal.acknowledged`). Only a write that is
accepted changes one of them.
-/

namespace Redial

namespace Event

/-- The bytes of a caller that a connection accepted. -/
def acknowledged? : Event → Option Bytes
  | accepted _ (.call _) bytes => some bytes
  | _ => none

/-- Whether a connection accepted bytes. -/
def isAcceptance : Event → Bool
  | accepted .. => true
  | _ => false

theorem acknowledged?_of_not_acceptance {e : Event} (h : e.isAcceptance = false) :
    e.acknowledged? = none := by
  cases e with
  | accepted => cases h
  | _ => rfl

theorem acceptedBy?_of_not_acceptance {e : Event} (h : e.isAcceptance = false) (i : LinkId) :
    e.acceptedBy? i = none := by
  cases e with
  | accepted => cases h
  | _ => rfl

end Event

namespace Journal

/-- The bytes of callers that have been accepted, in order, over all connections. The replay of a
hello is not written for a caller. -/
def acknowledged (j : Journal) : Bytes := (j.findings Event.acknowledged?).flatten

theorem flatten_findings_cons (e : Entered) (j : Journal) (f : Event → Option Bytes) :
    (findings (e :: j) f).flatten = (j.findings f).flatten ++ (f e.event).getD [] := by
  rw [findings_cons, List.flatten_append]
  cases f e.event with
  | none => rfl
  | some bytes => simp

theorem acknowledged_cons (e : Entered) (j : Journal) :
    acknowledged (e :: j) = acknowledged j ++ (e.event.acknowledged?).getD [] :=
  flatten_findings_cons e j _

theorem bytesAccepted_cons (e : Entered) (j : Journal) (i : LinkId) :
    bytesAccepted (e :: j) i = bytesAccepted j i ++ (e.event.acceptedBy? i).getD [] :=
  flatten_findings_cons e j _

end Journal

namespace World

variable {w w' : World} {i : LinkId}

/-- Nothing has been accepted in between. -/
structure SameAccepted (w w' : World) : Prop where
  acknowledged : w'.journal.acknowledged = w.journal.acknowledged
  bytesAccepted : ∀ i, w'.journal.bytesAccepted i = w.journal.bytesAccepted i

/-- In between, connection `i` has accepted `bytes`, and no other one has accepted any. -/
structure Accepts (i : LinkId) (bytes : Bytes) (w w' : World) : Prop where
  self : w'.journal.bytesAccepted i = w.journal.bytesAccepted i ++ bytes
  others : ∀ j, j ≠ i → w'.journal.bytesAccepted j = w.journal.bytesAccepted j

namespace SameAccepted

theorem refl (w : World) : w.SameAccepted w := ⟨rfl, fun _ => rfl⟩

theorem trans {w₁ w₂ w₃ : World} (h : w₁.SameAccepted w₂) (h' : w₂.SameAccepted w₃) :
    w₁.SameAccepted w₃ :=
  ⟨h'.acknowledged.trans h.acknowledged, fun i => (h'.bytesAccepted i).trans (h.bytesAccepted i)⟩

theorem of_journal (h : w'.journal = w.journal) : w.SameAccepted w' := by
  refine ⟨?_, fun i => ?_⟩
  · rw [h]
  · rw [h]

theorem of_enters (h : w.Enters (·.isAcceptance = false) w') : w.SameAccepted w' := by
  obtain ⟨es, hj, he⟩ := h
  induction es generalizing w' with
  | nil => exact of_journal hj
  | cons e es ih =>
    have hes : w.SameAccepted { w' with journal := es ++ w.journal } :=
      ih rfl fun d hd => he d (List.mem_cons_of_mem e hd)
    have hone := he e List.mem_cons_self
    refine ⟨?_, fun i => ?_⟩
    · rw [hj, List.cons_append, Journal.acknowledged_cons,
        Event.acknowledged?_of_not_acceptance hone, ← hes.acknowledged]
      exact List.append_nil _
    · rw [hj, List.cons_append, Journal.bytesAccepted_cons,
        Event.acceptedBy?_of_not_acceptance hone, ← hes.bytesAccepted i]
      exact List.append_nil _

theorem note (w : World) (n : Notice) : w.SameAccepted (w.note n) := of_enters (.note rfl)

theorem read {task : TaskId} {len : Nat} {r : Except Fault Bytes}
    (h : w.read i task len = some (w', r)) : w.SameAccepted w' := by
  refine of_enters (.read h ?_)
  cases r <;> rfl

theorem writeFailed {purpose : Purpose} {buf : Bytes} {f : Fault}
    (h : w.write i purpose buf = some (w', .error f)) : w.SameAccepted w' :=
  of_enters (.write h rfl)

theorem shut {half : Half} {r : ShutAnswer} (h : w.shut i half = some (w', r)) :
    w.SameAccepted w' := of_enters (.shut h rfl)

theorem setDeadline (w : World) (i : LinkId) (deadline : Option Instant) :
    w.SameAccepted (w.setDeadline i deadline) := of_enters (.setDeadline rfl)

theorem dialled {r : Except Fault LinkId} (h : w.dialled i = some (w', r)) :
    w.SameAccepted w' := of_enters (.dialled h rfl fun _ => rfl)

end SameAccepted

theorem Accepts.write {purpose : Purpose} {buf bytes : Bytes}
    (h : w.write i purpose buf = some (w', .ok bytes)) : Accepts i bytes w w' := by
  obtain ⟨l, l', -, -, rfl⟩ := write_eq_some h
  refine ⟨?_, fun j hj => ?_⟩
  · rw [journal_enter, Journal.bytesAccepted_cons]
    simp [writeEvent, Event.acceptedBy?, setLink]
  · rw [journal_enter, Journal.bytesAccepted_cons]
    simp [writeEvent, Event.acceptedBy?, setLink, Ne.symm hj]

/-- A write that is accepted with nothing changes nothing. -/
theorem SameAccepted.writeStuck {purpose : Purpose} {buf : Bytes}
    (h : w.write i purpose buf = some (w', .ok [])) : w.SameAccepted w' := by
  obtain ⟨l, l', -, -, rfl⟩ := write_eq_some h
  refine ⟨?_, fun j => ?_⟩
  · rw [journal_enter, Journal.acknowledged_cons]
    cases purpose <;> exact List.append_nil _
  · rw [journal_enter, Journal.bytesAccepted_cons]
    by_cases hj : i = j
    · simp [writeEvent, Event.acceptedBy?, setLink, hj]
    · simp [writeEvent, Event.acceptedBy?, setLink, hj]

theorem acknowledged_write_call {task : TaskId} {buf bytes : Bytes}
    (h : w.write i (.call task) buf = some (w', .ok bytes)) :
    w'.journal.acknowledged = w.journal.acknowledged ++ bytes := by
  obtain ⟨l, l', -, -, rfl⟩ := write_eq_some h
  exact Journal.acknowledged_cons _ _

theorem acknowledged_write_replay {task : TaskId} {buf bytes : Bytes}
    (h : w.write i (.replay task) buf = some (w', .ok bytes)) :
    w'.journal.acknowledged = w.journal.acknowledged := by
  obtain ⟨l, l', -, -, rfl⟩ := write_eq_some h
  exact (Journal.acknowledged_cons _ _).trans (List.append_nil _)

end World

end Redial
