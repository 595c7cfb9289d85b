import Redial.Proofs.Wire.Calls

/-!
# What has been taken from connections

The bytes that reads have taken from a connection, each with the task that took them, in the order
of the connection. A read that meets the end of the stream or a fault takes nothing.
-/

namespace Redial

/-- What a read with this result has taken for its task. -/
def taken (k : TaskId) : Except Fault Bytes → List (TaskId × Bytes)
  | .ok (b :: bs) => [(k, b :: bs)]
  | _ => []

namespace Event

/-- Whether a read of a connection came to an end. -/
def isRead : Event → Bool
  | delivered .. => true
  | readFailed .. => true
  | _ => false

/-- What was taken from a connection. -/
def takenFrom (link : LinkId) : Event → List (TaskId × Bytes)
  | delivered l k bytes => if l = link then taken k (.ok bytes) else []
  | _ => []

theorem takenFrom_of_not_read {e : Event} (h : e.isRead = false) (link : LinkId) :
    e.takenFrom link = [] := by
  cases e with
  | delivered => cases h
  | _ => rfl

end Event

namespace Journal

/-- What was taken from a connection, in order. -/
def deliveries (j : Journal) (link : LinkId) : List (TaskId × Bytes) :=
  j.reverse.flatMap fun e => e.event.takenFrom link

theorem deliveries_cons (e : Entered) (j : Journal) (link : LinkId) :
    deliveries (e :: j) link = j.deliveries link ++ e.event.takenFrom link := by
  unfold deliveries
  simp

end Journal

namespace World

variable {w w' : World}

theorem deliveries_of_enters (h : w.Enters (·.isRead = false) w') (i : LinkId) :
    w'.journal.deliveries i = w.journal.deliveries i := by
  obtain ⟨es, hj, he⟩ := h
  rw [hj]
  clear hj
  induction es with
  | nil => rfl
  | cons e es ih =>
    have hes := ih fun d hd => he d (List.mem_cons_of_mem e hd)
    rw [List.cons_append, Journal.deliveries_cons,
      Event.takenFrom_of_not_read (he e List.mem_cons_self), hes]
    exact List.append_nil _

theorem deliveries_read {i : LinkId} {task : TaskId} {len : Nat} {r : Except Fault Bytes}
    (h : w.read i task len = some (w', r)) (j : LinkId) :
    w'.journal.deliveries j = w.journal.deliveries j ++ if j = i then taken task r else [] := by
  obtain ⟨l, l', -, -, rfl⟩ := read_eq_some h
  rw [journal_enter, Journal.deliveries_cons]
  show w.journal.deliveries j ++ _ = _
  cases r with
  | ok bytes =>
    by_cases hj : i = j
    · rw [if_pos hj.symm]
      show _ ++ (if i = j then taken task (.ok bytes) else []) = _
      rw [if_pos hj]
    · rw [if_neg (Ne.symm hj)]
      show _ ++ (if i = j then taken task (.ok bytes) else []) = _
      rw [if_neg hj]
  | error f =>
    by_cases hj : i = j
    · rw [if_pos hj.symm]
      rfl
    · rw [if_neg (Ne.symm hj)]
      rfl

end World

end Redial
