import Redial.Proofs.Wire.Calls

/-!
# Traces

What came to an end on connections and dials between two states of the world, in order, as seen by
one task: reports of a stream are left out, and so are reads of other tasks.
-/

namespace Redial

/-- An event, unless it is a report of a stream or a read of another task than `k`. -/
def Event.besideReads? (k : TaskId) : Event → Option Event
  | noticed _ => none
  | delivered link j bytes => if j = k then some (.delivered link j bytes) else none
  | readFailed link j f => if j = k then some (.readFailed link j f) else none
  | e => some e

theorem Journal.findings_append {α : Type} (j j' : Journal) (f : Event → Option α) :
    findings (j ++ j') f = findings j' f ++ findings j f := by
  unfold findings
  rw [List.filterMap_append, List.reverse_append]

/-- What comes after the entries of `j` in a journal that they begin. -/
theorem Journal.after_append (es j : Journal) : after (es ++ j) j.length = es := by
  unfold after
  rw [List.length_append, Nat.add_sub_cancel, List.take_left]

namespace World

/-- Nothing has been entered. -/
theorem Enters.journal {w w' : World} (h : w.Enters (fun _ => False) w') :
    w'.journal = w.journal := by
  obtain ⟨es, hj, hnone⟩ := h
  cases es with
  | nil => exact hj
  | cons e es => exact absurd (hnone e List.mem_cons_self) not_false

variable {k : TaskId} {w w' w'' : World} {i : LinkId} {es es' : List Event}

/-- In between, the calls `es` came to an end, in this order; reports of a stream and reads of other
tasks than `k` are not counted. -/
def Traces (k : TaskId) (w : World) (es : List Event) (w' : World) : Prop :=
  ∃ j : Journal, w'.journal = j ++ w.journal ∧ j.findings (Event.besideReads? k) = es

namespace Traces

theorem of_same (h : w'.journal = w.journal) : w.Traces k [] w' := ⟨[], h, rfl⟩

theorem refl (w : World) : w.Traces k [] w := of_same rfl

theorem trans (h : w.Traces k es w') (h' : w'.Traces k es' w'') : w.Traces k (es ++ es') w'' := by
  obtain ⟨j, hj, he⟩ := h
  obtain ⟨j', hj', he'⟩ := h'
  refine ⟨j' ++ j, ?_, ?_⟩
  · rw [hj', hj, List.append_assoc]
  · rw [Journal.findings_append, he, he']

/-- Steps that are not counted do not matter. -/
theorem trans_nil (h : w.Traces k es w') (h' : w'.Traces k [] w'') : w.Traces k es w'' := by
  have hall := h.trans h'
  rw [List.append_nil] at hall
  exact hall

theorem enter {e : Event} (h : e.besideReads? k = some e) (w : World) :
    w.Traces k [e] (w.enter e) := by
  refine ⟨[⟨w.now, e⟩], rfl, ?_⟩
  unfold Journal.findings
  simp [h]

theorem note (w : World) (n : Notice) : w.Traces k [] (w.note n) :=
  ⟨[⟨w.now, .noticed n⟩], rfl, rfl⟩

theorem read {len : Nat} {r : Except Fault Bytes} (h : w.read i k len = some (w', r)) :
    w.Traces k [readEvent i k r] w' := by
  obtain ⟨l, l', -, -, rfl⟩ := read_eq_some h
  refine (of_same rfl).trans (enter ?_ _)
  cases r <;> simp [readEvent, Event.besideReads?]

theorem read_of_ne {j : TaskId} (hjk : j ≠ k) {len : Nat} {r : Except Fault Bytes}
    (h : w.read i j len = some (w', r)) : w.Traces k [] w' := by
  obtain ⟨l, l', -, -, rfl⟩ := read_eq_some h
  refine ⟨[⟨w.now, readEvent i j r⟩], rfl, ?_⟩
  cases r <;> simp [readEvent, Event.besideReads?, Journal.findings, hjk]

theorem write {purpose : Purpose} {buf : Bytes} {r : Except Fault Bytes}
    (h : w.write i purpose buf = some (w', r)) : w.Traces k [writeEvent i purpose buf r] w' := by
  obtain ⟨l, l', -, -, rfl⟩ := write_eq_some h
  refine (of_same rfl).trans (enter ?_ _)
  cases r <;> rfl

theorem shut {half : Half} {r : ShutAnswer} (h : w.shut i half = some (w', r)) :
    w.Traces k [.shut i half r] w' := by
  obtain ⟨l, l', -, -, rfl⟩ := shut_eq_some h
  exact (of_same rfl).trans (enter rfl _)

theorem dialled_ok {link : LinkId} (h : w.dialled i = some (w', .ok link)) :
    w.Traces k [.connected i] w' := by
  obtain ⟨now, script, -, rfl⟩ := World.dialled_ok h
  exact (of_same rfl).trans (enter rfl _)

theorem dialled_error {f : Fault} (h : w.dialled i = some (w', .error f)) :
    w.Traces k [.dialFailed f] w' := by
  obtain ⟨now, ⟨f', hf, rfl⟩ | ⟨script, hr, -⟩⟩ := dialled_eq_some h
  · cases hf
    exact (of_same rfl).trans (enter rfl _)
  · cases hr

end Traces

end World

end Redial
