import Redial.Proofs.Wire.Calls

/-!
# Read deadlines

The deadline of a connection is set and cleared by `World.setDeadline` only. Every other call leaves
the deadlines of all connections as they are, and a connection that has just been made has none.
-/

namespace Redial

namespace Link

variable {l l' : Link}

theorem deadline_read {now : Instant} {opened : List Gate} {len : Nat} {r : Except Fault Bytes}
    (h : l.read now opened len = some (l', r)) : l'.deadline = l.deadline := by
  obtain ⟨reads, rfl⟩ := read_changes h
  rfl

theorem deadline_write {opened : List Gate} {buf : Bytes} {r : Except Fault Bytes}
    (h : l.write opened buf = some (l', r)) : l'.deadline = l.deadline := by
  rcases write_changes h with ⟨rfl, -⟩ | ⟨g, -, hl⟩
  · rfl
  · rw [hl]

theorem deadline_shut {opened : List Gate} {half : Half} {r : ShutAnswer}
    (h : l.shut opened half = some (l', r)) : l'.deadline = l.deadline := by
  obtain ⟨answers, rfl⟩ := shut_changes h
  cases r <;> cases half <;> rfl

theorem deadline_close (l : Link) : l.close.1.deadline = l.deadline := by
  unfold close
  split <;> rfl

end Link

namespace World

variable {w w' : World} {i j : LinkId} {l : Link}

/-- The deadline of the reads of a connection; there is none if there is no such connection. -/
def deadline? (w : World) (i : LinkId) : Option Instant := (w.link? i).bind (·.deadline)

theorem deadline?_of_link? (h : w.link? i = some l) : w.deadline? i = l.deadline := by
  unfold deadline?
  rw [h]
  rfl

theorem deadline?_of_none (h : w.link? i = none) : w.deadline? i = none := by
  unfold deadline?
  rw [h]
  rfl

theorem deadline?_setLink (hi : i < w.links.length) (l : Link) (j : LinkId) :
    (w.setLink i l).deadline? j = if j = i then l.deadline else w.deadline? j := by
  split
  · rename_i hij
    subst hij
    exact deadline?_of_link? (link?_setLink_self hi l)
  · rename_i hij
    unfold deadline?
    rw [link?_setLink_of_ne (Ne.symm hij)]

theorem deadline?_setDeadline (h : w.link? i = some l) (deadline : Option Instant) (j : LinkId) :
    (w.setDeadline i deadline).deadline? j = if j = i then deadline else w.deadline? j := by
  rw [setDeadline_of_link? h]
  exact deadline?_setLink (lt_of_link?_eq_some h) _ j

/-- All connections have the same deadlines. -/
def SameDeadlines (w w' : World) : Prop := ∀ i, w'.deadline? i = w.deadline? i

namespace SameDeadlines

theorem of_links (h : w'.links = w.links) : w.SameDeadlines w' := by
  intro i
  unfold deadline? link?
  rw [h]

theorem refl (w : World) : w.SameDeadlines w := fun _ => rfl

theorem trans {w₁ w₂ w₃ : World} (h : w₁.SameDeadlines w₂) (h' : w₂.SameDeadlines w₃) :
    w₁.SameDeadlines w₃ := fun i => (h' i).trans (h i)

theorem enter (w : World) (e : Event) : w.SameDeadlines (w.enter e) := of_links rfl

theorem note (h : w.SameDeadlines w') (n : Notice) : w.SameDeadlines (w'.note n) :=
  h.trans (enter w' _)

theorem setLink {l' : Link} (h : w.link? i = some l) (hl : l'.deadline = l.deadline) :
    w.SameDeadlines (w.setLink i l') := by
  intro j
  rw [deadline?_setLink (lt_of_link?_eq_some h)]
  split
  · rename_i hij
    rw [hij, hl, deadline?_of_link? h]
  · rfl

theorem read {task : TaskId} {len : Nat} {r : Except Fault Bytes}
    (h : w.read i task len = some (w', r)) : w.SameDeadlines w' := by
  obtain ⟨l, l', hl, hr, rfl⟩ := read_eq_some h
  exact (setLink hl (Link.deadline_read hr)).trans (.enter _ _)

theorem write {purpose : Purpose} {buf : Bytes} {r : Except Fault Bytes}
    (h : w.write i purpose buf = some (w', r)) : w.SameDeadlines w' := by
  obtain ⟨l, l', hl, hr, rfl⟩ := write_eq_some h
  exact (setLink hl (Link.deadline_write hr)).trans (.enter _ _)

theorem shut {half : Half} {r : ShutAnswer} (h : w.shut i half = some (w', r)) :
    w.SameDeadlines w' := by
  obtain ⟨l, l', hl, hr, rfl⟩ := shut_eq_some h
  exact (setLink hl (Link.deadline_shut hr)).trans (.enter _ _)

theorem feed (w : World) (i : LinkId) (more : LinkScript) : w.SameDeadlines (w.feed i more) := by
  unfold World.feed
  split
  · exact .refl w
  · rename_i l hl
    exact setLink hl rfl

/-- A connection that has just been made has no deadline. -/
theorem dialled {r : Except Fault LinkId} (h : w.dialled i = some (w', r))
    (hi : w.link? i = none) : w.SameDeadlines w' := by
  obtain ⟨now, ⟨f, -, rfl⟩ | ⟨script, -, rfl⟩⟩ := dialled_eq_some h
  · exact of_links rfl
  · by_cases hlt : i < w.links.length
    · intro j
      show (World.setLink { w with now := now } i (.ofScript script)).deadline? j = _
      rw [deadline?_setLink (w := { w with now := now }) hlt]
      split
      · rename_i hij
        rw [hij, deadline?_of_none hi]
        rfl
      · rfl
    · exact of_links (List.set_eq_of_length_le (Nat.le_of_not_lt hlt))

end SameDeadlines

end World

theorem BareCall.Effect.sameDeadlines {task : TaskId} {i : LinkId} {w w' : World}
    {call : BareCall} {p : Progress BareCall Outcome} (h : BareCall.Effect task i w call w' p) :
    w.SameDeadlines w' := by
  cases h with
  | reads h => exact .read h
  | writes h | writesAll _ h | copies _ h => exact .write h
  | shuts h => exact .shut h
  | _ => exact .refl w

end Redial
