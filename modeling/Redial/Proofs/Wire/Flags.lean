import Redial.Proofs.Wire.Calls

/-!
# Shut halves and closed connections

A half of a connection is shut when a request for it is granted, and stays so; a connection is
closed by a request that is granted. Nothing else changes these flags. On a connection that is
closed or has its write half shut no write is accepted, and on one that is closed or has its read
half shut no read brings bytes.
-/

namespace Redial

namespace Link

variable {l l' : Link}

/-- Whether a half is shut. -/
def isShut (l : Link) : Half → Bool
  | .read => l.readShut
  | .write => l.writeShut

/-- The flags of a connection are the same. -/
structure SameFlags (l l' : Link) : Prop where
  closed : l'.closed = l.closed
  isShut : ∀ half, l'.isShut half = l.isShut half

namespace SameFlags

theorem of_fields (hc : l'.closed = l.closed) (hr : l'.readShut = l.readShut)
    (hw : l'.writeShut = l.writeShut) : l.SameFlags l' := by
  refine ⟨hc, fun half => ?_⟩
  cases half with
  | read => exact hr
  | write => exact hw

theorem refl (l : Link) : l.SameFlags l := ⟨rfl, fun _ => rfl⟩

theorem read {now : Instant} {opened : List Gate} {len : Nat} {r : Except Fault Bytes}
    (h : l.read now opened len = some (l', r)) : l.SameFlags l' := by
  obtain ⟨reads, rfl⟩ := read_changes h
  exact of_fields rfl rfl rfl

theorem write {opened : List Gate} {buf : Bytes} {r : Except Fault Bytes}
    (h : l.write opened buf = some (l', r)) : l.SameFlags l' := by
  rcases write_changes h with ⟨rfl, -⟩ | ⟨g, -, hl⟩
  · exact refl l'
  · rw [hl]
    exact of_fields rfl rfl rfl

theorem withShuts (l : Link) (answers : List (Gated ShutAnswer)) (half : Half) :
    l.SameFlags (l.withShuts answers half) := by
  cases half <;> exact of_fields rfl rfl rfl

theorem refused {opened : List Gate} {half : Half} {f : Fault}
    (h : l.shut opened half = some (l', some f)) : l.SameFlags l' := by
  obtain ⟨answers, rfl⟩ := shut_changes h
  exact withShuts l answers half

end SameFlags

/-- A request that is granted shuts its half and nothing else. -/
theorem shut_granted {opened : List Gate} {half : Half} (h : l.shut opened half = some (l', none)) :
    l'.closed = l.closed ∧ ∀ half', l'.isShut half' = (l.isShut half' || half' = half) := by
  obtain ⟨answers, rfl⟩ := shut_changes h
  have hsame := SameFlags.withShuts l answers half
  refine ⟨?_, fun half' => ?_⟩
  · rw [← hsame.closed]
    cases half <;> rfl
  · rw [← hsame.isShut]
    cases half <;> cases half' <;> simp [shutHalf, isShut]

theorem isShut_close (l : Link) (half : Half) : l.close.1.isShut half = l.isShut half := by
  unfold close
  split
  · rfl
  · cases half <;> rfl

theorem closed_close (h : l.closed = true) : l.close.1.closed = true := by
  unfold close
  split
  · exact h
  · rfl

/-- No write is accepted on a connection that is closed or has its write half shut. -/
theorem write_of_silent (hs : l.closed = true ∨ l.isShut .write = true) {opened : List Gate}
    {buf : Bytes} {r : Except Fault Bytes} (h : l.write opened buf = some (l', r)) :
    ∃ f, r = .error f := by
  have hfirst : (l.closed || l.writeShut) = true := Bool.or_eq_true_iff.mpr hs
  unfold Link.write at h
  rw [if_pos hfirst] at h
  cases h
  exact ⟨_, rfl⟩

/-- No read brings bytes on a connection that is closed or has its read half shut. -/
theorem read_of_silent (hs : l.closed = true ∨ l.isShut .read = true) {now : Instant}
    {opened : List Gate} {len : Nat} {r : Except Fault Bytes}
    (h : l.read now opened len = some (l', r)) : ∀ bytes, r = .ok bytes → bytes = [] := by
  intro bytes hr
  subst hr
  unfold Link.read at h
  split at h
  · split at h
    · cases h
    · cases h
      rfl
  · rename_i hopen
    have hshut : l.readShut = true := by
      rcases hs with hs | hs
      · exact absurd hs hopen
      · exact hs
    simp only [hshut, if_true] at h
    split at h
    · cases h
      rfl
    · split at h
      · split at h
        · cases h
        · cases h
          rfl
      · cases h
        rfl

end Link

namespace World

variable {w w' : World} {i j : LinkId} {l : Link}

/-- Whether a flag of a connection is set; it is not if there is no such connection. -/
def flag (w : World) (f : Link → Bool) (i : LinkId) : Bool := (w.link? i).any f

/-- Whether a half of a connection is shut. -/
def isShut (w : World) (i : LinkId) (half : Half) : Bool := w.flag (·.isShut half) i

/-- Whether a connection is closed. -/
def isClosed (w : World) (i : LinkId) : Bool := w.flag (·.closed) i

theorem flag_of_link? (h : w.link? i = some l) (f : Link → Bool) : w.flag f i = f l := by
  unfold flag
  rw [h]
  rfl

theorem flag_of_none (h : w.link? i = none) (f : Link → Bool) : w.flag f i = false := by
  unfold flag
  rw [h]
  rfl

theorem flag_setLink (hi : i < w.links.length) (l : Link) (f : Link → Bool) (j : LinkId) :
    (w.setLink i l).flag f j = if j = i then f l else w.flag f j := by
  split
  · rename_i hij
    subst hij
    exact flag_of_link? (link?_setLink_self hi l) f
  · rename_i hij
    unfold flag
    rw [link?_setLink_of_ne (Ne.symm hij)]

/-- The flags of all connections are the same. -/
structure SameFlags (w w' : World) : Prop where
  isShut : ∀ i half, w'.isShut i half = w.isShut i half
  isClosed : ∀ i, w'.isClosed i = w.isClosed i

/-- In between, a half of connection `i` was shut, and no other flag has changed. -/
structure Shuts (i : LinkId) (half : Half) (w w' : World) : Prop where
  isShut : ∀ j half', w'.isShut j half' = (w.isShut j half' || (j = i && half' = half))
  isClosed : ∀ j, w'.isClosed j = w.isClosed j

/-- In between, connection `i` may have been closed, and no other flag has changed. -/
structure Closes (i : LinkId) (w w' : World) : Prop where
  isShut : ∀ j half, w'.isShut j half = w.isShut j half
  kept : ∀ j, w.isClosed j = true → w'.isClosed j = true
  others : ∀ j, j ≠ i → w'.isClosed j = w.isClosed j

/-- In between, no flag was taken back, and no half was shut but those of connection `i`. -/
structure Sets (i : LinkId) (w w' : World) : Prop where
  shut : ∀ j half, w.isShut j half = true → w'.isShut j half = true
  closed : ∀ j, w.isClosed j = true → w'.isClosed j = true
  elsewhere : ∀ j half, j ≠ i → w'.isShut j half = w.isShut j half

theorem Shuts.sets {half : Half} (h : Shuts i half w w') : Sets i w w' := by
  refine ⟨fun j half' hj => ?_, fun j hj => ?_, fun j half' hj => ?_⟩
  · rw [h.isShut, hj, Bool.true_or]
  · rw [h.isClosed, hj]
  · rw [h.isShut]
    simp [hj]

theorem Closes.sets (h : Closes i w w') : Sets j w w' := by
  refine ⟨fun i half hi => ?_, h.kept, fun i half _ => h.isShut i half⟩
  rw [h.isShut, hi]

namespace SameFlags

theorem of_links (h : w'.links = w.links) : w.SameFlags w' := by
  have hlink : ∀ i, w'.link? i = w.link? i := by
    intro i
    unfold link?
    rw [h]
  refine ⟨fun i half => ?_, fun i => ?_⟩
  · unfold World.isShut flag
    rw [hlink]
  · unfold World.isClosed flag
    rw [hlink]

theorem refl (w : World) : w.SameFlags w := of_links rfl

theorem trans {w₁ w₂ w₃ : World} (h : w₁.SameFlags w₂) (h' : w₂.SameFlags w₃) :
    w₁.SameFlags w₃ :=
  ⟨fun i half => (h'.isShut i half).trans (h.isShut i half),
    fun i => (h'.isClosed i).trans (h.isClosed i)⟩

theorem enter (w : World) (e : Event) : w.SameFlags (w.enter e) := of_links rfl

theorem note (h : w.SameFlags w') (n : Notice) : w.SameFlags (w'.note n) := h.trans (enter w' _)

theorem setLink {l' : Link} (h : w.link? i = some l) (hl : l.SameFlags l') :
    w.SameFlags (w.setLink i l') := by
  have hflag : ∀ f : Link → Bool, f l' = f l → ∀ j, (w.setLink i l').flag f j = w.flag f j := by
    intro f hf j
    rw [flag_setLink (lt_of_link?_eq_some h)]
    split
    · rename_i hij
      rw [hij, hf, flag_of_link? h]
    · rfl
  exact ⟨fun j half => hflag _ (hl.isShut half) j, hflag _ hl.closed⟩

theorem read {task : TaskId} {len : Nat} {r : Except Fault Bytes}
    (h : w.read i task len = some (w', r)) : w.SameFlags w' := by
  obtain ⟨l, l', hl, hr, rfl⟩ := read_eq_some h
  exact (setLink hl (.read hr)).trans (.enter _ _)

theorem write {purpose : Purpose} {buf : Bytes} {r : Except Fault Bytes}
    (h : w.write i purpose buf = some (w', r)) : w.SameFlags w' := by
  obtain ⟨l, l', hl, hr, rfl⟩ := write_eq_some h
  exact (setLink hl (.write hr)).trans (.enter _ _)

theorem refused {half : Half} {f : Fault} (h : w.shut i half = some (w', some f)) :
    w.SameFlags w' := by
  obtain ⟨l, l', hl, hr, rfl⟩ := shut_eq_some h
  exact (setLink hl (.refused hr)).trans (.enter _ _)

theorem setDeadline (w : World) (i : LinkId) (deadline : Option Instant) :
    w.SameFlags (w.setDeadline i deadline) := by
  cases hl : w.link? i with
  | none =>
    unfold World.setDeadline
    rw [hl]
    exact .refl w
  | some l =>
    have hset : w.SameFlags (w.setLink i { l with deadline := deadline }) :=
      setLink hl (.of_fields rfl rfl rfl)
    rw [setDeadline_of_link? hl]
    exact hset.trans (.enter _ _)

theorem feed (w : World) (i : LinkId) (more : LinkScript) : w.SameFlags (w.feed i more) := by
  unfold World.feed
  split
  · exact .refl w
  · rename_i l hl
    exact setLink hl (.of_fields rfl rfl rfl)

/-- No flag of a connection that has just been made is set. -/
theorem dialled {r : Except Fault LinkId} (h : w.dialled i = some (w', r))
    (hi : w.link? i = none) : w.SameFlags w' := by
  obtain ⟨now, ⟨f, -, rfl⟩ | ⟨script, -, rfl⟩⟩ := dialled_eq_some h
  · exact of_links rfl
  · by_cases hlt : i < w.links.length
    · have hflag : ∀ f : Link → Bool, f (.ofScript script) = false → ∀ j,
          (World.setLink { w with now := now } i (.ofScript script)).flag f j = w.flag f j := by
        intro f hf j
        rw [flag_setLink (w := { w with now := now }) hlt]
        split
        · rename_i hij
          rw [hij, hf, flag_of_none hi]
        · rfl
      exact ⟨fun j half => hflag _ (by cases half <;> rfl) j, hflag _ rfl⟩
    · exact of_links (List.set_eq_of_length_le (Nat.le_of_not_lt hlt))

theorem sets (h : w.SameFlags w') (i : LinkId) : Sets i w w' := by
  refine ⟨fun j half hj => ?_, fun j hj => ?_, fun j half _ => h.isShut j half⟩
  · rw [h.isShut, hj]
  · rw [h.isClosed, hj]

end SameFlags

theorem shuts_of_granted {half : Half} (h : w.shut i half = some (w', none)) :
    Shuts i half w w' := by
  obtain ⟨l, l', hl, hr, rfl⟩ := shut_eq_some h
  obtain ⟨hclosed, hshut⟩ := Link.shut_granted hr
  have hlt := lt_of_link?_eq_some hl
  refine ⟨fun j half' => ?_, fun j => ?_⟩
  · show (w.setLink i l').flag _ j = _
    rw [flag_setLink hlt]
    split
    · rename_i hij
      rw [hij, hshut]
      unfold World.isShut
      rw [flag_of_link? hl]
      simp
    · rename_i hij
      simp [hij, World.isShut]
  · show (w.setLink i l').flag _ j = _
    rw [flag_setLink hlt]
    split
    · rename_i hij
      rw [hij, hclosed]
      exact (flag_of_link? hl _).symm
    · rfl

theorem write_of_silent (hs : w.isShut i .write = true ∨ w.isClosed i = true) {purpose : Purpose}
    {buf : Bytes} {r : Except Fault Bytes} (h : w.write i purpose buf = some (w', r)) :
    ∃ f, r = .error f := by
  obtain ⟨l, l', hl, hr, -⟩ := write_eq_some h
  unfold World.isShut World.isClosed at hs
  rw [flag_of_link? hl, flag_of_link? hl] at hs
  exact Link.write_of_silent hs.symm hr

theorem read_of_silent (hs : w.isShut i .read = true ∨ w.isClosed i = true) {task : TaskId}
    {len : Nat} {r : Except Fault Bytes} (h : w.read i task len = some (w', r)) :
    ∀ bytes, r = .ok bytes → bytes = [] := by
  obtain ⟨l, l', hl, hr, -⟩ := read_eq_some h
  unfold World.isShut World.isClosed at hs
  rw [flag_of_link? hl, flag_of_link? hl] at hs
  exact Link.read_of_silent hs.symm hr

end World

end Redial
