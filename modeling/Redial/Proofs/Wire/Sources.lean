import Redial.Wire.Source

/-!
# What sources yield

A source yields the bytes before its first end (`Source.content`), piece by piece and with faults
between them; behind that end there may be more (`Source.beyond`). A read takes the next bytes from
the front of the content, or a fault, or the end (`Source.pulls_of_pull`).
-/

namespace Redial

namespace Source

/-- The bytes of the items before the first empty piece. -/
def contentOf : List (Gated Arrival) → Bytes
  | [] => []
  | ⟨_, .fault _⟩ :: rest => contentOf rest
  | ⟨_, .data []⟩ :: _ => []
  | ⟨_, .data (b :: bs)⟩ :: rest => b :: bs ++ contentOf rest

/-- The items behind the first empty piece. -/
def behindEnd : List (Gated Arrival) → List (Gated Arrival)
  | [] => []
  | ⟨_, .data []⟩ :: rest => rest
  | _ :: rest => behindEnd rest

/-- The bytes that a source yields before its first end. -/
def content (s : Source) : Bytes := contentOf s.items

/-- What is left of a source once it has been read up to its first end. -/
def beyond (s : Source) : Source := ⟨behindEnd s.items⟩

/-- The faults that a source has in store. -/
def faults (s : Source) : List Fault :=
  s.items.filterMap fun g => match g.item with
    | .fault f => some f
    | .data _ => none

variable {g : Option Gate} {f : Fault} {bytes : Bytes} {rest : List (Gated Arrival)}

theorem content_fault : content ⟨⟨g, .fault f⟩ :: rest⟩ = content ⟨rest⟩ := rfl

theorem content_data (hne : bytes ≠ []) :
    content ⟨⟨g, .data bytes⟩ :: rest⟩ = bytes ++ content ⟨rest⟩ := by
  obtain ⟨b, bs, rfl⟩ := List.exists_cons_of_ne_nil hne
  rfl

theorem beyond_fault : beyond ⟨⟨g, .fault f⟩ :: rest⟩ = beyond ⟨rest⟩ := rfl

theorem beyond_data (hne : bytes ≠ []) :
    beyond ⟨⟨g, .data bytes⟩ :: rest⟩ = beyond ⟨rest⟩ := by
  obtain ⟨b, bs, rfl⟩ := List.exists_cons_of_ne_nil hne
  rfl

theorem faults_fault : faults ⟨⟨g, .fault f⟩ :: rest⟩ = f :: faults ⟨rest⟩ := rfl

theorem faults_data : faults ⟨⟨g, .data bytes⟩ :: rest⟩ = faults ⟨rest⟩ := rfl

/-- What a read of at most `len` bytes leaves of a source, and what it comes to. -/
inductive Pulls (len : Nat) (s : Source) : Source → Except Fault Bytes → Prop where
  /-- The source is at its end. -/
  | atEnd {s'} (hcontent : s.content = []) (hleft : s' = s.beyond) : Pulls len s s' (.ok [])
  /-- The next bytes are taken. -/
  | takes {s' piece} (hpiece : piece ≠ []) (hlen : piece.length ≤ len)
      (hcontent : s.content = piece ++ s'.content) (hbeyond : s'.beyond = s.beyond)
      (hfaults : s'.faults ⊆ s.faults) : Pulls len s s' (.ok piece)
  /-- A fault is taken. -/
  | fails {s' f} (hf : f ∈ s.faults) (hcontent : s'.content = s.content)
      (hbeyond : s'.beyond = s.beyond) (hfaults : s'.faults ⊆ s.faults) :
      Pulls len s s' (.error f)

/-- A read of a piece that is not empty takes its front, and leaves the rest in its place. -/
theorem pulls_data {s' : Source} {len : Nat} (hlen : 0 < len) (hne : bytes ≠ [])
    (hs : s' = if bytes.drop len = [] then ⟨rest⟩ else ⟨⟨g, .data (bytes.drop len)⟩ :: rest⟩) :
    Pulls len ⟨⟨g, .data bytes⟩ :: rest⟩ s' (.ok (bytes.take len)) := by
  have hpos : 0 < bytes.length := List.length_pos_iff.mpr hne
  have hpiece : bytes.take len ≠ [] := by
    apply List.ne_nil_of_length_pos
    rw [List.length_take]
    omega
  have htake : (bytes.take len).length ≤ len := by
    rw [List.length_take]
    omega
  by_cases hdrop : bytes.drop len = []
  · rw [if_pos hdrop] at hs
    subst hs
    have hall : bytes.take len = bytes := by
      have happ := List.take_append_drop len bytes
      rw [hdrop, List.append_nil] at happ
      exact happ
    refine .takes hpiece htake ?_ ?_ ?_
    · rw [content_data hne, hall]
    · rw [beyond_data hne]
    · rw [faults_data]
      exact List.Subset.refl _
  · rw [if_neg hdrop] at hs
    subst hs
    refine .takes hpiece htake ?_ ?_ ?_
    · rw [content_data hne, content_data hdrop, ← List.append_assoc, List.take_append_drop]
    · rw [beyond_data hne, beyond_data hdrop]
    · rw [faults_data, faults_data]
      exact List.Subset.refl _

/-- A read takes what comes next in a source. -/
theorem pulls_of_pull {s s' : Source} {opened : List Gate} {len : Nat} {r : Except Fault Bytes}
    (h : s.pull opened len = some (s', r)) (hlen : 0 < len) : s.Pulls len s' r := by
  obtain ⟨items⟩ := s
  cases items with
  | nil =>
    cases h
    exact .atEnd rfl rfl
  | cons head rest =>
    obtain ⟨gate, item⟩ := head
    unfold pull at h
    dsimp only at h
    split at h
    · cases item with
      | fault f =>
        cases h
        refine .fails ?_ content_fault.symm beyond_fault.symm ?_
        · rw [faults_fault]
          exact List.mem_cons_self
        · rw [faults_fault]
          exact List.subset_cons_self _ _
      | data bytes =>
        dsimp only at h
        by_cases hne : bytes = []
        · subst hne
          rw [List.drop_nil, List.take_nil] at h
          cases h
          exact .atEnd rfl rfl
        · split at h
          · rename_i hdrop
            cases h
            exact pulls_data hlen hne (if_pos hdrop).symm
          · rename_i hdrop
            cases h
            exact pulls_data hlen hne (if_neg hdrop).symm
    · cases h

/-- A source is at its end: it has nothing left, or the piece that is ready is empty. -/
def AtEnd (opened : List Gate) (s : Source) : Prop :=
  s.items = [] ∨ ∃ g rest, s.items = ⟨g, .data []⟩ :: rest ∧
    (⟨g, .data []⟩ : Gated Arrival).ready opened = true

/-- A read that has room for a byte comes back with none only at the end. -/
theorem pull_eq_end_iff {s : Source} {opened : List Gate} {len : Nat} (hlen : 0 < len) :
    (∃ left, s.pull opened len = some (left, .ok [])) ↔ s.AtEnd opened := by
  obtain ⟨items⟩ := s
  cases items with
  | nil => exact iff_of_true ⟨_, rfl⟩ (Or.inl rfl)
  | cons head rest =>
    obtain ⟨gate, item⟩ := head
    constructor
    · rintro ⟨left, h⟩
      unfold pull at h
      dsimp only at h
      split at h
      · rename_i hready
        cases item with
        | fault f => cases h
        | data bytes =>
          have htake : bytes.take len = [] := by
            dsimp only at h
            split at h <;> exact Except.ok.inj (Prod.mk.inj (Option.some.inj h)).2
          have hnil : bytes = [] :=
            (List.take_eq_nil_iff.mp htake).resolve_left (Nat.ne_of_gt hlen)
          exact Or.inr ⟨gate, rest, hnil ▸ rfl, hnil ▸ hready⟩
      · cases h
    · rintro (hnil | ⟨g, after, hitems, hready⟩)
      · cases hnil
      · cases hitems
        refine ⟨⟨rest⟩, ?_⟩
        unfold pull
        dsimp only
        rw [if_pos hready, List.drop_nil, List.take_nil]

/-- A read without room takes a source that has bytes for one at its end. -/
example : pull ⟨[⟨none, .data [1]⟩]⟩ [] 0 = some (⟨[⟨none, .data [1]⟩]⟩, .ok []) := rfl

/-- Only a fault that is met leaves the faults of a source. -/
theorem faults_of_pull {s s' : Source} {opened : List Gate} {len : Nat} {r : Except Fault Bytes}
    (h : s.pull opened len = some (s', r)) :
    s.faults = (match r with
      | .ok _ => []
      | .error f => [f]) ++ s'.faults := by
  obtain ⟨items⟩ := s
  cases items with
  | nil =>
    cases h
    rfl
  | cons head rest =>
    obtain ⟨gate, item⟩ := head
    unfold pull at h
    dsimp only at h
    split at h
    · cases item with
      | fault f =>
        cases h
        rfl
      | data bytes =>
        dsimp only at h
        split at h <;> cases h <;> rfl
    · cases h

end Source

end Redial
