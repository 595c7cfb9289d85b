/-!
# Ranges of offsets

The offsets from `lo` to `hi`, both included. A range is never empty and its offsets have at most 64
bits.
-/

namespace Redial

/-- A range of offsets with both ends. -/
structure OffsetRange where
  /-- The first offset. -/
  lo : Nat
  /-- The last offset. -/
  hi : Nat
  /-- There is at least one offset. -/
  lo_le_hi : lo ≤ hi
  /-- Offsets have at most 64 bits. -/
  hi_lt : hi < UInt64.size
  deriving DecidableEq

namespace OffsetRange

/-- The range between two ends, if it has an offset. -/
def between? (lo hi : UInt64) : Option OffsetRange :=
  if h : lo.toNat ≤ hi.toNat then some ⟨lo.toNat, hi.toNat, h, hi.toNat_lt_size⟩ else none

theorem between?_eq_some_iff {lo hi : UInt64} {r : OffsetRange} :
    between? lo hi = some r ↔ lo.toNat = r.lo ∧ hi.toNat = r.hi := by
  obtain ⟨first, last, hle, hlt⟩ := r
  unfold between?
  rw [Option.dite_none_right_eq_some]
  constructor
  · rintro ⟨_, h⟩
    cases h
    exact ⟨rfl, rfl⟩
  · rintro ⟨rfl, rfl⟩
    exact ⟨hle, rfl⟩

theorem between?_eq_none_iff {lo hi : UInt64} : between? lo hi = none ↔ hi < lo := by
  unfold between?
  rw [dite_eq_right_iff, UInt64.lt_iff_toNat_lt]
  simp

/-- There is a range between the ends of a range, the range itself. -/
theorem between?_ends (r : OffsetRange) : between? (.ofNat r.lo) (.ofNat r.hi) = some r := by
  have hlo : r.lo < UInt64.size := Nat.lt_of_le_of_lt r.lo_le_hi r.hi_lt
  exact between?_eq_some_iff.mpr
    ⟨UInt64.toNat_ofNat_of_lt' hlo, UInt64.toNat_ofNat_of_lt' r.hi_lt⟩

/-- The range that is used unless a configuration says otherwise. -/
def default : OffsetRange := ⟨32, 64, by decide, by decide⟩

instance : Membership Nat OffsetRange := ⟨fun r n => r.lo ≤ n ∧ n ≤ r.hi⟩

theorem mem_iff {r : OffsetRange} {n : Nat} : n ∈ r ↔ r.lo ≤ n ∧ n ≤ r.hi := Iff.rfl

instance (n : Nat) (r : OffsetRange) : Decidable (n ∈ r) :=
  inferInstanceAs (Decidable (r.lo ≤ n ∧ n ≤ r.hi))

/-- How many offsets the range has. -/
def size (r : OffsetRange) : Nat := r.hi - r.lo + 1

/-- The text of a range. -/
def text (r : OffsetRange) : String := toString r.lo ++ "..=" ++ toString r.hi

end OffsetRange

end Redial
