import Redial.Time.Duration

/-!
# Instants

A reading of a clock that never runs backwards, in nanoseconds from its start, up to the last
reading that the clock can show.
-/

namespace Redial

/-- The last reading of the clock in nanoseconds. -/
def Instant.lastNanos : Nat := (UInt64.size / 2 - 1) * 1000000000 + 999999999

/-- A reading of the clock. -/
structure Instant where
  /-- Nanoseconds since the clock started. -/
  nanos : Nat
  /-- It is at most the last reading. -/
  nanos_le : nanos ≤ Instant.lastNanos
  deriving DecidableEq

namespace Instant

/-- The reading `n` nanoseconds after the start, or the last one if `n` passes it. -/
def ofNanos (n : Nat) : Instant := ⟨min n lastNanos, Nat.min_le_right n lastNanos⟩

/-- The clock after `n` more nanoseconds; it stops at its last reading. -/
def advance (t : Instant) (n : Nat) : Instant := ofNanos (t.nanos + n)

/-- The instant `d` after `t`, if the clock can show it. -/
def add? (t : Instant) (d : Duration) : Option Instant :=
  if h : t.nanos + d.nanos ≤ lastNanos then some ⟨t.nanos + d.nanos, h⟩ else none

/-- The span from `earlier` to `later`; it is zero if the readings are the other way round. -/
def since (later earlier : Instant) : Duration := Duration.ofNanos (later.nanos - earlier.nanos)

/-- Whether the clock, showing `now`, has reached `t`. -/
def reached (t now : Instant) : Bool := t.nanos ≤ now.nanos

@[simp] theorem nanos_ofNanos (n : Nat) : (ofNanos n).nanos = min n lastNanos := rfl

theorem add?_eq_some_iff {t u : Instant} {d : Duration} :
    t.add? d = some u ↔ u.nanos = t.nanos + d.nanos := by
  unfold add?
  split
  · rename_i h
    constructor
    · rintro ⟨⟩
      rfl
    · intro hu
      cases u
      simp_all
  · rename_i h
    constructor
    · intro hu
      cases hu
    · intro hu
      exact absurd u.nanos_le (by omega)

theorem add?_eq_none_iff {t : Instant} {d : Duration} :
    t.add? d = none ↔ lastNanos < t.nanos + d.nanos := by
  unfold add?
  rw [dite_eq_right_iff]
  simp

end Instant

end Redial
