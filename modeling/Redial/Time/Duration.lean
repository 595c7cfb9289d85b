import Redial.Text.Decimal

/-!
# Durations

A span of time in whole nanoseconds, bounded by `Duration.maxNanos`. Sums and multiples that would
pass the bound stop at it, so arithmetic on durations is exact below the bound and never wraps.
-/

namespace Redial

/-- The longest span in nanoseconds: the largest 64-bit count of seconds, and all but one
nanosecond of another. -/
def Duration.maxNanos : Nat := (UInt64.size - 1) * 1000000000 + 999999999

/-- A span of time. -/
structure Duration where
  /-- Its length in nanoseconds. -/
  nanos : Nat
  /-- It is at most the longest span. -/
  nanos_le : nanos ≤ Duration.maxNanos
  deriving DecidableEq

namespace Duration

/-- The span of `n` nanoseconds, or the longest one if `n` passes it. -/
def ofNanos (n : Nat) : Duration := ⟨min n maxNanos, Nat.min_le_right n maxNanos⟩

/-- The span of `n` milliseconds. -/
def ofMillis (n : Nat) : Duration := ofNanos (n * 1000000)

/-- Two spans one after the other. -/
def add (a b : Duration) : Duration := ofNanos (a.nanos + b.nanos)

/-- A span repeated `factor` times. -/
def scale (factor : Nat) (a : Duration) : Duration := ofNanos (factor * a.nanos)

@[simp] theorem nanos_ofNanos (n : Nat) : (ofNanos n).nanos = min n maxNanos := rfl

@[simp] theorem nanos_add (a b : Duration) :
    (a.add b).nanos = min (a.nanos + b.nanos) maxNanos := rfl

@[simp] theorem nanos_scale (k : Nat) (a : Duration) :
    (a.scale k).nanos = min (k * a.nanos) maxNanos := rfl

/-- The text of a span, in the largest of the units `s`, `ms`, `µs` and `ns` that fits into it, with
as many places as are needed. -/
def text (d : Duration) : String :=
  if 1000000000 ≤ d.nanos then Decimal.scaled 9 d.nanos ++ "s"
  else if 1000000 ≤ d.nanos then Decimal.scaled 6 d.nanos ++ "ms"
  else if 1000 ≤ d.nanos then Decimal.scaled 3 d.nanos ++ "µs"
  else toString d.nanos ++ "ns"

end Duration

end Redial
