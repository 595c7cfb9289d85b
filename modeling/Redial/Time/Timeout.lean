import Redial.Time.Instant

/-!
# Reply timeouts

How long to wait for a first reply: a base, and a multiple of the round trip that was measured
while dialling.
-/

namespace Redial

/-- The time allowed for a reply after a dial that was begun at `before` and was done at `after`:
`base` and `factor` round trips. A clock that seems to have run backwards counts as no round trip,
and the result stops at the longest duration. -/
def replyTimeout (base : Duration) (factor : UInt32) (before after : Instant) : Duration :=
  base.add ((after.since before).scale factor.toNat)

/-- The sum stops at the longest duration once, although it is the round trip that is multiplied
first: a multiple of it that stops there makes the sum stop there too. -/
theorem nanos_replyTimeout (base : Duration) (factor : UInt32) (before after : Instant) :
    (replyTimeout base factor before after).nanos =
      min (base.nanos + factor.toNat * (after.nanos - before.nanos)) Duration.maxNanos := by
  have hlast : Instant.lastNanos ≤ Duration.maxNanos := by decide
  have hrtt : after.nanos - before.nanos ≤ Duration.maxNanos := by
    have := after.nanos_le
    omega
  unfold replyTimeout Instant.since
  rw [Duration.nanos_add, Duration.nanos_scale, Duration.nanos_ofNanos, Nat.min_eq_left hrtt]
  omega

theorem le_replyTimeout (base : Duration) (factor : UInt32) (before after : Instant) :
    base.nanos ≤ (replyTimeout base factor before after).nanos := by
  rw [nanos_replyTimeout]
  exact Nat.le_min.mpr ⟨Nat.le_add_right _ _, base.nanos_le⟩

theorem replyTimeout_mono {base base' : Duration} {factor factor' : UInt32}
    {before after before' after' : Instant} (hbase : base.nanos ≤ base'.nanos)
    (hfactor : factor.toNat ≤ factor'.toNat)
    (hrtt : after.nanos - before.nanos ≤ after'.nanos - before'.nanos) :
    (replyTimeout base factor before after).nanos ≤
      (replyTimeout base' factor' before' after').nanos := by
  have htrips := Nat.mul_le_mul hfactor hrtt
  rw [nanos_replyTimeout, nanos_replyTimeout]
  omega

/-- The base that is used unless a configuration says otherwise. -/
def defaultBaseTimeout : Duration := Duration.ofMillis 1200

/-- The number of round trips that is used unless a configuration says otherwise. -/
def defaultRttFactor : UInt32 := 2

/-- The reply timeout with the default base and factor. -/
def defaultReplyTimeout (before after : Instant) : Duration :=
  replyTimeout defaultBaseTimeout defaultRttFactor before after

end Redial
