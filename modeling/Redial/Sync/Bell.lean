/-!
# Bells

A bell that is rung for everyone who is listening. Whoever begins to listen remembers how often the
bell has rung so far, so a ring counts as heard from then on, also if the listener does not look at
once.
-/

namespace Redial

/-- A bell. -/
structure Bell where
  /-- How often it has rung. -/
  rings : Nat
  deriving DecidableEq

/-- One who listens to a bell. -/
structure Listener where
  /-- How often the bell had rung before. -/
  before : Nat
  deriving DecidableEq

namespace Bell

/-- A bell that has not rung. -/
def silent : Bell := ⟨0⟩

/-- Rings once more. -/
def ring (b : Bell) : Bell := ⟨b.rings + 1⟩

/-- Begins to listen. -/
def listen (b : Bell) : Listener := ⟨b.rings⟩

end Bell

/-- Whether the bell has rung since the listener began to listen. -/
def Listener.woken (l : Listener) (b : Bell) : Bool := l.before < b.rings

@[simp] theorem Bell.woken_listen (b : Bell) : b.listen.woken b = false := by
  simp [Listener.woken, Bell.listen]

theorem Listener.woken_ring {l : Listener} {b : Bell} (h : l.before ≤ b.rings) :
    l.woken b.ring = true :=
  decide_eq_true (Nat.lt_succ_of_le h)

end Redial
