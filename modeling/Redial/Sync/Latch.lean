import Redial.Sync.Bell

/-!
# Latches

A cell that is set at most once, and that can be waited for. The first value stays; setting a latch
that is set changes nothing. A waiter listens to the latch's bell before it looks whether the latch
is set, so it cannot miss the ring that comes with the value.
-/

namespace Redial

/-- A cell that is set at most once. -/
structure Latch (α : Type) where
  /-- The value, once it is set. -/
  value : Option α
  /-- The bell that rings when it is set. -/
  bell : Bell
  deriving DecidableEq

/-- One who waits for a latch. -/
inductive Waiter where
  /-- About to listen and to look. -/
  | arriving
  /-- Found the latch unset and waits for the bell. -/
  | asleep (listener : Listener)
  deriving DecidableEq

namespace Latch

variable {α : Type}

/-- A latch that is not set. -/
def unset : Latch α := ⟨none, .silent⟩

/-- Whether the latch is set. -/
def isSet (l : Latch α) : Bool := l.value.isSome

/-- Sets the latch and wakes all who wait, unless it is set. -/
def set (l : Latch α) (a : α) : Latch α :=
  match l.value with
  | some _ => l
  | none => ⟨some a, l.bell.ring⟩

@[simp] theorem isSet_set (l : Latch α) (a : α) : (l.set a).isSet = true := by
  unfold set isSet
  split
  · rename_i h
    simp [h]
  · rfl

theorem value_set_of_isSet {l : Latch α} (h : l.isSet = true) (a : α) : l.set a = l := by
  unfold isSet at h
  unfold set
  split
  · rfl
  · rename_i hv
    simp [hv] at h

end Latch

namespace Waiter

variable {α : Type}

/-- What one step of waiting comes to. -/
inductive Next where
  /-- Go on waiting. -/
  | waiting (w : Waiter)
  /-- The latch is set. -/
  | released
  deriving DecidableEq

/-- One step of waiting, or nothing to do until the bell rings. -/
def step (l : Latch α) : Waiter → Option Next
  | arriving => some (if l.isSet then .released else .waiting (.asleep l.bell.listen))
  | asleep listener => if listener.woken l.bell then some (.waiting .arriving) else none

end Waiter

end Redial
