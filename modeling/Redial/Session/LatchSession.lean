import Redial.Sync.Latch
import Redial.Task.Machine

/-!
# Sessions with a latch

A latch that is set, looked at and waited for, step by step, with a report after each step.
-/

namespace Redial.LatchSession

/-- A machine whose tasks wait for a latch. -/
abbrev LatchMachine := Machine (Latch Unit) Waiter Unit

/-- Waiting for a latch. A waiter that is dropped holds nothing; each takes at most one step to fall
asleep and two to be released. -/
def waiting : Behaviour (Latch Unit) Waiter Unit where
  step _ latch waiter :=
    (waiter.step latch).map fun
      | .waiting w => (latch, .goesOn w)
      | .released => (latch, .done ())
  drop _ latch := latch
  effort _ waiters := 4 * waiters.length + 1

/-- A step of a session. -/
inductive Action where
  /-- Sets the latch. -/
  | close
  /-- Looks whether the latch is set. -/
  | isClosed
  /-- Starts a task that waits for the latch. -/
  | wait
  /-- Drops a task. -/
  | cancel (task : TaskId)
  deriving DecidableEq

/-- What is reported after a step. -/
structure Entry where
  /-- The answer of the step, if it has one. -/
  result : Option Bool
  /-- The tasks that were released during the step, in order. -/
  released : List TaskId
  /-- The unfinished tasks. -/
  pending : List TaskId
  /-- Whether the latch is set. -/
  closed : Bool
  deriving DecidableEq

/-- The answer of a step: a closing step answers whether it was the one that set the latch. -/
def answer (m : LatchMachine) : Action → Option Bool
  | .close => some !m.env.isSet
  | .isClosed => some m.env.isSet
  | .wait => none
  | .cancel _ => none

/-- What a step does by itself; `index` is its number. -/
def act (m : LatchMachine) (index : Nat) : Action → LatchMachine
  | .close => { m with env := m.env.set () }
  | .isClosed => m
  | .wait => m.spawn index .arriving
  | .cancel task => m.cancel waiting task

/-- The machine after a step and after the tasks have run. -/
def next (m : LatchMachine) (index : Nat) (action : Action) : LatchMachine :=
  (act m index action).settle waiting

/-- The report of a step that led from `before` to `after`. -/
def entry (before after : LatchMachine) (action : Action) : Entry where
  result := answer before action
  released := (after.finishedAfter before.finished.length).map (·.1)
  pending := after.pending
  closed := after.env.isSet

/-- The reports of the steps from number `index` on. -/
def runFrom (m : LatchMachine) (index : Nat) : List Action → List Entry
  | [] => []
  | action :: actions =>
    let after := next m index action
    entry m after action :: runFrom after (index + 1) actions

/-- The reports of a session with a fresh latch. -/
def run (actions : List Action) : List Entry := runFrom (.idle .unset) 0 actions

end Redial.LatchSession
