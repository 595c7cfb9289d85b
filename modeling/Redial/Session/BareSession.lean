import Redial.Session.Action

/-!
# Sessions on a bare connection

Calls on one connection without a stream, step by step, with a report after each step.
-/

namespace Redial.BareSession

open Session

/-- A machine whose tasks are calls on one connection. -/
abbrev BareMachine := Machine World BareCall Outcome

/-- The number of the connection. -/
def theLink : LinkId := 0

/-- Calls on the connection. -/
def calls : Behaviour World BareCall Outcome := BareCall.behaviour theLink

/-- What is reported after a step. -/
structure Entry where
  /-- The calls that ended during the step, in order. -/
  done : List (TaskId × Outcome)
  /-- The unfinished calls. -/
  pending : List TaskId
  /-- The connection. -/
  links : List LinkReport

/-- The machine before the first step. -/
def start (script : LinkScript) : BareMachine :=
  .idle { World.fresh (.ofNanos 0) [] with links := [some (.ofScript script)] }

/-- What a step does by itself; `index` is its number. -/
def act (m : BareMachine) (index : Nat) : Action → BareMachine
  | .call request => m.spawn index request.bare
  | .cancel task => m.cancel calls task
  | action => { m with env := action.change m.env }

/-- The machine after a step and after the calls have run. -/
def next (m : BareMachine) (index : Nat) (action : Action) : BareMachine :=
  (act m index action).settle calls

/-- The report of a step that led from `before` to `after`. -/
def entry (before after : BareMachine) : Entry where
  done := after.finishedAfter before.finished.length
  pending := after.pending
  links := linkReports after.env before.env.journal.length

/-- The reports of the steps from number `index` on. -/
def runFrom (m : BareMachine) (index : Nat) : List Action → List Entry
  | [] => []
  | action :: actions =>
    let after := next m index action
    entry m after :: runFrom after (index + 1) actions

/-- The reports of a session on a connection. -/
def run (script : LinkScript) (actions : List Action) : List Entry :=
  runFrom (start script) 0 actions

end Redial.BareSession
