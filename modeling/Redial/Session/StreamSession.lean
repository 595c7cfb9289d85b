import Redial.Config.Setting
import Redial.Session.Action
import Redial.Stream.Step

/-!
# Sessions on a stream

A stream is opened by dialling its destination. If that succeeds, calls are made on it step by step,
with a report after each step.
-/

namespace Redial.StreamSession

open Session

/-- A machine whose tasks are calls on a stream. -/
abbrev StreamMachine := Machine Stream.State Stream.Call Outcome

/-- What a session begins with. -/
structure Setup where
  /-- Where the stream is connected to. -/
  destination : Address
  /-- Its configuration. -/
  config : Config
  /-- How the hello is cut. -/
  strategy : SplitStrategy
  /-- The clock before the dial. -/
  clock : Instant
  /-- The scripts of the dials. -/
  dials : List (Gated DialScript)

/-- How the opening of a stream ended. -/
inductive Opening where
  /-- The dial failed. -/
  | failed (fault : Fault) (world : World)
  /-- The stream is open. -/
  | opened (state : Stream.State)

/-- Opens a stream. The first dial has no gate. -/
def Setup.opening (s : Setup) : Opening :=
  let w := World.fresh s.clock s.dials
  let before := w.now
  let (w, dial) := w.dial s.destination
  match w.dialledAtOnce dial with
  | (w, .error f) => .failed f w
  | (w, .ok link) =>
    let terms : Stream.Terms := ⟨s.destination, s.config.timeoutFor before w.now, s.config.chunkLen⟩
    let state : Stream.State := ⟨terms, .start link s.strategy, w⟩
    .opened (state.note (.connected s.destination terms.timeout))

/-- The text of a stream. -/
def streamText (s : Stream.State) : String :=
  "SplitRetryStream \x7b destination: " ++ s.terms.destination.text
    ++ ", timeout: " ++ s.terms.timeout.text
    ++ ", retry_decided: " ++ toString s.isDecided
    ++ ", read_closed: " ++ toString s.memory.readShut
    ++ ", write_closed: " ++ toString s.memory.writeShut ++ ", .. \x7d"

/-- The text of what happened before the question was settled. -/
def statsText (s : Stream.Stats) : String :=
  let split := match s.split with
    | some n => "Some(" ++ toString n ++ ")"
    | none => "None"
  "RetryStats \x7b hello_len: " ++ toString s.helloLen
    ++ ", chunks: " ++ toString s.chunks
    ++ ", split: " ++ split
    ++ ", retried: " ++ toString s.retried
    ++ ", timeout: " ++ s.timeout.text ++ " \x7d"

/-- How a stream describes itself. -/
structure Description where
  /-- The stream. -/
  stream : String
  /-- What happened before the question was settled, once it is. -/
  stats : Option String
  deriving DecidableEq

/-- What is reported after a step. -/
structure Entry where
  /-- The calls that ended during the step, in order. -/
  done : List (TaskId × Outcome)
  /-- The unfinished calls. -/
  pending : List TaskId
  /-- Whether the question is settled. -/
  decided : Bool
  /-- What happened before it was settled, once it is. -/
  stats : Option Stream.Stats
  /-- The addresses of all dial calls. -/
  dials : List Address
  /-- The lengths that a scripted strategy was asked for. -/
  questions : List Nat
  /-- The connections. -/
  links : List LinkReport
  /-- What the stream reported during the step. -/
  notices : List Notice
  /-- How the stream described itself before the calls ran, if it was asked to. -/
  description : Option Description

/-- What a step does by itself; `index` is its number. -/
def act (m : StreamMachine) (index : Nat) : Action → StreamMachine
  | .call request => m.spawn index (.start request)
  | .cancel task => m.cancel Stream.behaviour task
  | action => { m with env := m.env.withWorld (action.change m.env.world) }

/-- The machine after a step and after the calls have run. -/
def next (m : StreamMachine) (index : Nat) (action : Action) : StreamMachine :=
  (act m index action).settle Stream.behaviour

/-- How the stream describes itself in a step. -/
def describe (m : StreamMachine) : Action → Option Description
  | .describe => some ⟨streamText m.env, m.env.stats?.map statsText⟩
  | _ => none

/-- The report of a step that led from `before` to `after`. -/
def entry (before after : StreamMachine) (action : Action) : Entry :=
  let mark := before.env.world.journal.length
  let journal := after.env.world.journal
  { done := after.finishedAfter before.finished.length
    pending := after.pending
    decided := after.env.isDecided
    stats := after.env.stats?
    dials := journal.dials
    questions := after.env.memory.strategy.questions
    links := linkReports after.env.world mark
    notices := (journal.after mark).notices
    description := describe before action }

/-- The reports of the steps from number `index` on. -/
def runFrom (m : StreamMachine) (index : Nat) : List Action → List Entry
  | [] => []
  | action :: actions =>
    let after := next m index action
    entry m after action :: runFrom after (index + 1) actions

/-- The reports of a session on a stream that has been opened. -/
def run (s : Stream.State) (actions : List Action) : List Entry := runFrom (.idle s) 0 actions

end Redial.StreamSession
