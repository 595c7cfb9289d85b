import Redial.Wire.BareCall

/-!
# Steps of a session

A session is a list of steps. A step starts a call, drops one, or lets something happen in the
world; then all calls run until they are blocked or done. What has happened on a connection during
a step is reported after it.
-/

namespace Redial.Session

/-- A step of a session. -/
inductive Action where
  /-- Starts a call as a task. -/
  | call (request : Request)
  /-- Drops a task. -/
  | cancel (task : TaskId)
  /-- Opens a gate. -/
  | openGate (gate : Gate)
  /-- Lets time pass. -/
  | elapse (nanos : Nat)
  /-- Appends to the script of a connection. -/
  | feed (link : LinkId) (more : LinkScript)
  /-- Asks the stream to describe itself. -/
  | describe
  /-- Nothing by itself. -/
  | idle
  deriving DecidableEq

/-- What a step does to the world by itself. -/
def Action.change (w : World) : Action → World
  | .openGate gate => w.openGate gate
  | .elapse nanos => w.elapse nanos
  | .feed link more => w.feed link more
  | _ => w

/-- What is reported about a connection. -/
structure LinkReport where
  /-- The number of the dial call that made it. -/
  link : LinkId
  /-- The writes that were accepted during the step. -/
  wrote : List Bytes
  /-- The deadline of its reads. -/
  deadline : Option Instant
  /-- How often the deadline has been set or cleared. -/
  updates : Nat
  /-- How often it was asked to shut its read half. -/
  readShuts : Nat
  /-- How often it was asked to shut its write half. -/
  writeShuts : Nat
  /-- How often it was asked to close. -/
  closes : Nat
  /-- How many items of its script are still to arrive. -/
  readsLeft : Nat
  deriving DecidableEq

/-- The report about a connection after a step that began with `mark` journal entries. -/
def linkReport (w : World) (mark : Nat) (i : LinkId) (l : Link) : LinkReport where
  link := i
  wrote := (w.journal.after mark).writes i
  deadline := l.deadline
  updates := w.journal.count (Event.isDeadlineOf i)
  readShuts := w.journal.count (Event.isShutOf i .read)
  writeShuts := w.journal.count (Event.isShutOf i .write)
  closes := w.journal.count (Event.isCloseOf i)
  readsLeft := l.reads.length

/-- The reports about all connections, by number. -/
def linkReports (w : World) (mark : Nat) : List LinkReport :=
  w.links.zipIdx.filterMap fun (l, i) => l.map (linkReport w mark i)

end Redial.Session
