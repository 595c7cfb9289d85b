import Redial.Hello.Bytes
import Redial.Journal.Notice
import Redial.Task.Machine
import Redial.Time.Instant

/-!
# The journal

What happened on the connections of a run, in order, with the clock at which it happened. Reports on
a run are views of its journal: the bytes a connection accepted, how often a half was shut, which
addresses were dialled.
-/

namespace Redial

/-- The number of the dial call that made a connection. -/
abbrev LinkId := Nat

/-- On whose behalf bytes are written. -/
inductive Purpose where
  /-- For a call that a caller made. -/
  | call (task : TaskId)
  /-- For the replay of the hello, by the read that retries. -/
  | replay (task : TaskId)
  deriving DecidableEq

/-- What can happen. -/
inductive Event where
  /-- A dial call was made. -/
  | dialling (destination : Address)
  /-- A dial call yielded a connection. -/
  | connected (link : LinkId)
  /-- A dial call failed. -/
  | dialFailed (fault : Fault)
  /-- A connection accepted bytes. -/
  | accepted (link : LinkId) (purpose : Purpose) (bytes : Bytes)
  /-- A write failed, and none of the bytes was accepted. -/
  | writeFailed (link : LinkId) (purpose : Purpose) (offered : Bytes) (fault : Fault)
  /-- A read took bytes from a connection, or met the end of the stream if there are none. -/
  | delivered (link : LinkId) (task : TaskId) (bytes : Bytes)
  /-- A read failed. -/
  | readFailed (link : LinkId) (task : TaskId) (fault : Fault)
  /-- The read deadline of a connection was set or cleared. -/
  | deadline (link : LinkId) (deadline : Option Instant)
  /-- A request to shut a half was answered, with a fault if it was refused. -/
  | shut (link : LinkId) (half : Half) (fault : Option Fault)
  /-- A request to close a connection was answered, with a fault if it was refused. -/
  | closed (link : LinkId) (fault : Option Fault)
  /-- The stream reported something. -/
  | noticed (notice : Notice)
  deriving DecidableEq

/-- An event with the clock at which it happened. -/
structure Entered where
  /-- The clock. -/
  time : Instant
  /-- What happened. -/
  event : Event
  deriving DecidableEq

/-- What happened in a run, the latest first. -/
abbrev Journal := List Entered

namespace Event

/-- The bytes that a connection accepted. -/
def acceptedBy? (link : LinkId) : Event → Option Bytes
  | accepted l _ bytes => if l = link then some bytes else none
  | _ => none

/-- The address of a dial call. -/
def dialled? : Event → Option Address
  | dialling destination => some destination
  | _ => none

/-- What the stream reported. -/
def notice? : Event → Option Notice
  | noticed n => some n
  | _ => none

/-- Whether the read deadline of a connection was set or cleared. -/
def isDeadlineOf (link : LinkId) : Event → Bool
  | deadline l _ => l = link
  | _ => false

/-- Whether a request to shut a half of a connection was answered. -/
def isShutOf (link : LinkId) (half : Half) : Event → Bool
  | shut l h _ => l = link && h = half
  | _ => false

/-- Whether a request to close a connection was answered. -/
def isCloseOf (link : LinkId) : Event → Bool
  | closed l _ => l = link
  | _ => false

end Event

namespace Journal

/-- The entries after the first `n`, still the latest first. -/
def after (j : Journal) (n : Nat) : Journal := j.take (j.length - n)

/-- What `f` finds in the events, in order. -/
def findings {α : Type} (j : Journal) (f : Event → Option α) : List α :=
  (j.filterMap fun e => f e.event).reverse

/-- How many events satisfy `p`. -/
def count (j : Journal) (p : Event → Bool) : Nat := j.countP fun e => p e.event

/-- The writes that a connection accepted, in order. -/
def writes (j : Journal) (link : LinkId) : List Bytes := j.findings (Event.acceptedBy? link)

/-- The bytes that a connection accepted. -/
def bytesAccepted (j : Journal) (link : LinkId) : Bytes := (j.writes link).flatten

/-- The addresses that were dialled, in order. -/
def dials (j : Journal) : List Address := j.findings Event.dialled?

/-- What the stream reported, in order. -/
def notices (j : Journal) : List Notice := j.findings Event.notice?

end Journal

end Redial
