import Redial.Loopback.Host
import Redial.Session.StreamSession

/-!
# Retries on a host

A whole stream on a host: the client writes a hello, reads a reply, and writes once more. The server
answers at once, or it spoils the first connection in one of three ways.
-/

namespace Redial.Loopback

/-- What the server does after it has read the hello. -/
inductive ServerMode where
  /-- It answers. -/
  | reply
  /-- It resets the connection and answers on the next. -/
  | reset
  /-- It stays silent and answers on the next connection. -/
  | stall
  /-- It stops listening and resets the connection. -/
  | refuse
  deriving DecidableEq

/-- The plan of a session. -/
structure RetryPlan where
  /-- What the server does. -/
  mode : ServerMode
  /-- The configuration of the stream. -/
  config : Config
  /-- How the hello is cut. -/
  strategy : SplitStrategy
  /-- What the client writes first. -/
  hello : Bytes
  /-- What the server answers. -/
  reply : Bytes
  /-- What the client writes after the reply. -/
  late : Bytes

/-- What the client has seen. -/
structure ClientView where
  /-- What its read came to. -/
  read : Except Fault Bytes
  /-- What its late write came to. -/
  late : Except Fault Unit
  /-- What happened before the question of a retry was settled, once it is. -/
  stats : Option Stream.Stats
  /-- Whether it is settled. -/
  decided : Bool

/-- What the server has read. -/
structure ServerView where
  /-- The hello, on the first connection. -/
  first : Bytes
  /-- The hello, on the second connection, if there was one. -/
  second : Option Bytes
  /-- The late bytes, on the connection that it answered, if it answered one. -/
  late : Option Bytes

/-- How a session ends. -/
inductive RetrySession where
  /-- The client has got no connection. -/
  | aborted (text : String)
  /-- A call of the client waits for something that does not happen. -/
  | waitsForever
  /-- The client is done. -/
  | ran (client : ClientView) (server : ServerView)

namespace RetryPlan

/-- A connection on which the server answers. -/
def answering (p : RetryPlan) : LinkScript :=
  { LinkScript.silent with reads := [⟨none, .data p.reply⟩] }

/-- A connection that the server resets. -/
def resetting : LinkScript :=
  { LinkScript.silent with reads := [⟨none, .fault (systemFault .connectionReset)⟩] }

/-- The scripts of the two dials. -/
def dials (p : RetryPlan) : List (Gated DialScript) :=
  let first := match p.mode with
    | .reply => p.answering
    | .reset => resetting
    | .stall => .silent
    | .refuse => resetting
  let second := match p.mode with
    | .refuse => .error SystemFault.refused.toFault
    | _ => .ok p.answering
  [⟨none, ⟨0, .ok first⟩⟩, ⟨none, ⟨0, second⟩⟩]

/-- The number of the step that reads. -/
def readStep : Nat := 1

/-- The number of the step that writes late. -/
def lateStep : Nat := 3

/-- The steps: the hello is written, the reply is read unless it is empty, the client waits as long
as it allows for a reply, and the late bytes are written. -/
def actions (p : RetryPlan) (timeout : Duration) : List Session.Action :=
  [.call (.writeAll p.hello),
    if p.reply.isEmpty then .idle else .call (.read p.reply.length),
    .elapse timeout.nanos,
    .call (.writeAll p.late)]

/-- A fault as the operating system reports it; a fault of the retry stays as it is. -/
def asSystem : Fault → Fault
  | .plain kind _ => systemFault kind
  | f => f

/-- What the read came to. -/
def readResult? (p : RetryPlan) (done : List (TaskId × Outcome)) : Option (Except Fault Bytes) :=
  if p.reply.isEmpty then some (.ok [])
  else
    match done.lookup readStep with
    | some (.read r) => some r
    | _ => none

/-- What the late write came to. -/
def lateResult? (done : List (TaskId × Outcome)) : Option (Except Fault Unit) :=
  match done.lookup lateStep with
  | some (.wroteAll r) => some (r.mapError asSystem)
  | _ => none

/-- The bytes accepted by the connection of the last dial that made one. -/
def serverView (p : RetryPlan) (w : World) : ServerView :=
  let first := w.journal.bytesAccepted 0
  let second := (w.link? 1).map fun _ => w.journal.bytesAccepted 1
  let answered := match p.mode with
    | .reply => some first
    | _ => second
  { first := first.take p.hello.length
    second := second.map (·.take p.hello.length)
    late := answered.map (·.drop p.hello.length) }

/-- Runs a session on a host. -/
def run (host : Host) (p : RetryPlan) (destination : Address) : RetrySession :=
  match host.dialFault? with
  | some f => .aborted (Dialling.dial.abortText f)
  | none =>
    let setup : StreamSession.Setup :=
      { destination := destination
        config := p.config
        strategy := p.strategy
        clock := .ofNanos 0
        dials := p.dials }
    match setup.opening with
    | .failed _ _ => .aborted (Dialling.dial.abortText .refused)
    | .opened s =>
      let m := (p.actions s.terms.timeout).zipIdx.foldl
        (fun m (action, index) => StreamSession.next m index action) (Machine.idle s)
      match p.readResult? m.finished, lateResult? m.finished with
      | some read, some late =>
        .ran ⟨read, late, m.env.stats?, m.env.isDecided⟩ (p.serverView m.env.world)
      | _, _ => .waitsForever

end RetryPlan

end Redial.Loopback
