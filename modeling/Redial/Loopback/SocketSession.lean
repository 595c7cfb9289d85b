import Redial.Loopback.PendingRead

/-!
# Sessions on a socket

A client on a socket and its peer take turns, one call at a time. The clock moves only when the
client waits for the deadline of a read.
-/

namespace Redial.Loopback

/-- When a deadline lies, seen from the moment at which it is set. -/
inductive DeadlineChoice where
  /-- No deadline. -/
  | never
  /-- At once. -/
  | past
  /-- In five milliseconds. -/
  | soon
  /-- In one hour. -/
  | far
  deriving DecidableEq

/-- The instant of a choice. -/
def DeadlineChoice.instant (now : Instant) : DeadlineChoice → Option Instant
  | never => none
  | past => some now
  | soon => some (now.advance 5000000)
  | far => some (now.advance 3600000000000)

/-- A step of a session. -/
inductive SocketAction where
  /-- The client reads up to `len` bytes, the end of the stream or a fault. -/
  | read (len : Nat)
  /-- As `read`, and a deadline is set shortly ahead once the client waits. -/
  | readPending (len : Nat)
  /-- The client sets its deadline. -/
  | deadline (choice : DeadlineChoice)
  /-- The client writes once. -/
  | write (buf : Bytes)
  /-- The client writes all. -/
  | writeAll (buf : Bytes)
  /-- The client copies a source of bytes. -/
  | copy (bytes : Bytes)
  /-- The client copies a source of bytes while the peer reads them. -/
  | bulk (bytes : Bytes)
  /-- The client shuts a half. -/
  | shut (half : Half)
  /-- The client closes its end. -/
  | close
  /-- The peer writes. -/
  | peerWrite (bytes : Bytes)
  /-- The peer shuts its write half. -/
  | peerShutdown
  /-- The peer resets the connection. -/
  | peerReset
  /-- The peer reads up to `len` bytes or the end of the stream. -/
  | peerRead (len : Nat)
  deriving DecidableEq

/-- What a step comes to. -/
inductive SocketOutcome where
  /-- Nothing to tell. -/
  | done
  /-- A number of bytes was written. -/
  | count (n : Nat)
  /-- Bytes were read, up to the end of the stream if it was met. -/
  | bytes (bytes : Bytes) (ended : Bool)
  /-- A read failed after some bytes. -/
  | failedAfter (bytes : Bytes) (fault : Fault)
  /-- A call failed. -/
  | failed (fault : Fault)
  /-- A number of bytes was copied, and the peer has read some. -/
  | bulk (sent : Nat) (got : Bytes)
  /-- The step waits for something that does not happen. -/
  | waitsForever

/-- Reads until there are `len` bytes, with `got` read before. Where the read has to wait, a
deadline is set shortly ahead if `arm` says so, and else the clock goes to the deadline. -/
def readUpTo (len : Nat) : Nat → Bool → TimedSocket → Bytes → ReadPoint →
    TimedSocket × SocketOutcome
  | 0, _, s, _, _ => (s, .waitsForever)
  | fuel + 1, arm, s, got, p =>
    if len ≤ got.length then (s, .bytes got false)
    else
      match p.step (len - got.length) s with
      | some (s, .goesOn p) => readUpTo len fuel arm s got p
      | some (s, .done (.ok [])) => (s, .bytes got true)
      | some (s, .done (.ok bytes)) => readUpTo len fuel arm s (got ++ bytes) .start
      | some (s, .done (.error f)) => (s, .failedAfter got f)
      | none =>
        if arm then
          readUpTo len fuel false (s.setDeadline (DeadlineChoice.soon.instant s.now)) got p
        else
          match s.deadline with
          | some t => readUpTo len fuel arm { s with now := t } got p
          | none => (s, .waitsForever)

/-- More steps than a read of `len` bytes can take: every round takes less than sixteen, and every
round but the last few reads a byte. -/
def readFuel (len : Nat) : Nat := 16 * (len + 8)

/-- What a write comes to. -/
def writeOutcome (s : TimedSocket) (buf : Bytes) (told : Nat → SocketOutcome) :
    TimedSocket × SocketOutcome :=
  let (socket, r) := s.socket.write buf
  ({ s with socket := socket },
    match r with
    | .ok n => told n
    | .error f => .failed f)

/-- The state with the socket changed. -/
def TimedSocket.change (s : TimedSocket) (f : Socket → Socket) : TimedSocket × SocketOutcome :=
  ({ s with socket := f s.socket }, .done)

/-- One step of a session. -/
def SocketAction.perform (s : TimedSocket) : SocketAction → TimedSocket × SocketOutcome
  | read len => readUpTo len (readFuel len) false s [] .start
  | readPending len => readUpTo len (readFuel len) true s [] .start
  | deadline choice => (s.setDeadline (choice.instant s.now), .done)
  | write buf => writeOutcome s buf .count
  | writeAll [] => (s, .done)
  | writeAll buf => writeOutcome s buf fun _ => .done
  | copy [] => (s, .count 0)
  | copy bytes => writeOutcome s bytes .count
  | bulk bytes =>
    let (s, outcome) := writeOutcome s bytes fun n => .bulk n bytes
    match outcome with
    | .bulk n _ =>
      let (socket, got) := s.socket.peerRead bytes.length
      ({ s with socket := socket }, .bulk n got)
    | outcome => (s, outcome)
  | shut half => s.change (·.shut half)
  | close => s.change Socket.close
  | peerWrite bytes => s.change (·.peerWrite bytes)
  | peerShutdown => s.change Socket.peerShutdown
  | peerReset => s.change Socket.peerReset
  | peerRead len =>
    let (socket, got) := s.socket.peerRead len
    let s := { s with socket := socket }
    if got.length < len && !socket.writeShut then (s, .waitsForever)
    else (s, .bytes got (got.length < len))

/-- The outcomes of the steps of a session. -/
def SocketAction.run (s : TimedSocket) : List SocketAction → List SocketOutcome
  | [] => []
  | a :: as =>
    let (s, outcome) := a.perform s
    outcome :: SocketAction.run s as

/-- How a session on a socket begins. -/
structure SocketSetup where
  /-- How the client gets its connection. -/
  dialling : Dialling
  /-- Whether the client sends small writes without delay. -/
  nodelay : Bool
  deriving DecidableEq

/-- How a session on a socket ends. -/
inductive SocketSession where
  /-- The client has got no connection. -/
  | aborted (text : String)
  /-- The steps have been taken. -/
  | ran (nodelay : Bool) (outcomes : List SocketOutcome)

/-- Runs a session on a host. A connection that is taken over delays small writes. -/
def SocketSession.run (host : Host) (setup : SocketSetup) (actions : List SocketAction) :
    SocketSession :=
  match host.dialFault? with
  | some f => .aborted (setup.dialling.abortText f)
  | none =>
    let nodelay := match setup.dialling with
      | .dial => setup.nodelay
      | .takeOver => false
    .ran nodelay (SocketAction.run .new actions)

end Redial.Loopback
