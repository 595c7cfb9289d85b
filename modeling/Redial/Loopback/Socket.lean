import Redial.Hello.Bytes
import Redial.Loopback.Host

/-!
# Sockets

One end of a connection between two sockets of a host, together with what its peer has done. What
one end writes reaches the other at once, and nothing is lost on the way.

A reset by the peer is met once, by the read or write that comes first after it; then reads meet the
end of the stream and writes fail. Bytes that have arrived before it are still read.
-/

namespace Redial.Loopback

/-- One end of a connection. -/
structure Socket where
  /-- What the peer has written and this end has not read. -/
  inbox : Bytes
  /-- Whether the peer will write no more. -/
  inboxEnded : Bool
  /-- What this end has written and the peer has not read. -/
  outbox : Bytes
  /-- Whether a reset by the peer has still to be met. -/
  resetPending : Bool
  /-- Whether the peer has reset the connection. -/
  dead : Bool
  /-- Whether the read half is shut. -/
  readShut : Bool
  /-- Whether the write half is shut. -/
  writeShut : Bool
  /-- Whether the system has announced that there is something to read. -/
  announced : Bool
  deriving DecidableEq

namespace Socket

/-- One end of a new connection. -/
def new : Socket := ⟨[], false, [], false, false, false, false, false⟩

/-- Reads at most `len` bytes without waiting. -/
def tryRead (s : Socket) (len : Nat) : Option (Socket × Except Fault Bytes) :=
  if s.inbox.isEmpty then
    if s.inboxEnded then some (s, .ok [])
    else if s.resetPending then
      some ({ s with resetPending := false }, .error (systemFault .connectionReset))
    else if s.readShut || s.dead then some (s, .ok [])
    else none
  else some ({ s with inbox := s.inbox.drop len }, .ok (s.inbox.take len))

/-- Writes all of `buf`, unless the write fails. -/
def write (s : Socket) (buf : Bytes) : Socket × Except Fault Nat :=
  if s.writeShut then (s, .error (systemFault .brokenPipe))
  else if s.resetPending then
    ({ s with resetPending := false }, .error (systemFault .connectionReset))
  else if s.dead then (s, .error (systemFault .brokenPipe))
  else ({ s with outbox := s.outbox ++ buf }, .ok buf.length)

/-- Shuts a half. A reader is told that there is something to read. -/
def shut (s : Socket) : Half → Socket
  | .read => { s with readShut := true, announced := true }
  | .write => { s with writeShut := true }

/-- Shuts both halves. -/
def close (s : Socket) : Socket := (s.shut .read).shut .write

/-! ## What the peer does -/

/-- The peer writes. -/
def peerWrite (s : Socket) (bytes : Bytes) : Socket :=
  { s with inbox := s.inbox ++ bytes, announced := true }

/-- The peer shuts its write half. -/
def peerShutdown (s : Socket) : Socket := { s with inboxEnded := true, announced := true }

/-- The peer resets the connection. -/
def peerReset (s : Socket) : Socket :=
  { s with resetPending := true, dead := true, announced := true }

/-- The peer reads at most `len` bytes. -/
def peerRead (s : Socket) (len : Nat) : Socket × Bytes :=
  ({ s with outbox := s.outbox.drop len }, s.outbox.take len)

end Socket

end Redial.Loopback
