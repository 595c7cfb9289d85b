import Redial.Loopback.Socket
import Redial.Sync.Bell
import Redial.Task.Machine
import Redial.Time.Instant

/-!
# Reads that race a deadline

A read of a socket waits for three things at once: something to read, the deadline, and the bell
that rings when the deadline is changed. Each time round, the read begins to listen to the bell
before it looks up the deadline, so no change can fall between the two. Then it polls the three in
a fixed order: the socket first, the deadline it has looked up second, the bell last.

The announcement that there is something to read may be wrong; the read then takes it back and
begins anew.
-/

namespace Redial.Loopback

/-- A socket with a clock and a read deadline. -/
structure TimedSocket where
  /-- The socket. -/
  socket : Socket
  /-- The clock. -/
  now : Instant
  /-- When reads give up waiting, if they do. -/
  deadline : Option Instant
  /-- The bell that rings when the deadline is changed. -/
  changed : Bell
  deriving DecidableEq

namespace TimedSocket

/-- One end of a new connection. -/
def new : TimedSocket := ⟨.new, .ofNanos 0, none, .silent⟩

/-- Sets or clears the deadline, and tells all who wait. -/
def setDeadline (s : TimedSocket) (deadline : Option Instant) : TimedSocket :=
  { s with deadline := deadline, changed := s.changed.ring }

/-- Lets time pass. -/
def elapse (s : TimedSocket) (nanos : Nat) : TimedSocket := { s with now := s.now.advance nanos }

/-- The system announces that there is something to read, rightly or not. -/
def announce (s : TimedSocket) : TimedSocket :=
  { s with socket := { s.socket with announced := true } }

/-- Whether a deadline, if there is one, has passed. -/
def overdue (s : TimedSocket) (deadline : Option Instant) : Bool :=
  match deadline with
  | some t => t.reached s.now
  | none => false

end TimedSocket

/-- Where a read is. -/
inductive ReadPoint where
  /-- About to begin. -/
  | start
  /-- Listens to the bell, and is about to look up the deadline. -/
  | listening (listener : Listener)
  /-- Has looked up the deadline, and is about to poll the socket. -/
  | atSocket (listener : Listener) (deadline : Option Instant)
  /-- Found nothing to read, and is about to poll the deadline. -/
  | atDeadline (listener : Listener) (deadline : Option Instant)
  /-- Found the deadline in the future, and is about to poll the bell. -/
  | atBell (listener : Listener) (deadline : Option Instant)
  /-- Waits for any of the three. -/
  | suspended (listener : Listener) (deadline : Option Instant)
  deriving DecidableEq

namespace ReadPoint

/-- One step of a read of at most `len` bytes, if it is not suspended with nothing to wake it. -/
def step (len : Nat) (s : TimedSocket) :
    ReadPoint → Option (TimedSocket × Progress ReadPoint (Except Fault Bytes))
  | start => some (s, .goesOn (.listening s.changed.listen))
  | listening listener => some (s, .goesOn (.atSocket listener s.deadline))
  | atSocket listener deadline =>
    if s.socket.announced then
      match s.socket.tryRead len with
      | some (socket, r) => some ({ s with socket := socket }, .done r)
      | none =>
        some ({ s with socket := { s.socket with announced := false } }, .goesOn .start)
    else some (s, .goesOn (.atDeadline listener deadline))
  | atDeadline listener deadline =>
    if s.overdue deadline then some (s, .done (.error .deadlineExceeded))
    else some (s, .goesOn (.atBell listener deadline))
  | atBell listener deadline =>
    some (s, .goesOn (if listener.woken s.changed then .start else .suspended listener deadline))
  | suspended listener deadline =>
    if s.socket.announced || s.overdue deadline || listener.woken s.changed then
      some (s, .goesOn (.atSocket listener deadline))
    else none

end ReadPoint

end Redial.Loopback
