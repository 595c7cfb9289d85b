import Redial.Hello.Buffer
import Redial.Hello.Cut
import Redial.Sync.Latch
import Redial.Sync.Lock
import Redial.Wire.World

/-!
# The state of a stream

A stream runs over one connection at a time. While the question of a retry is open it remembers
what has been written, and its calls take turns at a lock; once the question is settled, the
connection is final and calls go to it directly. The question is settled by setting a latch, once.

Requests to shut a half are remembered apart from the lock, so that a retry can carry them over to
the connection that it makes.
-/

namespace Redial.Stream

/-- What a stream is opened with. -/
structure Terms where
  /-- Where it is connected to. -/
  destination : Address
  /-- The time allowed between a write and the first reply. -/
  timeout : Duration
  /-- How many bytes a copy reads at a time while the question is open. -/
  chunkLen : Nat
  deriving DecidableEq

/-- What happened before the question was settled. -/
structure Stats where
  /-- How many bytes had been written. -/
  helloLen : Nat
  /-- In how many writes. -/
  chunks : Nat
  /-- The length of the first piece, if the hello was cut. -/
  split : Option Nat
  /-- Whether a retry was attempted. -/
  retried : Bool
  /-- The time that was allowed for the first reply. -/
  timeout : Duration
  deriving DecidableEq

/-- How the question was settled. -/
structure Decision where
  /-- The final connection. -/
  link : LinkId
  /-- What happened before. -/
  stats : Stats
  deriving DecidableEq

/-- What a stream remembers. -/
structure Memory where
  /-- The connection in use. -/
  current : LinkId
  /-- What has been written while the question was open. -/
  hello : Hello
  /-- The length of the first piece, once the hello has been cut. -/
  split : Option Nat
  /-- Whether a retry has been attempted. -/
  retried : Bool
  /-- How the hello will be cut. -/
  strategy : SplitStrategy
  /-- The lock at which calls take turns while the question is open. -/
  lock : Lock
  /-- How the question was settled. -/
  decision : Latch Decision
  /-- Whether the read half was asked to be shut. -/
  readShut : Bool
  /-- Whether the write half was asked to be shut. -/
  writeShut : Bool
  deriving DecidableEq

/-- A stream and the world around it. -/
structure State where
  /-- What it was opened with. -/
  terms : Terms
  /-- What it remembers. -/
  memory : Memory
  /-- The world around it. -/
  world : World

/-- The memory of a stream that has just been connected. -/
def Memory.start (link : LinkId) (strategy : SplitStrategy) : Memory where
  current := link
  hello := .empty
  split := none
  retried := false
  strategy := strategy
  lock := .free
  decision := .unset
  readShut := false
  writeShut := false

namespace State

/-- Whether the question is settled. -/
def isDecided (s : State) : Bool := s.memory.decision.isSet

/-- The final connection, once the question is settled. -/
def finalLink? (s : State) : Option LinkId := s.memory.decision.value.map (·.link)

/-- The final connection, or the one in use while the question is open. -/
def finalLink (s : State) : LinkId := s.finalLink?.getD s.memory.current

/-- What happened before the question was settled, once it is. -/
def stats? (s : State) : Option Stats := s.memory.decision.value.map (·.stats)

/-- What would be told if the question were settled now. -/
def statsNow (s : State) : Stats where
  helloLen := s.memory.hello.length
  chunks := s.memory.hello.chunks
  split := s.memory.split
  retried := s.memory.retried
  timeout := s.terms.timeout

/-- The state with another world. -/
def withWorld (s : State) (w : World) : State := { s with world := w }

/-- Enters a report. -/
def note (s : State) (n : Notice) : State := s.withWorld (s.world.note n)

/-- The state with another lock. -/
def withLock (s : State) (l : Lock) : State := { s with memory := { s.memory with lock := l } }

/-- Releases the lock. -/
def release (s : State) : State := s.withLock s.memory.lock.release

/-- Settles the question on the connection in use, and forgets what has been written. -/
def settle (s : State) : State :=
  State.note
    { s with
      memory :=
        { s.memory with
          hello := .empty
          decision := s.memory.decision.set ⟨s.memory.current, s.statsNow⟩ } }
    (.decided s.terms.destination s.memory.retried)

/-- Sets the read deadline of a connection. -/
def setDeadline (s : State) (link : LinkId) (deadline : Option Instant) : State :=
  s.withWorld (s.world.setDeadline link deadline)

/-- When a reply to a write made now is overdue, if the clock can show it. -/
def replyDeadline (s : State) : Option Instant := s.world.now.add? s.terms.timeout

/-- Remembers that a half was asked to be shut. -/
def askShut (s : State) : Half → State
  | .read => { s with memory := { s.memory with readShut := true } }
  | .write => { s with memory := { s.memory with writeShut := true } }

/-- Whether a half was asked to be shut. -/
def askedShut (s : State) : Half → Bool
  | .read => s.memory.readShut
  | .write => s.memory.writeShut

/-- Remembers one more write. -/
def push (s : State) (bytes : Bytes) : State :=
  { s with memory := { s.memory with hello := s.memory.hello.push bytes } }

end State

end Redial.Stream
