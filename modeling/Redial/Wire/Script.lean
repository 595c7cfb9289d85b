import Redial.Fault.Basic
import Redial.Hello.Bytes

/-!
# Scripts

What the peers of a run do is written down beforehand: what arrives on a connection, what becomes
of its writes, and how dials end. An item of a script may stand behind a gate; it is not ready
until the gate has been opened.
-/

namespace Redial

/-- The name of a gate. -/
abbrev Gate := String

/-- An item that may stand behind a gate. -/
structure Gated (α : Type) where
  /-- The gate, if there is one. -/
  gate : Option Gate
  /-- The item. -/
  item : α
  deriving DecidableEq

/-- Whether an item is ready when the gates `opened` are open. -/
def Gated.ready {α : Type} (g : Gated α) (opened : List Gate) : Bool :=
  match g.gate with
  | none => true
  | some gate => opened.contains gate

/-- What arrives. -/
inductive Arrival where
  /-- Bytes; none of them stands for the end of the stream. -/
  | data (bytes : Bytes)
  /-- A fault. -/
  | fault (fault : Fault)
  deriving DecidableEq

/-- What becomes of a write. -/
inductive Acceptance where
  /-- It fails. -/
  | fault (fault : Fault)
  /-- At most `n` bytes are accepted. -/
  | atMost (n : Nat)
  /-- As many bytes are accepted as the connection takes at a time. -/
  | usual
  deriving DecidableEq

/-- What becomes of a request to shut a half: a fault, or it is granted. -/
abbrev ShutAnswer := Option Fault

/-- What a read meets on a closed connection. -/
inductive ClosedRead where
  /-- A fault of some kind. -/
  | fault (kind : FaultKind)
  /-- The end of the stream. -/
  | endOfStream
  deriving DecidableEq

/-- The script of a connection. -/
structure LinkScript where
  /-- What arrives. -/
  reads : List (Gated Arrival)
  /-- What becomes of the writes; later ones are as usual. -/
  writes : List (Gated Acceptance)
  /-- What becomes of requests to shut the read half; later ones are granted. -/
  readShuts : List (Gated ShutAnswer)
  /-- What becomes of requests to shut the write half; later ones are granted. -/
  writeShuts : List (Gated ShutAnswer)
  /-- What requests to close fail with, if they do. -/
  closeFault : Option FaultKind
  /-- What reads meet once the connection is closed. -/
  closedRead : ClosedRead
  /-- The most bytes that a write takes at a time, if there is a bound. -/
  writeMax : Option Nat
  deriving DecidableEq

/-- A connection on which nothing arrives and everything is granted. -/
def LinkScript.silent : LinkScript := ⟨[], [], [], [], none, .fault .notConnected, none⟩

/-- The script of a dial. -/
structure DialScript where
  /-- How long it takes, in nanoseconds. -/
  latency : Nat
  /-- How it ends. -/
  answer : Except Fault LinkScript

/-- What a dial beyond the script ends with. -/
def DialScript.refused : DialScript := ⟨0, .error (.ofKind .connectionRefused)⟩

end Redial
