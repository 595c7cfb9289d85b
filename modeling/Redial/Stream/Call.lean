import Redial.Stream.State
import Redial.Wire.BareCall

/-!
# Calls on a stream

Where a call on a stream can be. While the question of a retry is open, a call asks for the lock
before it does its *errand*. Four kinds of places hold the lock over a wait: a write on the
connection in use, a request to shut a half of it, a dial of the retry, and what the retry does on
the connection that the dial made.
-/

namespace Redial.Stream

/-- What a write is part of. -/
inductive Goal where
  /-- A single write. -/
  | once
  /-- Writing all. -/
  | all
  /-- A copy, which has `copied` bytes written and the rest of its source before it. -/
  | copy (copied : Nat) (source : Source)
  deriving DecidableEq

/-- What a call does once the lock is its own. -/
inductive Errand where
  /-- A read looks up the connection in use. -/
  | locate (len : Nat)
  /-- A read that met the end of the stream looks whether a retry was given up. -/
  | confirmEnd
  /-- A read that was made on `link` before the question was settled brings its result. -/
  | judge (link : LinkId) (len : Nat) (result : Except Fault Bytes)
  /-- A write is made. -/
  | send (goal : Goal) (buf : Bytes)
  /-- A half is shut. -/
  | shut (half : Half)

/-- A piece of a hello that has been cut. -/
inductive Piece where
  | first
  | second
  deriving DecidableEq

/-- The bytes of a piece. -/
def Piece.bytes (c : Cut) : Piece → Bytes
  | first => c.first
  | second => c.second

/-- How many bytes come before a piece. -/
def Piece.before (c : Cut) : Piece → Nat
  | first => 0
  | second => c.first.length

/-- Where a call on a stream is. -/
inductive Call where
  /-- Not yet begun. -/
  | start (request : Request)
  /-- Has asked for the lock. -/
  | queued (errand : Errand)
  /-- Reading from `link`, which was in use when the read looked. -/
  | reading (link : LinkId) (len : Nat)
  /-- Retrying: waits for a dial call. Holds the lock. -/
  | redialling (len : Nat) (dial : LinkId)
  /-- Retrying: writes a piece of the hello, of which `rest` is left. Holds the lock. -/
  | replaying (len : Nat) (cut : Cut) (piece : Piece) (rest : Bytes)
  /-- Retrying: shuts a half once more. Holds the lock. -/
  | reshutting (len : Nat) (half : Half)
  /-- Retrying: waits for the reply. Holds the lock. -/
  | answering (len : Nat)
  /-- Writing on the connection in use. Holds the lock. -/
  | sending (goal : Goal) (buf : Bytes)
  /-- Waits for the question to be settled after a write failed. -/
  | awaiting (goal : Goal) (buf : Bytes) (waiter : Waiter)
  /-- Writing on a final connection. -/
  | sendingTo (link : LinkId) (goal : Goal) (buf : Bytes)
  /-- Copying: looks whether the question is settled. -/
  | looking (copied : Nat) (source : Source)
  /-- Copying: reads a chunk from the source. -/
  | pulling (copied : Nat) (source : Source)
  /-- Shutting a half of the connection in use. Holds the lock. -/
  | shutting (half : Half)
  /-- A call on a final connection. -/
  | bare (link : LinkId) (call : BareCall)

/-- Whether a call at this place holds the lock and waits for something else. -/
def Call.holds : Call → Bool
  | redialling .. => true
  | replaying .. => true
  | reshutting .. => true
  | answering .. => true
  | sending .. => true
  | shutting .. => true
  | _ => false

end Redial.Stream
