import Redial.Wire.Source
import Redial.Wire.World

/-!
# Calls on a connection

The calls that can be made on a connection without a stream in between: a read, a write, a request
to shut a half, and two loops over writes. *Writing all* goes on until the buffer is used up;
*copying* reads a source piece by piece and writes each piece in full. Both loops take an
interruption as no more than a reason to try again, and fail if a write takes nothing.
-/

namespace Redial

/-- What a caller can ask for. -/
inductive Request where
  /-- Read at most `len` bytes. -/
  | read (len : Nat)
  /-- Write some bytes from the front of `buf`. -/
  | write (buf : Bytes)
  /-- Write all bytes of `buf`. -/
  | writeAll (buf : Bytes)
  /-- Copy a source up to its end. -/
  | copy (source : Source)
  /-- Shut a half. -/
  | shut (half : Half)
  deriving DecidableEq

/-- What a request comes to. -/
inductive Outcome where
  /-- The bytes read; none of them means the end of the stream. -/
  | read (result : Except Fault Bytes)
  /-- How many bytes were written. -/
  | wrote (result : Except Fault Nat)
  /-- Whether all bytes were written. -/
  | wroteAll (result : Except Fault Unit)
  /-- How many bytes were copied, and what is left of the source in either case. -/
  | copied (result : Except Fault Nat) (left : Source)
  /-- Whether the half was shut. -/
  | shut (result : Except Fault Unit)

/-- Where a call on a connection is. -/
inductive BareCall where
  /-- About to read. -/
  | read (len : Nat)
  /-- About to write. -/
  | write (buf : Bytes)
  /-- Writing all, with `rest` still to be written. -/
  | writeAll (rest : Bytes)
  /-- Copying, with `rest` still to be written and `copied` bytes written before it. -/
  | copy (copied : Nat) (source : Source) (rest : Bytes)
  /-- About to shut a half. -/
  | shut (half : Half)
  deriving DecidableEq

/-- How many bytes a copy reads from its source at a time. -/
def copyLen : Nat := 32768

/-- The call that a request begins with. -/
def Request.bare : Request → BareCall
  | read len => .read len
  | write buf => .write buf
  | writeAll buf => .writeAll buf
  | copy source => .copy 0 source []
  | shut half => .shut half

/-- The result of a request to shut a half. -/
def ShutAnswer.result : ShutAnswer → Except Fault Unit
  | none => .ok ()
  | some f => .error f

namespace BareCall

/-- What follows a write of a loop that has `rest` to write: the loop ends with `fail` if the write
took nothing or failed for good, and else it goes on with what is left. -/
def afterWrite (rest : Bytes) (result : Except Fault Bytes) (goOn : Nat → Bytes → BareCall)
    (fail : Fault → Outcome) : Progress BareCall Outcome :=
  match result with
  | .ok [] => .done (fail .writeZero)
  | .ok accepted => .goesOn (goOn accepted.length (rest.drop accepted.length))
  | .error f => if f.isInterrupted then .goesOn (goOn 0 rest) else .done (fail f)

/-- One step of a call on connection `i`, made for a task. -/
def step (task : TaskId) (i : LinkId) (w : World) :
    BareCall → Option (World × Progress BareCall Outcome)
  | read len => do
    let (w, r) ← w.read i task len
    some (w, .done (.read r))
  | write buf => do
    let (w, r) ← w.write i (.call task) buf
    some (w, .done (.wrote (r.map List.length)))
  | writeAll [] => some (w, .done (.wroteAll (.ok ())))
  | writeAll rest => do
    let (w, r) ← w.write i (.call task) rest
    some (w, afterWrite rest r (fun _ rest => .writeAll rest) fun f => .wroteAll (.error f))
  | copy copied source [] => do
    let (source, r) ← source.pull w.opened copyLen
    some (w, match r with
      | .ok [] => .done (.copied (.ok copied) source)
      | .ok piece => .goesOn (.copy copied source piece)
      | .error f =>
        if f.isInterrupted then .goesOn (.copy copied source [])
        else .done (.copied (.error f) source))
  | copy copied source rest => do
    let (w, r) ← w.write i (.call task) rest
    some (w, afterWrite rest r (fun n rest => .copy (copied + n) source rest)
      fun f => .copied (.error f) source)
  | shut half => do
    let (w, r) ← w.shut i half
    some (w, .done (.shut r.result))

/-- A bound for the steps of a call, interruptions apart. -/
def work : BareCall → Nat
  | read _ => 1
  | write _ => 1
  | writeAll rest => rest.length + 1
  | copy _ source rest => rest.length + source.work + 1
  | shut _ => 1

/-- Calls on connection `i`. Each interrupted write uses up an outcome of its script. -/
def behaviour (i : LinkId) : Behaviour World BareCall Outcome where
  step task w call := call.step task i w
  drop _ w := w
  effort w calls :=
    calls.foldr (fun call n => call.work + n) (World.scriptedWrites w.dials w.links + 1)

end BareCall

end Redial
