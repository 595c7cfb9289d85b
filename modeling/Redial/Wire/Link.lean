import Redial.Wire.Script
import Redial.Time.Instant

/-!
# Connections

A connection follows its script. Its state is what is left of the script, whether it or one of its
halves is shut, and the deadline of its reads. Each attempt at a call looks at the state afresh and
either comes to an end or finds that it has to wait.
-/

namespace Redial

/-- A connection. -/
structure Link extends LinkScript where
  /-- Whether it is closed. -/
  closed : Bool
  /-- Whether its read half is shut. -/
  readShut : Bool
  /-- Whether its write half is shut. -/
  writeShut : Bool
  /-- When reads give up waiting, if they do. -/
  deadline : Option Instant
  deriving DecidableEq

namespace Link

/-- A new connection. -/
def ofScript (script : LinkScript) : Link :=
  { script with closed := false, readShut := false, writeShut := false, deadline := none }

/-- Whether the deadline has passed. -/
def overdue (l : Link) (now : Instant) : Bool :=
  match l.deadline with
  | some deadline => deadline.reached now
  | none => false

/-- What a read of at most `len` bytes meets while nothing has arrived: the deadline, or it
waits. -/
def waitForData (l : Link) (now : Instant) : Option (Link × Except Fault Bytes) :=
  if l.overdue now then some (l, .error .deadlineExceeded) else none

/-- Reads at most `len` bytes. A fault that has arrived is met even if the read half is shut; bytes
that have arrived are returned even if the deadline has passed. -/
def read (l : Link) (now : Instant) (opened : List Gate) (len : Nat) :
    Option (Link × Except Fault Bytes) :=
  if l.closed then
    match l.closedRead with
    | .fault kind => some (l, .error (.ofKind kind))
    | .endOfStream => some (l, .ok [])
  else
    match l.reads with
    | [] => if l.readShut then some (l, .ok []) else l.waitForData now
    | g :: rest =>
      if g.ready opened then
        match g.item with
        | .fault f => some ({ l with reads := rest }, .error f)
        | .data bytes =>
          if l.readShut then some (l, .ok [])
          else
            match bytes.drop len with
            | [] => some ({ l with reads := rest }, .ok (bytes.take len))
            | left =>
              some ({ l with reads := { g with item := .data left } :: rest }, .ok (bytes.take len))
      else if l.readShut then some (l, .ok [])
      else l.waitForData now

/-- The bytes that a write takes as usual. -/
def usualTake (l : Link) (buf : Bytes) : Bytes :=
  match l.writeMax with
  | none => buf
  | some n => buf.take n

/-- Writes some bytes from the front of `buf` and returns those that were accepted. -/
def write (l : Link) (opened : List Gate) (buf : Bytes) : Option (Link × Except Fault Bytes) :=
  if l.closed || l.writeShut then some (l, .error (.ofKind .brokenPipe))
  else
    match l.writes with
    | [] => some (l, .ok (l.usualTake buf))
    | g :: rest =>
      if g.ready opened then
        let l := { l with writes := rest }
        match g.item with
        | .fault f => some (l, .error f)
        | .atMost n => some (l, .ok (buf.take n))
        | .usual => some (l, .ok (l.usualTake buf))
      else none

/-- The answers to requests to shut a half that are still to come. -/
def shuts (l : Link) : Half → List (Gated ShutAnswer)
  | .read => l.readShuts
  | .write => l.writeShuts

/-- The connection with other answers to requests to shut a half. -/
def withShuts (l : Link) (answers : List (Gated ShutAnswer)) : Half → Link
  | .read => { l with readShuts := answers }
  | .write => { l with writeShuts := answers }

/-- The connection with a half shut. -/
def shutHalf (l : Link) : Half → Link
  | .read => { l with readShut := true }
  | .write => { l with writeShut := true }

/-- Asks to shut a half; the answer is a fault if the request is refused. -/
def shut (l : Link) (opened : List Gate) (half : Half) : Option (Link × ShutAnswer) :=
  match l.shuts half with
  | [] => some (l.shutHalf half, none)
  | g :: rest =>
    if g.ready opened then
      let l := l.withShuts rest half
      match g.item with
      | some f => some (l, some f)
      | none => some (l.shutHalf half, none)
    else none

/-- Asks to close the connection; the answer is a fault if the request is refused. -/
def close (l : Link) : Link × ShutAnswer :=
  match l.closeFault with
  | some kind => (l, some (.ofKind kind))
  | none => ({ l with closed := true }, none)

/-- Appends to the script. -/
def feed (l : Link) (more : LinkScript) : Link :=
  { l with
    reads := l.reads ++ more.reads
    writes := l.writes ++ more.writes
    readShuts := l.readShuts ++ more.readShuts
    writeShuts := l.writeShuts ++ more.writeShuts }

end Link

end Redial
