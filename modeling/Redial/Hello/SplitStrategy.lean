import Redial.Random.Draw

/-!
# Choosing where to cut

A split strategy is asked for an offset, once for every hello that is to be cut. It either draws
from a range, or reads its answers from a script and keeps a record of what it was asked.
-/

namespace Redial

/-- A strategy that reads its answers from a script and repeats the last one. -/
structure OffsetScript where
  /-- The answer to the next question. -/
  next : Nat
  /-- The answers after it. -/
  later : List Nat
  /-- The lengths that it was asked for, the latest first. -/
  asked : List Nat
  deriving DecidableEq

/-- How offsets are chosen. -/
inductive SplitStrategy where
  /-- Offsets are read from a script. -/
  | scripted (script : OffsetScript)
  /-- Offsets are drawn from a range. -/
  | uniform (range : OffsetRange) (stream : KeyStream)
  deriving DecidableEq

/-- Answers one question. -/
def OffsetScript.answer (s : OffsetScript) (helloLen : Nat) : Nat × OffsetScript :=
  match s.later with
  | [] => (s.next, { s with asked := helloLen :: s.asked })
  | o :: os => (s.next, ⟨o, os, helloLen :: s.asked⟩)

namespace SplitStrategy

/-- The strategy that draws from the offsets between two ends, if there is an offset. -/
def between? (lo hi : UInt64) (stream : KeyStream) : Option SplitStrategy :=
  (OffsetRange.between? lo hi).map fun range => uniform range stream

/-- The range that a strategy draws from, if it draws. -/
def range? : SplitStrategy → Option OffsetRange
  | scripted _ => none
  | uniform range _ => some range

/-- The offset for a hello of `helloLen` bytes, and the strategy for the next one. -/
def offset (helloLen : Nat) : SplitStrategy → Nat × SplitStrategy
  | scripted script =>
    let (o, script) := script.answer helloLen
    (o, scripted script)
  | uniform range stream =>
    let (o, stream) := stream.draw range
    (o, uniform range stream)

/-- The lengths that a scripted strategy was asked for, in order. -/
def questions : SplitStrategy → List Nat
  | scripted script => script.asked.reverse
  | uniform _ _ => []

/-- The offsets for a series of hellos with the given lengths. -/
def offsets (s : SplitStrategy) : List Nat → List Nat
  | [] => []
  | n :: ns =>
    let (o, s) := s.offset n
    o :: s.offsets ns

end SplitStrategy

end Redial
