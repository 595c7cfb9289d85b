import Redial.Random.KeyStream
import Redial.Hello.OffsetRange

/-!
# Uniform draws

A number of a range is drawn from a stream of words by a widening product: the high half of
`word * size` is the place in the range. If the low half leaves room for it, a second word decides
whether the product with more bits would have carried into the high half. A draw always reads the
stream, also if the range has one number only.
-/

namespace Redial

/-- The width of the words that a draw uses. -/
inductive WordWidth where
  /-- One word of the stream. -/
  | single
  /-- Two words of the stream. -/
  | double
  deriving DecidableEq

namespace WordWidth

/-- How many words of the width there are. -/
def count : WordWidth → Nat
  | single => UInt32.size
  | double => UInt64.size

/-- Single words are used if every number of the range fits into one. -/
def of (range : OffsetRange) : WordWidth := if range.hi < single.count then single else double

end WordWidth

namespace KeyStream

/-- Reads a word of a given width. -/
def next (s : KeyStream) : WordWidth → Nat × KeyStream
  | .single => let (x, s) := s.next32; (x.toNat, s)
  | .double => let (x, s) := s.next64; (x.toNat, s)

/-- Draws a number of `range`. The size is taken modulo the width, so that 0 stands for all words of
that width; then the word itself is the place. -/
def draw (s : KeyStream) (range : OffsetRange) : Nat × KeyStream :=
  let width := WordWidth.of range
  let bound := width.count
  let size := range.size % bound
  let (x, s) := s.next width
  if size = 0 then (range.lo + x, s)
  else
    let high := x * size / bound
    let low := x * size % bound
    if bound - size < low then
      let (y, s) := s.next width
      if bound ≤ low + y * size / bound then (range.lo + (high + 1), s) else (range.lo + high, s)
    else (range.lo + high, s)

/-- Draws `n` numbers of `range`, one after the other. -/
def draws (s : KeyStream) (range : OffsetRange) : Nat → List Nat × KeyStream
  | 0 => ([], s)
  | n + 1 =>
    let (x, s) := s.draw range
    let (xs, s) := s.draws range n
    (x :: xs, s)

end KeyStream

end Redial
