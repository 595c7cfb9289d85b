/-!
# Key streams

An endless stream of 32-bit words that is fixed by a key of eight words: the ChaCha stream cipher
with twelve rounds, a 64-bit block counter and nonce 0. The stream is read by position, so a stream
is its key and the number of words that have been read.

A key is expanded from a 64-bit seed by a linear congruential generator whose states are permuted
into words.
-/

namespace Redial

/-- The key of a stream. -/
structure StreamKey where
  /-- Its eight words. -/
  words : Vector UInt32 8
  deriving DecidableEq

namespace StreamKey

/-- The next state of the seed expander. -/
def nextState (s : UInt64) : UInt64 := s * 6364136223846793005 + 11634580027462260723

/-- The word of a state: its high bits folded onto the low ones, turned by the top five bits. -/
def wordOfState (s : UInt64) : UInt32 :=
  let x := (((s >>> 18) ^^^ s) >>> 27).toUInt32
  let turn := (s >>> 59).toUInt32
  (x >>> turn) ||| (x <<< ((32 - turn) % 32))

/-- The key expanded from a seed: word `i` comes from the state after `i + 1` steps. -/
def ofSeed (seed : UInt64) : StreamKey :=
  ⟨Vector.ofFn fun i : Fin 8 => wordOfState (Nat.repeat nextState (i.val + 1) seed)⟩

end StreamKey

namespace Cipher

/-- The sixteen words that the cipher works on. -/
abbrev Words := Vector UInt32 16

/-- A word turned to the left by `n` bits. -/
def turnLeft (x n : UInt32) : UInt32 := (x <<< n) ||| (x >>> (32 - n))

/-- The mixing of four words. -/
def quarterRound (a b c d : Fin 16) (s : Words) : Words :=
  let s := s.set a (s[a] + s[b])
  let s := s.set d (turnLeft (s[d] ^^^ s[a]) 16)
  let s := s.set c (s[c] + s[d])
  let s := s.set b (turnLeft (s[b] ^^^ s[c]) 12)
  let s := s.set a (s[a] + s[b])
  let s := s.set d (turnLeft (s[d] ^^^ s[a]) 8)
  let s := s.set c (s[c] + s[d])
  s.set b (turnLeft (s[b] ^^^ s[c]) 7)

/-- One round over the columns and one over the diagonals. -/
def doubleRound (s : Words) : Words :=
  let s := quarterRound 3 7 11 15 (quarterRound 2 6 10 14
    (quarterRound 1 5 9 13 (quarterRound 0 4 8 12 s)))
  quarterRound 3 4 9 14 (quarterRound 2 7 8 13 (quarterRound 1 6 11 12 (quarterRound 0 5 10 15 s)))

/-- The words before the first round: the constants, the key, the counter and no nonce. -/
def start (key : StreamKey) (counter : UInt64) : Words :=
  let k := key.words
  #v[0x61707865, 0x3320646e, 0x79622d32, 0x6b206574, k[0], k[1], k[2], k[3], k[4], k[5], k[6], k[7],
    counter.toUInt32, (counter >>> 32).toUInt32, 0, 0]

/-- The block of the stream with number `counter`. -/
def block (key : StreamKey) (counter : UInt64) : Words :=
  let s := start key counter
  (Nat.repeat doubleRound 6 s).zipWith (· + ·) s

end Cipher

/-- A stream of words and how far it has been read. -/
structure KeyStream where
  /-- The key. -/
  key : StreamKey
  /-- How many words have been read. -/
  position : Nat
  deriving DecidableEq

namespace KeyStream

/-- The unread stream of a seed. -/
def ofSeed (seed : UInt64) : KeyStream := ⟨.ofSeed seed, 0⟩

/-- The word at a place of the stream. -/
def word (s : KeyStream) (i : Nat) : UInt32 :=
  (Cipher.block s.key (UInt64.ofNat (i / 16))).get ⟨i % 16, Nat.mod_lt i (by decide)⟩

/-- Reads one word. -/
def next32 (s : KeyStream) : UInt32 × KeyStream :=
  (s.word s.position, { s with position := s.position + 1 })

/-- Reads two words as one of 64 bits, the low half first. -/
def next64 (s : KeyStream) : UInt64 × KeyStream :=
  let (low, s) := s.next32
  let (high, s) := s.next32
  (low.toUInt64 ||| (high.toUInt64 <<< 32), s)

end KeyStream

end Redial
