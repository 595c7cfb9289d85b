import Redial.Time.Timeout
import Redial.Hello.SplitStrategy

/-!
# Configuration of a stream

How long to wait for a reply, where to cut the hello, and how much to copy at a time while the
question of a retry is open.
-/

namespace Redial

/-- The configuration of a stream. -/
structure Config where
  /-- The base of the reply timeout. -/
  baseTimeout : Duration
  /-- The number of round trips added to it. -/
  rttFactor : UInt32
  /-- The offsets at which a hello may be cut. -/
  splitRange : OffsetRange
  /-- The seed of the draws, if they are to be repeatable. -/
  splitSeed : Option UInt64
  /-- How many bytes are read from a source at a time while the question is open. -/
  chunkLen : Nat
  /-- At least one byte is read at a time. -/
  chunkLen_pos : 0 < chunkLen
  deriving DecidableEq

namespace Config

/-- The configuration without any setting. -/
def default : Config where
  baseTimeout := defaultBaseTimeout
  rttFactor := defaultRttFactor
  splitRange := OffsetRange.default
  splitSeed := none
  chunkLen := 2048
  chunkLen_pos := by decide

/-- The reply timeout after a dial that was begun at `before` and was done at `after`. -/
def timeoutFor (c : Config) (before after : Instant) : Duration :=
  replyTimeout c.baseTimeout c.rttFactor before after

/-- The strategy that the configuration describes. Without a seed the draws come from `entropy`. -/
def strategy (c : Config) (entropy : StreamKey) : SplitStrategy :=
  .uniform c.splitRange
    (match c.splitSeed with
      | some seed => KeyStream.ofSeed seed
      | none => ⟨entropy, 0⟩)

/-- The text of a configuration, field by field. -/
def text (c : Config) : String :=
  let seed := match c.splitSeed with
    | some s => "Some(" ++ toString s.toNat ++ ")"
    | none => "None"
  "Config \x7b base_timeout: " ++ c.baseTimeout.text
    ++ ", rtt_factor: " ++ toString c.rttFactor.toNat
    ++ ", split_range: " ++ c.splitRange.text
    ++ ", split_seed: " ++ seed
    ++ ", read_from_chunk_len: " ++ toString c.chunkLen ++ " \x7d"

end Config

end Redial
