import Redial.Config.Basic

/-!
# Settings

A configuration is made by applying settings one after the other to the default. Two settings can
be refused: an empty range of offsets and a chunk length of 0. The first refused setting ends the
whole.
-/

namespace Redial

/-- One setting of a configuration. -/
inductive Setting where
  /-- Sets the base of the reply timeout. -/
  | baseTimeout (base : Duration)
  /-- Sets the number of round trips. -/
  | rttFactor (factor : UInt32)
  /-- Sets the range of offsets. -/
  | splitRange (lo hi : UInt64)
  /-- Makes the draws repeatable. -/
  | splitSeed (seed : UInt64)
  /-- Sets the chunk length. -/
  | chunkLen (len : UInt64)
  deriving DecidableEq

/-- Why a setting is refused. -/
inductive Refusal where
  /-- The range has no offset. -/
  | emptyRange
  /-- Chunks would be empty. -/
  | emptyChunk
  deriving DecidableEq

/-- The text of a refusal. -/
def Refusal.message : Refusal → String
  | emptyRange => "split range must not be empty"
  | emptyChunk => "chunk length must not be zero"

namespace Config

/-- Applies a setting. -/
def apply (c : Config) : Setting → Except Refusal Config
  | .baseTimeout base => .ok { c with baseTimeout := base }
  | .rttFactor factor => .ok { c with rttFactor := factor }
  | .splitRange lo hi =>
    match OffsetRange.between? lo hi with
    | some range => .ok { c with splitRange := range }
    | none => .error .emptyRange
  | .splitSeed seed => .ok { c with splitSeed := some seed }
  | .chunkLen len =>
    if h : 0 < len.toNat then .ok { c with chunkLen := len.toNat, chunkLen_pos := h }
    else .error .emptyChunk

/-- Applies settings in order, up to the first that is refused. -/
def applyAll (c : Config) : List Setting → Except Refusal Config
  | [] => .ok c
  | s :: ss =>
    match c.apply s with
    | .ok c => c.applyAll ss
    | .error r => .error r

/-- The configuration made by settings. -/
def ofSettings (settings : List Setting) : Except Refusal Config := default.applyAll settings

end Config

end Redial
