import Redial.Fault.Kind
import Redial.Net.AddressText

/-!
# Faults

A fault is plain, with a kind and perhaps a text of its own, or it is the failure of a step of the
retry, which wraps the fault that made the step fail. Steps can be wrapped to any depth, so a fault
is a list of failed steps that ends in a plain fault: its *root*.

A wrapping fault has the kind of its root, and its text is the labels of all steps from the outside
in, followed by the text of the root.
-/

namespace Redial

/-- A step of the retry that can fail. -/
inductive RetryStep where
  /-- Dialling `destination` once more. -/
  | redial (destination : Address)
  /-- Replaying the hello, of which `replayed` bytes had been written. -/
  | replay (replayed : Nat)
  deriving DecidableEq

/-- What a failed step puts in front of the text of its cause. -/
def RetryStep.label : RetryStep → String
  | redial destination => "RetryDialFailed: " ++ destination.text ++ ": "
  | replay replayed => "ReplayFailed: after " ++ toString replayed ++ " bytes: "

/-- Why a call on a connection or on a stream failed. -/
inductive Fault where
  /-- A fault of its own, with its text if it brings one. -/
  | plain (kind : FaultKind) (text : Option String)
  /-- A step of the retry failed because of `cause`. -/
  | retry (step : RetryStep) (cause : Fault)
  deriving DecidableEq

/-- The failure of a step of the retry. -/
structure RetryFault where
  /-- The step. -/
  step : RetryStep
  /-- Why it failed. -/
  cause : Fault
  deriving DecidableEq

namespace Fault

/-- A plain fault with the standard text of its kind. -/
def ofKind (kind : FaultKind) : Fault := plain kind none

/-- The kind of a fault: that of its root. -/
def kind : Fault → FaultKind
  | plain k _ => k
  | retry _ cause => cause.kind

/-- The text of a fault. -/
def message : Fault → String
  | plain k text => text.getD k.text
  | retry step cause => step.label ++ cause.message

/-- The failed step that a fault wraps, if it is not plain. -/
def retryFault? : Fault → Option RetryFault
  | plain _ _ => none
  | retry step cause => some ⟨step, cause⟩

/-- The plain fault at the bottom. -/
def root : Fault → Fault
  | plain k text => plain k text
  | retry _ cause => cause.root

/-- The failed steps, the outermost first. -/
def steps : Fault → List RetryStep
  | plain _ _ => []
  | retry step cause => step :: cause.steps

/-- Whether the call was merely interrupted and may be made again. -/
def isInterrupted (f : Fault) : Bool := f.kind == .interrupted

/-- A write that took nothing of a buffer that was not empty. -/
def writeZero : Fault := ofKind .writeZero

/-- A read whose deadline passed. -/
def deadlineExceeded : Fault := plain .timedOut (some "read deadline exceeded")

end Fault

namespace RetryFault

/-- The text of a failed step. -/
def message (f : RetryFault) : String := f.step.label ++ f.cause.message

/-- The fault that a caller is given for a failed step. -/
def toFault (f : RetryFault) : Fault := .retry f.step f.cause

@[simp] theorem retryFault?_toFault (f : RetryFault) : f.toFault.retryFault? = some f := rfl

@[simp] theorem message_toFault (f : RetryFault) : f.toFault.message = f.message := rfl

@[simp] theorem kind_toFault (f : RetryFault) : f.toFault.kind = f.cause.kind := rfl

end RetryFault

end Redial
