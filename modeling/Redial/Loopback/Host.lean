import Redial.Fault.Basic

/-!
# Hosts

Connections from a host to itself go over its loopback route. A host without that route is
*isolated*: every dial to itself fails at once.
-/

namespace Redial.Loopback

/-- A fault reported by the operating system. -/
structure SystemFault where
  /-- The number of the fault. -/
  code : Nat
  /-- Its kind. -/
  kind : FaultKind
  /-- The system's own text. -/
  text : String
  deriving DecidableEq

namespace SystemFault

/-- There is no route to the destination. -/
def unreachable : SystemFault := ⟨101, .networkUnreachable, "Network is unreachable"⟩

/-- Nobody listens at the destination. -/
def refused : SystemFault := ⟨111, .connectionRefused, "Connection refused"⟩

/-- The fault that a caller is given. The system's own text differs between hosts and is left
out. -/
def toFault (f : SystemFault) : Fault := .plain f.kind (some "os error")

/-- The full text of a fault. -/
def fullText (f : SystemFault) : String :=
  "Os \x7b code: " ++ toString f.code ++ ", kind: " ++ f.kind.name ++ ", message: \"" ++ f.text
    ++ "\" \x7d"

end SystemFault

/-- The fault of a kind, as the operating system reports it. -/
def systemFault (kind : FaultKind) : Fault := .plain kind (some "os error")

/-- Whether a host can connect to itself. -/
inductive Host where
  /-- It has a loopback route. -/
  | connected
  /-- It has none. -/
  | isolated
  deriving DecidableEq

namespace Host

/-- What a dial to an address of the host fails with where somebody listens, if it fails. -/
def dialFault? : Host → Option SystemFault
  | connected => none
  | isolated => some .unreachable

/-- What a dial to an address of the host fails with where nobody listens. -/
def refusal : Host → SystemFault
  | connected => .refused
  | isolated => .unreachable

end Host

/-- How a client gets its connection. -/
inductive Dialling where
  /-- It dials the destination. -/
  | dial
  /-- It takes over a connection that has been made before. -/
  | takeOver
  deriving DecidableEq

/-- The text with which a session ends that needs a connection and gets none. -/
def Dialling.abortText (d : Dialling) (f : SystemFault) : String :=
  (match d with
    | dial => "dial: "
    | takeOver => "connect: ") ++ f.fullText

end Redial.Loopback
