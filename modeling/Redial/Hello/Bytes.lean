/-!
# Bytes

Strings of bytes, and the two halves of a connection that carry them.
-/

namespace Redial

/-- A string of bytes. -/
abbrev Bytes := List UInt8

/-- A direction of a connection. -/
inductive Half where
  /-- Bytes from the peer. -/
  | read
  /-- Bytes to the peer. -/
  | write
  deriving DecidableEq

end Redial
