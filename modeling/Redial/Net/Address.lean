/-!
# Socket addresses

A host and a port. A host is four octets, or eight 16-bit groups with a scope.
-/

namespace Redial

/-- The address of a socket. -/
inductive Address where
  /-- A host of four octets. -/
  | v4 (octets : Vector UInt8 4) (port : UInt16)
  /-- A host of eight groups; scope 0 stands for none. -/
  | v6 (groups : Vector UInt16 8) (scope : UInt32) (port : UInt16)
  deriving DecidableEq

namespace Address

/-- The port. -/
def port : Address → UInt16
  | v4 _ p => p
  | v6 _ _ p => p

end Address

end Redial
