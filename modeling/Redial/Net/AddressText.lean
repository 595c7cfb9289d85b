import Redial.Net.Address

/-!
# The text of an address

Four octets are written in dotted form. Eight groups are written in brackets, in lower-case
hexadecimal without leading zeros; the longest run of at least two zero groups is written `::`, and
of two runs of equal length the first. Groups that carry four octets (`::ffff:0:0/96`) end in dotted
form. A scope is written only if it is not 0.
-/

namespace Redial

/-- Four octets in dotted form. -/
def octetsText (octets : List UInt8) : String :=
  ".".intercalate (octets.map fun b => toString b.toNat)

/-- Groups in hexadecimal, with colons between them. -/
def groupsText (groups : List UInt16) : String :=
  ":".intercalate (groups.map fun g => String.ofList (Nat.toDigits 16 g.toNat))

/-- A run of zero groups. -/
structure ZeroRun where
  /-- The place of its first group. -/
  start : Nat
  /-- How many groups it has. -/
  length : Nat

/-- The first of the longest runs of zero groups. -/
def ZeroRun.longest (groups : List UInt16) : ZeroRun :=
  (List.range groups.length).foldl
    (fun best i =>
      let length := ((groups.drop i).takeWhile (· == 0)).length
      if best.length < length then ⟨i, length⟩ else best)
    ⟨0, 0⟩

/-- The octets carried by the last two of eight groups, if the others are those of
`::ffff:0:0/96`. -/
def embeddedOctets? : List UInt16 → Option (List UInt8)
  | [0, 0, 0, 0, 0, 0xffff, g, h] =>
    some [(g >>> 8).toUInt8, g.toUInt8, (h >>> 8).toUInt8, h.toUInt8]
  | _ => none

/-- The text of a host of eight groups. -/
def hostText (groups : List UInt16) : String :=
  match embeddedOctets? groups with
  | some octets => "::ffff:" ++ octetsText octets
  | none =>
    let run := ZeroRun.longest groups
    if run.length < 2 then groupsText groups
    else groupsText (groups.take run.start) ++ "::"
      ++ groupsText (groups.drop (run.start + run.length))

/-- The text of an address. -/
def Address.text : Address → String
  | .v4 octets port => octetsText octets.toList ++ ":" ++ toString port.toNat
  | .v6 groups scope port =>
    let zone := if scope = 0 then "" else "%" ++ toString scope.toNat
    "[" ++ hostText groups.toList ++ zone ++ "]:" ++ toString port.toNat

end Redial
