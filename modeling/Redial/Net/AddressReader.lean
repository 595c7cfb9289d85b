import Redial.Net.Address

/-!
# Reading an address

The accepted forms: `a.b.c.d:port`, and `[host]:port` or `[host%scope]:port`, where the host is
written with eight groups, or with fewer and one `::` that stands for at least one zero group. The
last two groups may be written as four octets. Octets have no leading zero; groups have one to four
digits; ports and scopes may have leading zeros.
-/

namespace Redial

/-- The pieces of a text between the occurrences of `sep`. -/
def pieces (sep : Char) : List Char → List (List Char)
  | [] => [[]]
  | c :: cs =>
    if c = sep then [] :: pieces sep cs
    else match pieces sep cs with
      | [] => [[c]]
      | p :: ps => (c :: p) :: ps

/-- The value of a digit in base `base`. -/
def digitValue? (base : Nat) (c : Char) : Option Nat :=
  let v :=
    if '0' ≤ c ∧ c ≤ '9' then some (c.toNat - '0'.toNat)
    else if 'a' ≤ c ∧ c ≤ 'f' then some (c.toNat - 'a'.toNat + 10)
    else if 'A' ≤ c ∧ c ≤ 'F' then some (c.toNat - 'A'.toNat + 10)
    else none
  v.filter (· < base)

/-- The value of one or more digits, below `bound`. -/
def numeral? (base bound : Nat) (cs : List Char) : Option Nat :=
  if cs.isEmpty then none
  else
    (cs.foldl
      (fun acc c => do
        let n ← acc
        let d ← digitValue? base c
        some (n * base + d))
      (some 0)).filter (· < bound)

/-- An octet: one to three decimal digits without a leading zero. -/
def octet? (cs : List Char) : Option UInt8 :=
  if 3 < cs.length ∨ (cs.head? = some '0' ∧ 1 < cs.length) then none
  else (numeral? 10 256 cs).map UInt8.ofNat

/-- Four octets in dotted form. -/
def octets? (cs : List Char) : Option (Vector UInt8 4) :=
  match (pieces '.' cs).mapM octet? with
  | some [a, b, c, d] => some #v[a, b, c, d]
  | _ => none

/-- A group: one to four hexadecimal digits. -/
def group? (cs : List Char) : Option UInt16 :=
  if 4 < cs.length then none else (numeral? 16 65536 cs).map UInt16.ofNat

/-- The two groups that carry four octets. -/
def groupsOfOctets (o : Vector UInt8 4) : List UInt16 :=
  [o[0].toUInt16 <<< 8 ||| o[1].toUInt16, o[2].toUInt16 <<< 8 ||| o[3].toUInt16]

/-- Groups with colons between them, none if the text is empty; where `dotted`, the last two may be
written as octets. -/
def groups? (dotted : Bool) (cs : List Char) : Option (List UInt16) :=
  if cs.isEmpty then some []
  else
    let ps := pieces ':' cs
    let last := ps.getLast?.getD []
    match (if dotted then octets? last else none) with
    | some o => (ps.dropLast.mapM group?).map (· ++ groupsOfOctets o)
    | none => ps.mapM group?

/-- What stands before and after the first `::`. -/
def atGap? : List Char → Option (List Char × List Char)
  | ':' :: ':' :: rest => some ([], rest)
  | c :: rest => (atGap? rest).map fun (before, after) => (c :: before, after)
  | [] => none

/-- A host of eight groups. -/
def host? (cs : List Char) : Option (Vector UInt16 8) := do
  let gs ← match atGap? cs with
    | none => groups? true cs
    | some (before, after) =>
      let front ← groups? false before
      let back ← groups? true after
      if front.length + back.length < 8 then
        some (front ++ List.replicate (8 - front.length - back.length) 0 ++ back)
      else none
  if h : gs.toArray.size = 8 then some ⟨gs.toArray, h⟩ else none

/-- A port: decimal digits below 65536. -/
def port? (cs : List Char) : Option UInt16 := (numeral? 10 65536 cs).map UInt16.ofNat

/-- What follows the opening bracket: a host, perhaps a scope, the closing bracket and a port. -/
def bracketed? (cs : List Char) : Option Address := do
  match pieces ']' cs with
  | [inside, ':' :: port] =>
    let port ← port? port
    match pieces '%' inside with
    | [host] => some (.v6 (← host? host) 0 port)
    | [host, scope] =>
      let scope ← numeral? 10 4294967296 scope
      some (.v6 (← host? host) (UInt32.ofNat scope) port)
    | _ => none
  | _ => none

/-- Reads an address. -/
def Address.ofText? (s : String) : Option Address :=
  match s.toList with
  | '[' :: rest => bracketed? rest
  | cs =>
    match pieces ':' cs with
    | [host, port] => do some (.v4 (← octets? host) (← port? port))
    | _ => none

end Redial
