/-!
# Decimal text

Digits of a number padded to a width, and the text after the point of a decimal fraction: as many
places as are needed and no zero at the end.
-/

namespace Redial.Decimal

/-- The digits of `n`, with zeros in front up to `width` places. -/
def padded (width n : Nat) : List Char :=
  let digits := Nat.toDigits 10 n
  List.replicate (width - digits.length) '0' ++ digits

/-- The digits without the zeros at their end. -/
def trimZeros (digits : List Char) : List Char :=
  (digits.reverse.dropWhile (· == '0')).reverse

/-- What follows the whole part of `n / 10 ^ places`: a point and the digits that matter, or nothing
if there are none. -/
def fraction (places n : Nat) : List Char :=
  match trimZeros (padded places n) with
  | [] => []
  | digits => '.' :: digits

/-- The text of `n / 10 ^ places`, exactly. -/
def scaled (places n : Nat) : String :=
  let unit := Nat.pow 10 places
  toString (n / unit) ++ String.ofList (fraction places (n % unit))

end Redial.Decimal
