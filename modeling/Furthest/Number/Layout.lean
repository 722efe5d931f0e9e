import Furthest.Number.Shortest

/-!
# How numbers are written

The digits of `shortest` are laid out with a decimal point or in scientific notation; `Layout`
records where one gives way to the other and how the exponent looks.
-/

namespace Furthest

/-- The decisions of a number format. -/
structure Layout where
  /-- Exponents of the first digit from here on are written with a decimal point, … -/
  leastPositional : Int
  /-- … as long as they are less than this. -/
  positionalBelow : Int
  /-- The least number of digits of an exponent. -/
  exponentWidth : Nat

/-- Numbers from `0.0001` to below `10 ^ 16` are written with a decimal point; an exponent has a
sign and two digits or more. -/
def Layout.standard : Layout := ⟨-4, 16, 2⟩

namespace Layout

/-- The exponent of a number in scientific notation. -/
def exponentText (l : Layout) (e : Int) : String :=
  let digits := toString e.natAbs
  let padding := "".pushn '0' (l.exponentWidth - digits.length)
  (if e < 0 then "e-" else "e+") ++ padding ++ digits

/-- The digits of `c` with the point after the first `point` of them. -/
def positional (digits : List Char) (point : Int) : List Char :=
  if point ≤ 0 then '0' :: '.' :: List.replicate (-point).toNat '0' ++ digits
  else if digits.length ≤ point.toNat then
    digits ++ List.replicate (point.toNat - digits.length) '0' ++ ['.', '0']
  else digits.take point.toNat ++ '.' :: digits.drop point.toNat

/-- The text of `c · 10 ^ k`. -/
def decimalText (l : Layout) (c : Nat) (k : Int) : String :=
  let digits := Nat.toDigits 10 c
  let e := k + digits.length - 1
  if l.leastPositional ≤ e && decide (e < l.positionalBelow) then
    String.ofList (positional digits (e + 1))
  else
    let mantissa := match digits with
      | [] => []
      | [d] => [d]
      | d :: rest => d :: '.' :: rest
    String.ofList mantissa ++ l.exponentText e

end Layout

/-- The text of a floating-point number. -/
def Binary64.toText (l : Layout) : Binary64 → String
  | .nan => "nan"
  | .infinite negative => if negative then "-inf" else "inf"
  | .finite negative m q =>
    let body := if m = 0 then "0.0" else
      let (c, k) := shortest m q
      l.decimalText c k
    if negative then "-" ++ body else body

end Furthest
