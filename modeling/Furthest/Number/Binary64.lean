/-!
# Binary floating-point numbers

A number of 53 significant bits is `± m · 2 ^ q` with `m < 2 ^ 53` and `-1074 ≤ q ≤ 971`, an
infinity, or not a number.  `ofDecimal` reads a decimal exactly and rounds it once, to the nearest
such number and to the even neighbour on a tie.
-/

namespace Furthest

/-- A binary floating-point number of 53 significant bits. -/
inductive Binary64 where
  /-- The number `± mantissa · 2 ^ exponent`. -/
  | finite (negative : Bool) (mantissa : Nat) (exponent : Int)
  | infinite (negative : Bool)
  | nan
  deriving DecidableEq, Inhabited

namespace Binary64

/-- `num / den` rounded to the nearest integer, to the even one on a tie. -/
def roundDiv (num den : Nat) : Nat :=
  let q := num / den
  let r := 2 * (num % den)
  if r < den || (r = den && q % 2 = 0) then q else q + 1

/-- The quotient `num / den` in units of `2 ^ q`, as a fraction. -/
def scaled (num den : Nat) (q : Int) : Nat × Nat :=
  if 0 ≤ q then (num, den * Nat.pow 2 q.toNat) else (num * Nat.pow 2 (-q).toNat, den)

/-- The exponent for a positive quotient: its mantissa then has 53 bits, or fewer when the exponent
can go no lower. -/
def exponentFor (num den : Nat) : Int :=
  let q := (num.log2 : Int) - den.log2 - 53
  let (n, d) := scaled num den q
  let q := if n / d < Nat.pow 2 53 then q else q + 1
  max q (-1074)

/-- The number nearest to `± num / den`. -/
def ofRatio (negative : Bool) (num den : Nat) : Binary64 :=
  if num = 0 then .finite negative 0 (-1074)
  else
    let q := exponentFor num den
    let (n, d) := scaled num den q
    let m := roundDiv n d
    let (m, q) := if m = Nat.pow 2 53 then (Nat.pow 2 52, q + 1) else (m, q)
    if 971 < q then .infinite negative else .finite negative m q

/-- The number nearest to `± digits · 10 ^ exponent`.  Beyond these exponents it is an infinity or
zero. -/
def ofDecimal (negative : Bool) (digits : Nat) (exponent : Int) : Binary64 :=
  if digits = 0 then .finite negative 0 (-1074)
  else if 400 < exponent then .infinite negative
  else if exponent < -400 - digits.log2 then .finite negative 0 (-1074)
  else if 0 ≤ exponent then ofRatio negative (digits * Nat.pow 10 exponent.toNat) 1
  else ofRatio negative digits (Nat.pow 10 (-exponent).toNat)

/-- Whether a number is zero, of either sign. -/
def isZero : Binary64 → Bool
  | .finite _ m _ => m == 0
  | _ => false

end Binary64

end Furthest
