import Furthest.Number.Layout

/-!
# Numbers

Integers of any size and floating-point numbers, compared exactly: a comparison with something that
is not a number is false.  A count that has to stay below a number takes `Number.limit` steps.
-/

namespace Furthest

/-- How often something may be repeated. -/
inductive Limit where
  | finite (count : Nat)
  | infinite
  deriving DecidableEq, Inhabited

/-- An integer or a floating-point number. -/
inductive Number where
  | int (n : Int)
  | float (x : Binary64)
  deriving DecidableEq, Inhabited

namespace Number

/-- Where a number lies on the line of reals and infinities. -/
inductive Place where
  | ratio (num : Int) (den : Nat)
  | infinite (negative : Bool)
  | nowhere

/-- The place of a number. -/
def place : Number → Place
  | .int n => .ratio n 1
  | .float (.finite negative m q) =>
    let num : Int := if negative then -m else m
    if 0 ≤ q then .ratio (num * Nat.pow 2 q.toNat) 1 else .ratio num (Nat.pow 2 (-q).toNat)
  | .float (.infinite negative) => .infinite negative
  | .float .nan => .nowhere

/-- Whether a number is less than another. -/
def lt (a b : Number) : Bool :=
  match a.place, b.place with
  | .ratio n d, .ratio n' d' => decide (n * d' < n' * d)
  | .ratio _ _, .infinite negative => !negative
  | .infinite negative, .ratio _ _ => negative
  | .infinite negative, .infinite negative' => negative && !negative'
  | _, _ => false

/-- How many of `0, 1, 2, …` are less than a number. -/
def limit (a : Number) : Limit :=
  match a.place with
  | .ratio n d => .finite ((n + d - 1) / d).toNat
  | .infinite negative => if negative then .finite 0 else .infinite
  | .nowhere => .finite 0

/-- The text of a number. -/
def toText : Number → String
  | .int n => toString n
  | .float x => x.toText .standard

end Number

end Furthest
