import Furthest.Number.Binary64

/-!
# The shortest decimal for a binary number

A positive number `m · 2 ^ q` stands for every real that rounds to it.  `shortest` finds the fewest
decimal digits that lie among those reals, and of equally short ones the nearest.
-/

namespace Furthest.Binary64

/-- Reals that round to one number: `low ≤ 4 · x / 2 ^ q ≤ high`, with the ends left out unless
`closed`. -/
structure Interval where
  low : Nat
  high : Nat
  closed : Bool

/-- The reals that round to `m · 2 ^ q`.  The gap below a power of two is half the gap above. -/
def interval (m : Nat) (q : Int) : Interval where
  low := if m = Nat.pow 2 52 && decide (-1074 < q) then 4 * m - 1 else 4 * m - 2
  high := 4 * m + 2
  closed := m % 2 == 0

/-- The decimal `c · 10 ^ k` in units of `2 ^ q / 4`, as a fraction. -/
def inUnits (q : Int) (c : Nat) (k : Int) : Nat × Nat :=
  let (n, d) := if 0 ≤ k then (c * Nat.pow 10 k.toNat, 1) else (c, Nat.pow 10 (-k).toNat)
  scaled (4 * n) d q

/-- Whether `c · 10 ^ k` lies in an interval. -/
def Interval.contains (i : Interval) (q : Int) (c : Nat) (k : Int) : Bool :=
  let (n, d) := inUnits q c k
  if i.closed then decide (i.low * d ≤ n) && decide (n ≤ i.high * d)
  else decide (i.low * d < n) && decide (n < i.high * d)

/-- The distance of `c · 10 ^ k` from `m · 2 ^ q`, as a fraction in units of `2 ^ q / 4`. -/
def distance (m : Nat) (q : Int) (c : Nat) (k : Int) : Nat × Nat :=
  let (n, d) := inUnits q c k
  (if n ≤ 4 * m * d then 4 * m * d - n else n - 4 * m * d, d)

/-- The number of decimal digits of a natural number. -/
def digitCount (n : Nat) : Nat := (Nat.toDigits 10 n).length

/-- The least `j` with `den ≤ num · 10 ^ j`, looked for among the next `fuel` ones. -/
def leadingZeros : (fuel : Nat) → (num den : Nat) → Nat
  | 0, _, _ => 0
  | fuel + 1, num, den => if den ≤ num then 0 else leadingZeros fuel (num * 10) den + 1

/-- The decimal exponent of the first digit of `m · 2 ^ q`. -/
def leadingExponent (m : Nat) (q : Int) : Int :=
  let (num, den) := if 0 ≤ q then (m * Nat.pow 2 q.toNat, 1) else (m, Nat.pow 2 (-q).toNat)
  if den ≤ num then (digitCount (num / den) : Int) - 1 else -(leadingZeros 330 num den : Int)

/-- The two neighbours of `m · 2 ^ q` on the grid of multiples of `10 ^ k`. -/
def neighbours (m : Nat) (q k : Int) : Nat × Nat :=
  let (num, den) := scaled m 1 (-q)
  let (num, den) :=
    if 0 ≤ k then (num, den * Nat.pow 10 k.toNat) else (num * Nat.pow 10 (-k).toNat, den)
  (num / den, num / den + 1)

/-- The nearer neighbour on a grid that rounds to the number, if any does; a tie goes to the even
one. -/
def pick (m : Nat) (q k : Int) : Option Nat :=
  let i := interval m q
  let (a, b) := neighbours m q k
  match i.contains q a k, i.contains q b k with
  | true, true =>
    let (an, ad) := distance m q a k
    let (bn, bd) := distance m q b k
    if an * bd < bn * ad || (an * bd == bn * ad && a % 2 == 0) then some a else some b
  | true, false => some a
  | false, true => some b
  | false, false => none

/-- Searches ever finer grids, `digits` digits and more. -/
def search (m : Nat) (q : Int) (first : Int) : (fuel digits : Nat) → Nat × Int
  | 0, _ => (m, q)
  | fuel + 1, digits =>
    let k := first - (digits : Int) + 1
    match pick m q k with
    | some c => (c, k)
    | none => search m q first fuel (digits + 1)

/-- Drops trailing zeros of `c · 10 ^ k`. -/
def trimZeros : (fuel : Nat) → Nat → Int → Nat × Int
  | 0, c, k => (c, k)
  | fuel + 1, c, k => if c % 10 = 0 then trimZeros fuel (c / 10) (k + 1) else (c, k)

/-- The shortest decimal `c · 10 ^ k` for `m · 2 ^ q`, where `m` is positive. -/
def shortest (m : Nat) (q : Int) : Nat × Int :=
  let (c, k) := search m q (leadingExponent m q) 18 1
  trimZeros 20 c k

end Furthest.Binary64
