import Furthest.Number.Binary64

/-!
# Reading floating-point numbers

A number is digits with an optional point and an optional exponent, or the name of what is no finite
number; a sign may come first.
-/

namespace Furthest.Binary64

/-- The number that decimal digits write. -/
def digitsValue (digits : List Char) : Nat :=
  digits.foldl (fun n c => 10 * n + (c.toNat - 48)) 0

/-- An integer: digits, perhaps after a sign. -/
def readInteger? : List Char → Option Int
  | '-' :: digits => (readInteger? digits).map (-·)
  | '+' :: digits => readInteger? digits
  | digits =>
    if !digits.isEmpty && digits.all Char.isDigit then some (digitsValue digits) else none

/-- A number without its sign. -/
def readUnsigned? (negative : Bool) (cs : List Char) : Option Binary64 :=
  if cs = ['i', 'n', 'f'] then some (.infinite negative)
  else if cs = ['n', 'a', 'n'] then some .nan
  else
    let (whole, cs) := cs.span Char.isDigit
    let (fraction, cs) := match cs with
      | '.' :: cs => cs.span Char.isDigit
      | cs => ([], cs)
    let exponent := match cs with
      | [] => some 0
      | c :: cs => if c = 'e' || c = 'E' then readInteger? cs else none
    if (whole ++ fraction).isEmpty then none
    else exponent.map fun e =>
      ofDecimal negative (digitsValue (whole ++ fraction)) (e - fraction.length)

/-- The number that a text writes. -/
def ofText? (text : String) : Option Binary64 :=
  match text.toList with
  | '-' :: cs => readUnsigned? true cs
  | '+' :: cs => readUnsigned? false cs
  | cs => readUnsigned? false cs

end Furthest.Binary64
