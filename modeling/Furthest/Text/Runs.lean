/-!
# Sets of code points as run lengths

A set of code points is written as the lengths of its gaps and runs in turn: how many code points
it leaves out, how many it takes, and so on from `0`.
-/

namespace Furthest.Text

/-- Lengths of alternating gaps and runs of code points. -/
abbrev Runs := List Nat

namespace Runs

/-- Whether a code point lies in one of the runs. -/
def contains : Runs → Nat → Bool
  | gap :: run :: rest, n =>
    if n < gap then false
    else if n < gap + run then true
    else contains rest (n - (gap + run))
  | _, _ => false

end Runs

end Furthest.Text
