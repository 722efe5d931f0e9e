import Furthest.Text.Runs

/-!
# White space

The characters which count as white space (Unicode 14.0): the separators, and the controls whose
bidirectional class is a separator or white space.
-/

namespace Furthest.Text

/-- White space, in run lengths. -/
def blankRuns : Runs :=
  [9, 5, 14, 5, 100, 1, 26, 1, 5599, 1, 2431, 11, 29, 2, 5, 1, 47, 1, 4000, 1]

/-- Whether a character is white space. -/
def isBlank (c : Char) : Bool := blankRuns.contains c.toNat

end Furthest.Text
