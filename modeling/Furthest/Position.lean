/-!
# Source positions

An offset into a text together with its line and column, both counted from 1.  Only `'\n'` ends a
line.
-/

namespace Furthest

/-- A character offset with its 1-based line and column. -/
structure Position where
  offset : Int
  line : Int
  column : Int
  deriving DecidableEq, Inhabited

namespace Position

/-- The offset just after the last line break in a text, `0` when it has none. -/
def lineStart (text : List Char) : Nat :=
  text.length - (text.reverse.takeWhile (· != '\n')).length

/-- The position of an offset: the line breaks before it give the line, and the distance from the
last of them the column. -/
def ofOffset (text : List Char) (offset : Nat) : Position where
  offset := offset
  line := (text.take offset).count '\n' + 1
  column := (offset : Int) - lineStart (text.take offset) + 1

/-- The wording of a position in messages. -/
def describe (p : Position) : String :=
  "line " ++ toString p.line ++ ", column " ++ toString p.column

end Position

end Furthest
