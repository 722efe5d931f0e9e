import Furthest.Result

/-!
# Messages about failures

A report in words: what was expected, where, and what stood there instead.
-/

namespace Furthest

/-- Several labels in words; a single one stands for itself. -/
def expectedText : List String → String
  | [label] => label
  | labels => "one of " ++ ", ".intercalate labels

/-- A place in a text of the given length, where a negative one counts from the end. -/
def placeIn (length : Nat) (place : Int) : Nat :=
  (if place < 0 then place + length else place).toNat

/-- The characters from one place to another; negative places count from the end of the text. -/
def excerpt (text : List Char) (start stop : Int) : List Char :=
  (text.take (placeIn text.length stop)).drop (placeIn text.length start)

namespace Report

/-- Where a report points and what the text holds there: at most `width` characters, followed by
dots when there are more. -/
def gotText (r : Report) (text : List Char) (width : Int) : String :=
  let place := " at character " ++ toString r.furthest
  if (text.length : Int) ≤ r.furthest then place ++ ", got end of input"
  else
    let actual := String.ofList (excerpt text r.furthest (r.furthest + width))
    let dots := if width < (text.length : Int) - r.furthest then "..." else ""
    place ++ ", got '" ++ actual ++ dots ++ "'"

/-- The characters of the text that a message quotes. -/
def defaultWidth : Int := 10

/-- A report in one line. -/
def errorText (r : Report) (text : List Char) (width : Int) : String :=
  "expected " ++ expectedText r.expected ++ r.gotText text width

end Report

end Furthest
