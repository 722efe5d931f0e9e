import Furthest.Script.Builtin

/-!
# Functions that make and word records

Records are made of whatever they are given: one with a field of another type than the record's is
kept as it is (`Value.loose`).
-/

namespace Furthest.Script.Record

open Builtin (Op)

/-- A natural number in a value. -/
def nat? : Val → Option Nat
  | .number (.int n) => if 0 ≤ n then some n.toNat else none
  | _ => none

/-- A result, or what looks like one. -/
def resultOf (status index value furthest expected : Val) : Val :=
  match status, nat? index, furthest, expected.toTexts? with
  | .bool b, some i, .number (.int f), some labels => .result ⟨⟨f, labels⟩, b, i, value⟩
  | _, _, _, _ => .loose .result [status, index, value, furthest, expected]

/-- A position, or what looks like one. -/
def positionOf (offset line column : Val) : Val :=
  match offset, line, column with
  | .number (.int o), .number (.int l), .number (.int c) => .position ⟨o, l, c⟩
  | _, _, _ => .loose .position [offset, line, column]

/-- The outcome of a text that did not match, or what looks like one. -/
def errorOf (furthest expected : Val) : Val :=
  match furthest, expected.toTexts? with
  | .number (.int f), some labels => .error ⟨f, labels⟩
  | _, _ => .loose .error [furthest, expected, .bool false]

/-- How an operator groups. -/
def assocOf : Val → Assoc
  | .text "LEFT" => .left
  | .text "RIGHT" => .right
  | _ => .none

/-- The position of an offset in a text. -/
def fromOffset : Op
  | [.text s, .number (.int n)] => .ok (.position (.ofOffset s.toList n.toNat))
  | _ => refuse (.badArgument "from_offset")

/-- The newer of two results with the report of the older one, if there is one. -/
def merge : Op
  | [newer, .null] => .ok newer
  | [.result newer, .result older] => .ok (.result (newer.merge older))
  | [.result _, older] => .error (.noField older "furthest")
  | [newer, _] => .error (.noField newer "furthest")
  | _ => refuse (.badArgument "merge")

/-- Several labels in words. -/
def formatExpected : Op
  | [v] =>
    match v.toTexts? with
    | some labels => .ok (.text (expectedText labels))
    | none => refuse (.badArgument "format_expected")
  | _ => refuse (.badArgument "format_expected")

/-- Words an outcome by a function of report, text and width. -/
def formatWith (name : String) (word : Report → List Char → Int → String) : Op
  | [.text s, .error r] => .ok (.text (word r s.toList Report.defaultWidth))
  | [.text s, .error r, .number (.int width)] => .ok (.text (word r s.toList width))
  | _ => refuse (.badArgument name)

/-- The functions on records by name. -/
def table : List (String × Op) :=
  [("success", fun
      | [index, v] => .ok (resultOf (.bool true) index v (.int (-1)) (.list []))
      | _ => refuse (.badArgument "success")),
    ("failure", fun
      | [index, label] => .ok (resultOf (.bool false) index .null index (.list [label]))
      | _ => refuse (.badArgument "failure")),
    ("Result", fun
      | [status, index, v, furthest, expected] => .ok (resultOf status index v furthest expected)
      | [status, index, v, furthest] => .ok (resultOf status index v furthest (.list []))
      | _ => refuse (.badArgument "Result")),
    ("Mark", fun
      | [start, v, stop] => .ok (.mark start v stop)
      | _ => refuse (.badArgument "Mark")),
    ("SourcePos", fun
      | [offset] => .ok (positionOf offset (.int 1) (.int 1))
      | [offset, line] => .ok (positionOf offset line (.int 1))
      | [offset, line, column] => .ok (positionOf offset line column)
      | _ => refuse (.badArgument "SourcePos")),
    ("from_offset", fromOffset),
    ("Ok", fun
      | [v] => .ok (.ok v)
      | _ => refuse (.badArgument "Ok")),
    ("Error", fun
      | [furthest, expected] => .ok (errorOf furthest expected)
      | _ => refuse (.badArgument "Error")),
    ("Infix", fun
      | [p, assoc] => .ok (.infixOp p (assocOf assoc))
      | _ => refuse (.badArgument "Infix")),
    ("Prefix", fun
      | [p] => .ok (.prefixOp p)
      | _ => refuse (.badArgument "Prefix")),
    ("Postfix", fun
      | [p] => .ok (.postfixOp p)
      | _ => refuse (.badArgument "Postfix")),
    ("Operator", fun _ => .ok .bareOp),
    ("merge", merge),
    ("format_expected", formatExpected),
    ("format_got", formatWith "format_got" Report.gotText),
    ("format_error", formatWith "format_error" Report.errorText),
    ("is_parser", fun
      | [v] => .ok (.bool v.isParser)
      | _ => refuse (.badArgument "is_parser"))]

end Furthest.Script.Record
