import Furthest.Value.Basic
import Furthest.Text.Quoted

/-!
# How values are shown

`display` shows a value as part of a larger text, `describe` as a text of its own: the two differ
for texts, which `describe` leaves unquoted, and for positions.  A parser object is shown by its
name, which may change, so both are given the names that hold at the time.
-/

namespace Furthest.Value

variable {φ : Type} [FunctionText φ]

/-- The name of the type of a value. -/
def typeName : Value φ → String
  | .null => "NoneType"
  | .bool _ => "bool"
  | .number (.int _) => "int"
  | .number (.float _) => "float"
  | .text _ => "str"
  | .bytes _ => "bytes"
  | .list _ => "list"
  | .tuple _ => "tuple"
  | .dict _ => "dict"
  | .pattern _ => "Pattern"
  | .position _ | .loose .position _ => "SourcePos"
  | .mark .. | .loose .mark _ => "Mark"
  | .result _ | .loose .result _ => "Result"
  | .ok _ => "Ok"
  | .error _ | .loose .error _ => "Error"
  | .infixOp .. => "Infix"
  | .prefixOp _ => "Prefix"
  | .postfixOp _ => "Postfix"
  | .bareOp => "Operator"
  | .parser _ => "Parser"
  | .function f => FunctionText.typeName f

/-- The name of the type of a value with the module it belongs to, where that has one. -/
def fullTypeName : Value φ → String
  | .pattern _ => "re.Pattern"
  | v => v.typeName

/-- How a truth value is shown. -/
def boolText (b : Bool) : String := if b then "True" else "False"

/-- The text of fields or items between brackets. -/
def enclosed (opening : String) (items : List String) (closing : String) : String :=
  opening ++ ", ".intercalate items ++ closing

/-- How a list of texts is shown. -/
def textsDisplay (texts : List String) : String := enclosed "[" (texts.map Text.quoted) "]"

/-- The names of a record's fields. -/
def fieldNames : RecordKind → List String
  | .result => ["status", "index", "value", "furthest", "expected"]
  | .mark => ["start", "value", "end"]
  | .position => ["offset", "line", "column"]
  | .error => ["furthest", "expected", "ok"]

/-- A record with its fields. -/
def recordText (name : String) (fields : List (String × String)) : String :=
  enclosed (name ++ "(") (fields.map fun (k, v) => k ++ "=" ++ v) ")"

/-- How an associativity is shown. -/
def assocText : Assoc → String
  | .none => "<Assoc.NONE: 1>"
  | .left => "<Assoc.LEFT: 2>"
  | .right => "<Assoc.RIGHT: 3>"

/-- How a parser object of a given name is shown. -/
def parserText : Option String → String
  | some name => "<Parser " ++ name ++ ">"
  | none => "<Parser at 0x?>"

mutual

/-- How a value is shown inside another text. -/
def display (names : Ref → Option String) : Value φ → String
  | .null => "None"
  | .bool b => boolText b
  | .number n => n.toText
  | .text s => Text.quoted s
  | .bytes s => Text.quotedBytes s
  | .list items => enclosed "[" (displayAll names items) "]"
  | .tuple items =>
    match displayAll names items with
    | [item] => "(" ++ item ++ ",)"
    | items => enclosed "(" items ")"
  | .dict entries => enclosed "\x7b" (displayEntries names entries) "\x7d"
  | .pattern p => p.display
  | .position p =>
    recordText "SourcePos"
      [("offset", toString p.offset), ("line", toString p.line), ("column", toString p.column)]
  | .mark start value stop =>
    recordText "Mark" [("start", display names start), ("value", display names value),
      ("end", display names stop)]
  | .result r =>
    recordText "Result" [("status", boolText r.status), ("index", toString r.index),
      ("value", display names r.value), ("furthest", toString r.furthest),
      ("expected", textsDisplay r.expected)]
  | .ok value => recordText "Ok" [("value", display names value), ("ok", boolText true)]
  | .error r =>
    recordText "Error" [("furthest", toString r.furthest), ("expected", textsDisplay r.expected),
      ("ok", boolText false)]
  | .infixOp inner assoc =>
    recordText "Infix" [("parser", display names inner), ("assoc", assocText assoc)]
  | .prefixOp inner => recordText "Prefix" [("parser", display names inner)]
  | .postfixOp inner => recordText "Postfix" [("parser", display names inner)]
  | .bareOp => "Operator()"
  | .parser r => parserText (names r)
  | .function f => FunctionText.display f
  | .loose kind fields =>
    recordText (typeName (.loose kind fields : Value φ))
      ((fieldNames kind).zip (displayAll names fields))

/-- How several values are shown. -/
def displayAll (names : Ref → Option String) : List (Value φ) → List String
  | [] => []
  | v :: vs => display names v :: displayAll names vs

/-- How the entries of a dictionary are shown. -/
def displayEntries (names : Ref → Option String) : List (String × Value φ) → List String
  | [] => []
  | (key, v) :: rest => (Text.quoted key ++ ": " ++ display names v) :: displayEntries names rest

end

/-- How a value is shown as a text of its own. -/
def describe (names : Ref → Option String) : Value φ → String
  | .text s => s
  | .position p => p.describe
  | .loose .position [_, line, column] =>
    "line " ++ describe names line ++ ", column " ++ describe names column
  | v => display names v

end Furthest.Value
