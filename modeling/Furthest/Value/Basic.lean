import Furthest.Number.Basic
import Furthest.Position
import Furthest.Regex.Pattern
import Furthest.Result

/-!
# Values

What parsers produce and pass on.  `φ` is the type of functions, which whoever drives the parsers
provides; a parser object is a value too and appears by its reference.
-/

namespace Furthest

/-- A reference to a parser object. -/
abbrev Ref := Nat

/-- How the operators of one row group. -/
inductive Assoc where
  | none
  | left
  | right
  deriving DecidableEq, Inhabited

/-- The records that may be filled without regard to what their fields hold. -/
inductive RecordKind where
  | result
  | mark
  | position
  | error
  deriving DecidableEq, Inhabited

/-- A value. -/
inductive Value (φ : Type) where
  | null
  | bool (b : Bool)
  | number (n : Number)
  | text (s : String)
  /-- Bytes, each given as the character of the same number. -/
  | bytes (s : String)
  | list (items : List (Value φ))
  | tuple (items : List (Value φ))
  /-- Entries in the order in which their keys came. -/
  | dict (entries : List (String × Value φ))
  | pattern (p : Pattern)
  | position (p : Position)
  /-- A value with where it started and ended. -/
  | mark (start value stop : Value φ)
  | result (r : Result (Value φ))
  /-- The outcome of a text that matched. -/
  | ok (value : Value φ)
  /-- The outcome of a text that did not match. -/
  | error (report : Report)
  | infixOp (parser : Value φ) (assoc : Assoc)
  | prefixOp (parser : Value φ)
  | postfixOp (parser : Value φ)
  /-- An operator of no kind. -/
  | bareOp
  | parser (r : Ref)
  | function (f : φ)
  /-- A record with a field that is not of the record's type. -/
  | loose (kind : RecordKind) (fields : List (Value φ))

/-- What has to be known about functions: how they are shown. -/
class FunctionText (φ : Type) where
  /-- The name of the type of a function. -/
  typeName : φ → String
  /-- The function's own name, if it has one. -/
  name? : φ → Option String
  /-- How the function is shown. -/
  display : φ → String

namespace Value

variable {φ : Type}

instance : Inhabited (Value φ) := ⟨.null⟩

/-- An integer. -/
abbrev int (n : Int) : Value φ := .number (.int n)

/-- A natural number. -/
abbrev nat (n : Nat) : Value φ := .number (.int n)

/-- Whether a value counts as true: all do but nothing, false, zero and what is empty. -/
def truthy : Value φ → Bool
  | .null => false
  | .bool b => b
  | .number (.int n) => n != 0
  | .number (.float x) => !x.isZero
  | .text s => !s.isEmpty
  | .bytes s => !s.isEmpty
  | .list items => !items.isEmpty
  | .tuple items => !items.isEmpty
  | .dict entries => !entries.isEmpty
  | _ => true

/-- Whether a value is a parser object. -/
def isParser : Value φ → Bool
  | .parser _ => true
  | _ => false

/-- Texts as a list value. -/
def ofTexts (texts : List String) : Value φ := .list (texts.map .text)

/-- The items of a list value, if all are texts. -/
def toTexts? : Value φ → Option (List String)
  | .list items => items.mapM fun
    | .text s => some s
    | _ => none
  | _ => none

end Value

/-- What parsing a whole text comes to. -/
inductive Outcome (φ : Type) where
  | ok (value : Value φ)
  | error (report : Report)

/-- An outcome as a value. -/
def Outcome.toValue {φ : Type} : Outcome φ → Value φ
  | .ok v => .ok v
  | .error r => .error r

end Furthest
