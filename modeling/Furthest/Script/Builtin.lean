import Furthest.Script.Fault

/-!
# Functions on plain values

The named functions of the script language that have nothing to do with parsing: arithmetic, texts,
containers, comparison.  Each refuses arguments of other types than it is made for; a truth value is
not an integer here.
-/

namespace Furthest.Script.Builtin

/-- A function from arguments to a value. -/
abbrev Op := List Val → Pure Val

/-! ## Arithmetic -/

/-- Adds integers, or appends texts or lists. -/
def add : Op
  | [.number (.int a), .number (.int b)] => .ok (.int (a + b))
  | [.text a, .text b] => .ok (.text (a ++ b))
  | [.list a, .list b] => .ok (.list (a ++ b))
  | _ => refuse (.badArgument "add")

/-- Subtracts integers. -/
def sub : Op
  | [.number (.int a), .number (.int b)] => .ok (.int (a - b))
  | _ => refuse (.badArgument "sub")

/-- Multiplies integers. -/
def mul : Op
  | [.number (.int a), .number (.int b)] => .ok (.int (a * b))
  | _ => refuse (.badArgument "mul")

/-- Divides integers, rounding down. -/
def div : Op
  | [.number (.int a), .number (.int b)] =>
    if b = 0 then refuse .divisionByZero else .ok (.int (Int.fdiv a b))
  | _ => refuse (.badArgument "div")

/-- Negates an integer. -/
def neg : Op
  | [.number (.int a)] => .ok (.int (-a))
  | _ => refuse (.badArgument "neg")

/-- Whether an integer is less than another. -/
def lt : Op
  | [.number (.int a), .number (.int b)] => .ok (.bool (decide (a < b)))
  | _ => refuse (.badArgument "lt")

/-- What can be compared: values of different kinds differ. -/
inductive Atom where
  | null
  | bool (b : Bool)
  | int (n : Int)
  | text (s : String)
  deriving DecidableEq

/-- A value that can be compared. -/
def atom? : Val → Option Atom
  | .null => some .null
  | .bool b => some (.bool b)
  | .number (.int n) => some (.int n)
  | .text s => some (.text s)
  | _ => none

/-- Whether two values have the same kind and are the same. -/
def eq : Op
  | [a, b] =>
    match atom? a, atom? b with
    | some a, some b => .ok (.bool (decide (a = b)))
    | _, _ => refuse (.badArgument "eq")
  | _ => refuse (.badArgument "eq")

/-! ## Texts -/

/-- The length of a text or a list. -/
def len : Op
  | [.text s] => .ok (.nat s.length)
  | [.list vs] => .ok (.nat vs.length)
  | _ => refuse (.badArgument "len")

/-- An ASCII text in upper case. -/
def toUpper : Op
  | [.text s] =>
    if s.toList.all (fun c => decide (c.toNat < 128)) then
      .ok (.text (String.ofList (s.toList.map Char.toUpper)))
    else refuse (.badArgument "to_upper")
  | _ => refuse (.badArgument "to_upper")

/-- The natural number that digits write. -/
def numeral? (digits : List Char) : Option Nat :=
  if !digits.isEmpty && digits.all Char.isDigit then some (Regex.decimalValue digits) else none

/-- The integer that a text writes: digits, perhaps after a minus sign. -/
def integer? : List Char → Option Int
  | '-' :: digits => (numeral? digits).map fun n => -(n : Int)
  | digits => (numeral? digits).map fun n => (n : Int)

/-- The integer that a text writes. -/
def int : Op
  | [.text s] =>
    match integer? s.toList with
    | some n => .ok (.int n)
    | none => refuse .badNumeral
  | _ => refuse (.badArgument "int")

/-- Texts one after another. -/
def join : Op
  | [v] =>
    match v.toTexts? with
    | some texts => .ok (.text ("".intercalate texts))
    | none => refuse (.badArgument "join")
  | _ => refuse (.badArgument "join")

/-- Whether a text occurs in another. -/
def occursIn (needle : List Char) : List Char → Bool
  | [] => needle.isEmpty
  | c :: cs => needle.isPrefixOf (c :: cs) || occursIn needle cs

/-- Whether a text occurs in another. -/
def isIn : Op
  | [.text needle, .text s] => .ok (.bool (occursIn needle.toList s.toList))
  | _ => refuse (.badArgument "in")

/-! ## Containers -/

/-- An item of several, by its number from `0`. -/
def item? (vs : List Val) : Val → Option Val
  | .number (.int k) => if 0 ≤ k then vs[k.toNat]? else none
  | _ => none

/-- An entry of a container; `none` for what is no container. -/
def entry? : Val → Val → Option (Option Val)
  | .text s, k => some (item? (s.toList.map fun c => .text c.toString) k)
  | .list vs, k => some (item? vs k)
  | .tuple vs, k => some (item? vs k)
  | .dict entries, .text key => some (entries.lookup key)
  | .dict _, _ => some none
  | _, _ => none

/-- An entry of a container, or a given value where there is none. -/
def get : Op
  | [container, key] =>
    match entry? container key with
    | some (some v) => .ok v
    | some none => refuse .missingEntry
    | none => refuse (.badArgument "get")
  | [container, key, default] =>
    match entry? container key with
    | some v => .ok (v.getD default)
    | none => refuse (.badArgument "get")
  | _ => refuse (.badArgument "get")

/-- Entries with one more; an existing key keeps its place. -/
def insert (key : String) (v : Val) : List (String × Val) → List (String × Val)
  | [] => [(key, v)]
  | (k, old) :: entries =>
    if k = key then (k, v) :: entries else (k, old) :: insert key v entries

/-- Entries by pairs: later values win, the first place of a key stays. -/
def entriesOf (pairs : List (String × Val)) : List (String × Val) :=
  pairs.foldl (fun entries (k, v) => insert k v entries) []

/-- A dictionary with one more entry. -/
def put : Op
  | [.dict entries, .text key, v] => .ok (.dict (insert key v entries))
  | _ => refuse (.badArgument "put")

/-- A key with its value. -/
def pair? : Val → Option (String × Val)
  | .list [.text key, v] => some (key, v)
  | .tuple [.text key, v] => some (key, v)
  | _ => none

/-- A dictionary of a list of pairs. -/
def dict : Op
  | [.list pairs] =>
    match pairs.mapM pair? with
    | some pairs => .ok (.dict (entriesOf pairs))
    | none => refuse (.badArgument "dict")
  | _ => refuse (.badArgument "dict")

/-- A field of a record. -/
def field? : Val → String → Option Val
  | .result r, "status" => some (.bool r.status)
  | .result r, "index" => some (.nat r.index)
  | .result r, "value" => some r.value
  | .result r, "furthest" => some (.int r.furthest)
  | .result r, "expected" => some (.ofTexts r.expected)
  | .mark start _ _, "start" => some start
  | .mark _ v _, "value" => some v
  | .mark _ _ stop, "end" => some stop
  | .position p, "offset" => some (.int p.offset)
  | .position p, "line" => some (.int p.line)
  | .position p, "column" => some (.int p.column)
  | .ok v, "value" => some v
  | .ok _, "ok" => some (.bool true)
  | .error r, "furthest" => some (.int r.furthest)
  | .error r, "expected" => some (.ofTexts r.expected)
  | .error _, "ok" => some (.bool false)
  | _, _ => none

/-- A field of a record. -/
def attr : Op
  | [v, .text name] =>
    match field? v name with
    | some v => .ok v
    | none => refuse (.badArgument "attr")
  | _ => refuse (.badArgument "attr")

/-! ## Others -/

/-- The kinds of errors that a script can raise. -/
def raisable : List FaultKind := [.value, .type, .runtime, .zeroDivision]

/-- Raises an error. -/
def raise : Op
  | [.text kind, .text message] =>
    match raisable.find? fun k => k.label == kind with
    | some kind => .error (.raised kind message)
    | none => refuse (.badArgument "raise")
  | _ => refuse (.badArgument "raise")

/-- The argument itself. -/
def id : Op
  | [v] => .ok v
  | _ => refuse (.badArgument "id")

/-- The last argument. -/
def last : Op := fun vs => .ok (vs.getLast?.getD .null)

/-- The plain functions by name. -/
def table : List (String × Op) :=
  [("add", add), ("sub", sub), ("mul", mul), ("div", div), ("neg", neg), ("lt", lt), ("eq", eq),
    ("len", len), ("to_upper", toUpper), ("int", int), ("join", join), ("in", isIn),
    ("get", get), ("put", put), ("dict", dict), ("attr", attr), ("raise", raise), ("id", id),
    ("list", fun vs => .ok (.list vs)), ("tuple", fun vs => .ok (.tuple vs)), ("last", last)]

end Furthest.Script.Builtin
