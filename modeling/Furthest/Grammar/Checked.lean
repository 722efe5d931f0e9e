import Furthest.Fault
import Furthest.Grammar.Operators
import Furthest.Machine.World

/-!
# Building parser objects from values

The arguments of a parser come as values, which need not be what the parser needs.  Each function
here checks its arguments in a fixed order, and answers with the object to make or with the fault of
the first unfit argument.  A parser that is put together from others leaves the checks to those, so
a complaint names the basic parser that asked.
-/

namespace Furthest

namespace Checked

variable {φ : Type}

/-- The outcome of building something from values. -/
abbrev Built (φ α : Type) := Except (Fault φ) α

/-! ## Checks of single arguments -/

/-- A parser object, as a part of another parser. -/
def parser (asker : String) : Value φ → Built φ (Grammar φ)
  | .parser r => .ok (.object r)
  | v => .error (.unfit asker .parser v)

/-- Several parser objects. -/
def parsers (asker : String) (vs : List (Value φ)) : Built φ (List (Grammar φ)) :=
  vs.mapM (parser asker)

/-- A function.  A parser object does not stand in for one. -/
def function (asker : String) : Value φ → Built φ (Value φ)
  | .function f => .ok (.function f)
  | v => .error (.unfit asker .function v)

/-- A number; truth values are none. -/
def number (asker : String) : Value φ → Built φ Number
  | .number n => .ok n
  | v => .error (.unfit asker .number v)

/-- A text. -/
def text (asker : String) : Value φ → Built φ String
  | .text s => .ok s
  | v => .error (.unfit asker .text v)

/-- A pattern. -/
def pattern (asker : String) : Value φ → Built φ Pattern
  | .pattern p => .ok p
  | v => .error (.unfit asker .pattern v)

/-- The number or name of a group. -/
def group (asker : String) : Value φ → Built φ GroupName
  | .number (.int n) => .ok (.number n)
  | .text s => .ok (.name s)
  | v => .error (.unfit asker .group v)

/-- An object without a name. -/
def unnamed (g : Grammar φ) : Cell φ := ⟨g, .null⟩

/-- An object that is named by its label. -/
def labelled (g : Grammar φ) (label : String) : Cell φ := ⟨g, .text label⟩

/-! ## Basic parsers -/

/-- A user's function as a parser. -/
def custom (f : Value φ) : Built φ (Cell φ) := do
  return unnamed (.custom (← function "custom" f))

/-- Always fails. -/
def fail (label : Value φ) : Built φ (Cell φ) := do
  return unnamed (.fail (← text "fail" label))

/-- One after another. -/
def seq (ps : List (Value φ)) : Built φ (Cell φ) := do
  return unnamed (.seq (← parsers "seq" ps))

/-- The parts of a choice, of which there has to be one at least. -/
def alternatives : List (Value φ) → Built φ (Grammar φ)
  | [] => .error .noAlternatives
  | p :: ps => do
    let p ← parser "alt" p
    return .alt p (← parsers "alt" ps)

/-- The first that matches. -/
def alt (ps : List (Value φ)) : Built φ (Cell φ) := do
  return unnamed (← alternatives ps)

/-- The bounds of a repetition: the least count is not negative and not above the greatest. -/
def bounds (min max : Number) : Built φ (Limit × Limit) :=
  if min.lt (.int 0) || max.lt min then .error (.badBounds min max)
  else .ok (min.limit, max.limit)

/-- A repetition of a value between two bounds; the greatest count is the least one unless it is
given. -/
def repeated (p min max : Value φ) : Built φ (Grammar φ) := do
  let max := match max with
    | .null => min
    | max => max
  let p ← parser "times" p
  let min ← number "times" min
  let max ← number "times" max
  let (least, most) ← bounds min max
  return .times p least most

/-- A bounded repetition. -/
def times (p min max : Value φ) : Built φ (Cell φ) := do
  return unnamed (← repeated p min max)

/-- A user's function of the value. -/
def map (p f : Value φ) : Built φ (Cell φ) := do
  let p ← parser "map" p
  return unnamed (.mapEnv p (.value (← function "map" f)))

/-- A user's function of the value and the environment. -/
def mapEnv (p f : Value φ) : Built φ (Cell φ) := do
  let p ← parser "map_env" p
  return unnamed (.mapEnv p (.valueAndEnv (← function "map_env" f)))

/-- A user's function that gives the next parser. -/
def chain (p f : Value φ) : Built φ (Cell φ) := do
  let p ← parser "chain" p
  return unnamed (.chainEnv p (.value (← function "chain" f)))

/-- A user's function, also of the environment, that gives the next parser. -/
def chainEnv (p f : Value φ) : Built φ (Cell φ) := do
  let p ← parser "chain_env" p
  return unnamed (.chainEnv p (.valueAndEnv (← function "chain_env" f)))

/-- A parser under a label. -/
def relabel (p label : Value φ) : Built φ (Cell φ) := do
  let p ← parser "desc" p
  let label ← text "desc" label
  return labelled (.relabel p label) label

/-- A value between the offsets of its ends. -/
def mark (p : Value φ) : Built φ (Cell φ) := do
  return unnamed (.mark (← parser "mark" p))

/-- A value between the positions of its ends. -/
def markPositions (p : Value φ) : Built φ (Cell φ) := do
  return unnamed (.markPositions (← parser "lc_mark" p))

/-- A parser in an environment of its own. -/
def subEnv (p derive : Value φ) : Built φ (Cell φ) := do
  let p ← parser "sub_env" p
  return unnamed (.subEnv p (← function "sub_env" derive))

/-- A parser found in the environment. -/
def fromEnv (lookup : Value φ) : Built φ (Cell φ) := do
  return unnamed (.fromEnv (← function "from_env" lookup))

/-- A parser where another does not match. -/
def except (allowed forbidden : Value φ) : Built φ (Cell φ) := do
  let allowed ← parser "except_" allowed
  return unnamed (.except allowed (← parser "except_" forbidden))

/-- A parser that does not consume. -/
def lookAhead (p : Value φ) : Built φ (Cell φ) := do
  return unnamed (.lookAhead (← parser "look_ahead" p))

/-- A parser whose attempts are logged under a label, which is its name too. -/
def trace (p label : Value φ) : Built φ (Cell φ) := do
  return ⟨.trace (← parser "trace" p) label, label⟩

/-! ## Characters and patterns -/

/-- A given text. -/
def string (s : Value φ) : Built φ (Cell φ) := do
  let s ← text "string" s
  return labelled (.string s) ("'" ++ s ++ "'")

/-- A pattern. -/
def regex (p group : Value φ) : Built φ (Cell φ) := do
  let p ← pattern "regex" p
  let group ← Checked.group "regex" group
  let label := "/" ++ p.labelText ++ "/"
  return labelled (.regex p.dropCaret group label) label

section

variable [FunctionText φ]

/-- How a label speaks of a predicate: by its own name, or as it is shown if it has none. -/
def predicateName (f : Value φ) : String :=
  match f with
  | .function g => match FunctionText.name? g with
    | some name => if name.isEmpty then FunctionText.display g else name
    | none => FunctionText.display g
  | f => f.display fun _ => none

/-- The label of a character that passes a user's test. -/
def testLabel (name : String) : String := "a character matching " ++ name

/-- A character that passes a user's test. -/
def satisfy (f : Value φ) : Built φ (Cell φ) := do
  let f ← function "satisfy" f
  return unnamed (.satisfy (.value f) (testLabel (predicateName f)))

/-- A character that passes a user's test in the environment; `name` is how its label speaks of it,
if it is given. -/
def satisfyEnv (f name : Value φ) : Built φ (Cell φ) := do
  let f ← function "satisfy_env" f
  let label ← match name with
    | .text s => pure (if s.isEmpty then predicateName f else s)
    | v =>
      if v.truthy then
        throw (.raised .type
          ("can only concatenate str (not \"" ++ v.fullTypeName ++ "\") to str"))
      else pure (predicateName f)
  return unnamed (.satisfy (.valueAndEnv f) (testLabel label))

/-- The items of a value that can be run through. -/
def items : Value φ → Built φ (List (Value φ))
  | .list vs => .ok vs
  | .tuple vs => .ok vs
  | .text s => .ok (s.toList.map fun c => .text c.toString)
  | .dict entries => .ok (entries.map fun (key, _) => .text key)
  | .bytes s => .ok (s.toList.map fun c => .nat c.toNat)
  | v => .error (.notIterable v)

mutual

/-- The type of what keeps a value out of a set: a list, a dictionary or an operator in it. -/
def unhashable? : Value φ → Option String
  | .list _ => some "list"
  | .dict _ => some "dict"
  | .tuple vs => firstUnhashable? vs
  | .mark start value stop =>
    (unhashable? start).or ((unhashable? value).or (unhashable? stop))
  | .result r => (unhashable? r.value).or (some "list")
  | .ok value => unhashable? value
  | .error _ => some "list"
  | .infixOp .. => some "Infix"
  | .prefixOp _ => some "Prefix"
  | .postfixOp _ => some "Postfix"
  | .bareOp => some "Operator"
  | .loose _ fields => firstUnhashable? fields
  | _ => none

/-- The type of what keeps the first such value of several out of a set. -/
def firstUnhashable? : List (Value φ) → Option String
  | [] => none
  | v :: vs => (unhashable? v).or (firstUnhashable? vs)

end

/-- The texts that make up a set.  A value that cannot be in a set is refused first, then one that
is no text. -/
def members (v : Value φ) : Built φ (List String) := do
  let vs ← items v
  if let some type := firstUnhashable? vs then
    throw (.raised .type ("unhashable type: '" ++ type ++ "'"))
  vs.mapM fun
    | .text s => .ok s
    | v => throw (.raised .type
        ("sequence item 0: expected str instance, " ++ v.fullTypeName ++ " found"))

/-- A character of a set. -/
def oneOf (v : Value φ) : Built φ (Cell φ) := do
  let cs ← members v
  return labelled (.oneOf cs) (Grammar.oneOfLabel cs)

/-- A character outside a set. -/
def noneOf (v : Value φ) : Built φ (Cell φ) := do
  let cs ← members v
  return labelled (.noneOf cs) (Grammar.noneOfLabel cs)

/-- The first that matches of the items of a list. -/
def choice (v : Value φ) : Built φ (Cell φ) :=
  match items v with
  | .ok ps => alt ps
  | .error _ => .error (.raised .type
      ("partser.Prim.alt() argument after * must be an iterable, not " ++ v.fullTypeName))

end

/-- A run of characters that pass a user's test. -/
def takeWhile (f : Value φ) : Built φ (Cell φ) := do
  return unnamed (.takeWhile (.value (← function "take_while" f)))

/-- ASCII digits, so many at least. -/
def digits (min : Value φ) : Built φ (Cell φ) := do
  let min ← number "times" min
  let (least, _) ← bounds min (.float (.infinite false))
  return unnamed (.digits least)

/-! ## Parsers put together from others -/

/-- The first, with the second after it. -/
def skip (p after : Value φ) : Built φ (Cell φ) := do
  let p ← parser "seq" p
  return unnamed (.skip p (← parser "seq" after))

/-- The second, with the first before it. -/
def skipLeft (before p : Value φ) : Built φ (Cell φ) := do
  let before ← parser "seq" before
  return unnamed (.skipLeft before (← parser "seq" p))

/-- A user's function, the last argument, of the values of the parsers before it. -/
def seqMap (args : List (Value φ)) : Built φ (Cell φ) :=
  match args.getLast? with
  | none => throw (.raised .value "not enough values to unpack (expected at least 1, got 0)")
  | some f => do
    let f ← function "seq_map" f
    return unnamed (.seqMap (← parsers "seq" args.dropLast) f)

/-- Any number. -/
def many (p : Value φ) : Built φ (Cell φ) := do
  return unnamed (.many (← parser "times" p))

/-- One or more. -/
def many1 (p : Value φ) : Built φ (Cell φ) := do
  return unnamed (.many1 (← parser "times" p))

/-- Any number, without their values. -/
def skipMany (p : Value φ) : Built φ (Cell φ) := do
  return unnamed (.skipMany (← parser "times" p))

/-- One or more, without their values. -/
def skipMany1 (p : Value φ) : Built φ (Cell φ) := do
  return unnamed (.skipMany1 (← parser "times" p))

/-- A parser between two others. -/
def between (opening closing p : Value φ) : Built φ (Cell φ) := do
  let opening ← parser "seq" opening
  let p ← parser "seq" p
  return unnamed (.between opening (← parser "seq" closing) p)

/-- A parser, or a value in its place. -/
def option (v p : Value φ) : Built φ (Cell φ) := do
  return unnamed (.option v (← parser "alt" p))

/-- A parser or nothing, without the value. -/
def optional (p : Value φ) : Built φ (Cell φ) := do
  return unnamed (.optional (← parser "map" p))

/-- The parts of a list with separators. -/
def listParts (p sep : Value φ) : Built φ (Grammar φ × Grammar φ) := do
  let sep ← parser "seq" sep
  return (← parser "seq" p, sep)

/-- One or more, with separators between. -/
def sepBy1 (p sep : Value φ) : Built φ (Cell φ) := do
  let (p, sep) ← listParts p sep
  return unnamed (.sepBy1 p sep)

/-- Any number, with separators between. -/
def sepBy (p sep : Value φ) : Built φ (Cell φ) := do
  let (p, sep) ← listParts p sep
  return unnamed (.sepBy p sep)

/-- Any number, with a separator after each. -/
def endBy (p sep : Value φ) : Built φ (Cell φ) := do
  let p ← parser "seq" p
  return unnamed (.endBy p (← parser "seq" sep))

/-- Any number, with separators between and perhaps one at the end. -/
def sepEndBy (p sep : Value φ) : Built φ (Cell φ) := do
  let (p, sep) ← listParts p sep
  return unnamed (.sepEndBy p sep)

/-- Operands with operators between, grouped to the left. -/
def chainLeft (p op : Value φ) : Built φ (Cell φ) := do
  let (p, op) ← listParts p op
  return unnamed (.chainLeft p op)

/-- Operands with operators between, grouped to the right. -/
def chainRight (p op : Value φ) : Built φ (Cell φ) := do
  let (p, op) ← listParts p op
  return unnamed (.chainRight p op)

/-- Nothing, where a parser does not match. -/
def notFollowedBy (p : Value φ) : Built φ (Cell φ) := do
  return unnamed (.notFollowedBy (← parser "except_" p))

/-- Any number, up to the first match of another. -/
def manyTill (p stop : Value φ) : Built φ (Cell φ) := do
  let p ← parser "except_" p
  return unnamed (.manyTill p (← parser "except_" stop))

/-! ## Operator tables -/

/-- The operators of a row by kind, none of them checked yet. -/
structure RawRow (φ : Type) where
  prefixes : List (Value φ) := []
  postfixes : List (Value φ) := []
  leftInfixes : List (Value φ) := []
  rightInfixes : List (Value φ) := []
  plainInfixes : List (Value φ) := []

/-- Sorts the operators of a row by kind. -/
def RawRow.ofValues : List (Value φ) → Built φ (RawRow φ)
  | [] => .ok {}
  | v :: vs =>
    match v with
    | .infixOp p .left => do
      let row ← ofValues vs
      return { row with leftInfixes := p :: row.leftInfixes }
    | .infixOp p .right => do
      let row ← ofValues vs
      return { row with rightInfixes := p :: row.rightInfixes }
    | .infixOp p .none => do
      let row ← ofValues vs
      return { row with plainInfixes := p :: row.plainInfixes }
    | .prefixOp p => do
      let row ← ofValues vs
      return { row with prefixes := p :: row.prefixes }
    | .postfixOp p => do
      let row ← ofValues vs
      return { row with postfixes := p :: row.postfixes }
    | v => .error (.notOperator v)

/-- One level: the row's unary operators are checked first, then the term, then its binary ones. -/
def level (row : RawRow φ) (term : Built φ (Grammar φ)) : Built φ (Grammar φ) := do
  let prefixes ← parsers "alt" row.prefixes
  let postfixes ← parsers "alt" row.postfixes
  let term ← term
  let leftInfixes ← parsers "alt" row.leftInfixes
  let rightInfixes ← parsers "alt" row.rightInfixes
  let plainInfixes ← parsers "alt" row.plainInfixes
  return .level { prefixes, postfixes, leftInfixes, rightInfixes, plainInfixes } term

section

variable [FunctionText φ]

/-- The levels of the rows that are left. -/
def levels (term : Grammar φ) : List (Value φ) → Built φ (Grammar φ)
  | [] => .ok term
  | row :: rows => do
    let raw ← RawRow.ofValues (← items row)
    levels (← level raw (.ok term)) rows

/-- The parser of an operator table.  An empty table leaves the term as it is, so there is nothing
to build and nothing to check. -/
def operatorTable (table term : Value φ) : Built φ (Option (Cell φ)) := do
  match ← items table with
  | [] => return none
  | row :: rows =>
    let raw ← RawRow.ofValues (← items row)
    let first ← level raw (parser "seq" term)
    return some (unnamed (← levels first rows))

end

end Checked

end Furthest
