import Furthest.Grammar.Checked
import Furthest.Machine.Run
import Furthest.Script.Record

/-!
# The functions of the script language

Every function that a script can apply by name.  Some make a parser object, some use one, and the
rest work on plain values.  `find?` looks a name up in all the tables.
-/

namespace Furthest.Script

/-- A named function. -/
abbrev Primitive := Tools Function → List Val → Machine Function Val

namespace Primitive

/-- A function without effects. -/
def ofOp (op : Builtin.Op) : Primitive := fun _ args =>
  match op args with
  | .ok v => pure v
  | .error cause => Machine.fault cause

/-- Makes the object that was built, or halts with its fault. -/
def make (built : Checked.Built Function (Cell Function)) : Machine Function Val :=
  match built with
  | .ok c => return .parser (← Machine.allocate c)
  | .error cause => Machine.fault cause

/-- The value of a check, or its fault. -/
def demand {α : Type} (checked : Checked.Built Function α) : Machine Function α :=
  match checked with
  | .ok a => pure a
  | .error cause => Machine.fault cause

/-- Arguments that a function does not take. -/
def refuseArgs (name : String) : Machine Function Val :=
  Machine.fault (ScriptFault.badArgument name).toFault

end Primitive

open Primitive

/-! ## Functions that make parser objects -/

/-- A function that builds an object of its arguments, or takes another number of them. -/
abbrev Constructor := List Val → Option (Checked.Built Function (Cell Function))

/-- A constructor of one argument. -/
def unary (f : Val → Checked.Built Function (Cell Function)) : Constructor
  | [a] => some (f a)
  | _ => none

/-- A constructor of two arguments. -/
def binary (f : Val → Val → Checked.Built Function (Cell Function)) : Constructor
  | [a, b] => some (f a b)
  | _ => none

/-- A constructor of three arguments. -/
def ternary (f : Val → Val → Val → Checked.Built Function (Cell Function)) : Constructor
  | [a, b, c] => some (f a b c)
  | _ => none

/-- A constructor without arguments. -/
def nullary (c : Cell Function) : Constructor
  | [] => some (.ok c)
  | _ => none

/-- A character class with its label as its name. -/
def namedClass (g : Grammar Function) (label : String) : Constructor :=
  nullary (Checked.labelled g label)

/-- The constructors of basic parsers by name. -/
def basicConstructors : List (String × Constructor) :=
  [("custom", unary Checked.custom),
    ("succeed", unary fun v => .ok (Checked.unnamed (.succeed v))),
    ("pure", unary fun v => .ok (Checked.unnamed (.succeed v))),
    ("fail", unary Checked.fail),
    ("seq", fun ps => some (Checked.seq ps)),
    ("alt", fun ps => some (Checked.alt ps)),
    ("times", fun
      | [p, min] => some (Checked.times p min .null)
      | [p, min, max] => some (Checked.times p min max)
      | _ => none),
    ("map", binary Checked.map),
    ("map_env", binary Checked.mapEnv),
    ("chain", binary Checked.chain),
    ("chain_env", binary Checked.chainEnv),
    ("desc", binary Checked.relabel),
    ("mark", unary Checked.mark),
    ("lc_mark", unary Checked.markPositions),
    ("sub_env", binary Checked.subEnv),
    ("from_env", unary Checked.fromEnv),
    ("except_", binary Checked.except),
    ("look_ahead", unary Checked.lookAhead),
    ("trace", binary Checked.trace)]

/-- The constructors of parsers of characters by name. -/
def characterConstructors : List (String × Constructor) :=
  [("string", unary Checked.string),
    ("char", unary Checked.string),
    ("regex", fun
      | [p] => some (Checked.regex p (.int 0))
      | [p, group] => some (Checked.regex p group)
      | _ => none),
    ("satisfy", unary Checked.satisfy),
    ("satisfy_env", fun
      | [f] => some (Checked.satisfyEnv f .null)
      | [f, name] => some (Checked.satisfyEnv f name)
      | _ => none),
    ("one_of", unary Checked.oneOf),
    ("none_of", unary Checked.noneOf),
    ("take_while", unary Checked.takeWhile),
    ("spaces", nullary (Checked.unnamed .spaces)),
    ("space", namedClass .space "space"),
    ("newline", namedClass .newline "lf new-line"),
    ("upper", namedClass .upper "uppercase letter"),
    ("lower", namedClass .lower "lowercase letter"),
    ("alpha_num", namedClass .letterOrNumeral "letter or digit"),
    ("letter", namedClass .letter "letter"),
    ("digit", namedClass .digit "digit"),
    ("digits", fun
      | [] => some (Checked.digits (.int 1))
      | [min] => some (Checked.digits min)
      | _ => none)]

/-- The constructors of parsers put together from others by name. -/
def derivedConstructors : List (String × Constructor) :=
  [("skip", binary Checked.skip),
    ("seq_map", fun args => some (Checked.seqMap args)),
    ("choice", unary Checked.choice),
    ("count", binary fun n p => Checked.times p n n),
    ("many", unary Checked.many),
    ("many1", unary Checked.many1),
    ("skip_many", unary Checked.skipMany),
    ("skip_many1", unary Checked.skipMany1),
    ("between", ternary Checked.between),
    ("option", binary Checked.option),
    ("option_maybe", unary (Checked.option .null)),
    ("optional", unary Checked.optional),
    ("sep_by", binary Checked.sepBy),
    ("sep_by1", binary Checked.sepBy1),
    ("end_by", binary Checked.endBy),
    ("sep_end_by", binary Checked.sepEndBy),
    ("chainl1", binary Checked.chainLeft),
    ("chainr1", binary Checked.chainRight),
    ("not_followed_by", unary Checked.notFollowedBy),
    ("many_till", binary Checked.manyTill)]

/-- A method: its first argument has to be a parser object already. -/
def method (field : String) (f : Constructor) : Constructor
  | .parser r :: args => f (.parser r :: args)
  | v :: _ => some (.error (.noField v field))
  | [] => none

/-- An operator between parsers: its first operand has to be one already. -/
def operator (symbol : String) (f : Val → Val → Checked.Built Function (Cell Function)) :
    Constructor
  | [.parser r, b] => some (f (.parser r) b)
  | [a, b] => some (.error (.raised .type
      ("unsupported operand type(s) for " ++ symbol ++ ": '" ++ a.typeName ++ "' and '" ++
        b.typeName ++ "'")))
  | _ => none

/-- A comparison sign between parsers.  Where only the second operand is a parser, the mirrored sign
stands between the two the other way round. -/
def comparison (symbol : String)
    (f mirrored : Val → Val → Checked.Built Function (Cell Function)) : Constructor
  | [.parser r, b] => some (f (.parser r) b)
  | [a, .parser r] => some (mirrored (.parser r) a)
  | [a, b] => some (.error (.raised .type
      ("'" ++ symbol ++ "' not supported between instances of '" ++ a.typeName ++ "' and '" ++
        b.typeName ++ "'")))
  | _ => none

/-- The methods and operators of parser objects that make new ones, by name. -/
def methodConstructors : List (String × Constructor) :=
  [("p.bind", method "bind" (binary Checked.chain)),
    ("p.map", method "map" (binary Checked.map)),
    ("p.label", method "label" (binary Checked.relabel)),
    ("p.times", method "times" fun
      | [p, min] => some (Checked.times p min .null)
      | [p, min, max] => some (Checked.times p min max)
      | _ => none),
    ("p.many", method "many" (unary Checked.many)),
    ("p.mark", method "mark" (unary Checked.mark)),
    ("|", operator "|" fun a b => Checked.alt [a, b]),
    ("&", operator "&" fun a b => Checked.seq [a, b]),
    (">", comparison ">" Checked.skipLeft Checked.skip),
    ("<", comparison "<" Checked.skip Checked.skipLeft),
    (">>", operator ">>" Checked.chain)]

/-- All constructors by name. -/
def constructors : List (String × Constructor) :=
  basicConstructors ++ characterConstructors ++ derivedConstructors ++ methodConstructors

/-- Applies a constructor and makes its object. -/
def construct (name : String) (f : Constructor) : Primitive := fun _ args =>
  match f args with
  | some built => make built
  | none => refuseArgs name

/-! ## Functions that use parser objects -/

/-- The object of a checked parser argument. -/
def object (asker : String) : Val → Machine Function Ref
  | .parser r => pure r
  | v => Machine.fault (.unfit asker .parser v)

/-- Parses a whole text with a value, once both are checked. -/
def parseWith (t : Tools Function) (p text env : Val) : Machine Function (Outcome Function) := do
  let r ← object "parse" p
  let s ← demand (Checked.text "parse" text)
  (Machine.host t).parse r s.toList env

/-- Parses a whole text. -/
def parse : Primitive
  | t, [p, text] => do return (← parseWith t p text .null).toValue
  | t, [p, text, env] => do return (← parseWith t p text env).toValue
  | _, _ => refuseArgs "parse"

/-- An outcome as a pair of a value and an error, one of which is nothing. -/
def pairOf : Outcome Function → Val
  | .ok v => .tuple [v, .null]
  | .error r => .tuple [.null, .error r]

/-- Parses a whole text and gives value and error. -/
def runParser : Primitive
  | t, [p, text] => do return pairOf (← parseWith t p text .null)
  | t, [p, text, env] => do return pairOf (← parseWith t p text env)
  | _, _ => refuseArgs "run_parser"

/-- The value of an outcome; a text that did not match is a fault. -/
def valueOrFault (text : Val) : Outcome Function → Machine Function Val
  | .ok v => pure v
  | .error r => Machine.fault (.mismatch r text.textOrEmpty)

/-- Parses a whole text with an object; anything else has no such method. -/
def parseMethod (t : Tools Function) (p text env : Val) :
    Machine Function (Outcome Function) :=
  match p with
  | .parser _ => parseWith t p text env
  | v => Machine.fault (.noField v "parse")

/-- Parses a whole text and gives the value. -/
def parseOrRaise : Primitive
  | t, [p, text] => do valueOrFault text (← parseMethod t p text .null)
  | t, [p, text, env] => do valueOrFault text (← parseMethod t p text env)
  | _, _ => refuseArgs "parse_or_raise"

/-- Parses a whole text, as a method. -/
def parseAsMethod : Primitive
  | t, [p, text] => do return (← parseMethod t p text .null).toValue
  | t, [p, text, env] => do return (← parseMethod t p text env).toValue
  | _, _ => refuseArgs "p.parse"

/-- A parser that a function makes when it is first used. -/
def lazily : Primitive
  | _, [f] => do
    let f ← demand (Checked.function "lazy" f)
    return .parser (← Machine.allocateDeferred f)
  | _, _ => refuseArgs "lazy"

/-- A new object that does what another one does now. -/
def clone : Primitive
  | _, [p] => do return .parser (← Machine.clone (← object "clone" p))
  | _, _ => refuseArgs "clone"

/-- Makes an object do what its substitute does now. -/
def replace : Primitive
  | _, [p, q] => do
    let r ← object "replace" p
    let substitute ← object "replace" q
    Machine.replace r substitute
    return .null
  | _, _ => refuseArgs "replace"

/-- Names an object. -/
def named : Primitive
  | _, [.parser r, name] => do
    modify (·.rename r name)
    return .parser r
  | _, v :: _ => Machine.fault (.noField v "named")
  | _, [] => refuseArgs "p.named"

/-- The name of an object. -/
def nameOf : Primitive
  | _, [.parser r] => do return (← Machine.cell r).name
  | _, v :: _ => Machine.fault (.noField v "name")
  | _, [] => refuseArgs "name"

/-- The parser of an operator table. -/
def expressionParser : Primitive
  | _, [table, term] => do
    match ← demand (Checked.operatorTable table term) with
    | some c => return .parser (← Machine.allocate c)
    | none => return term
  | _, _ => refuseArgs "build_expression_parser"

/-- A shared object. -/
def shared (r : Ref) : Primitive := fun _ _ => pure (.parser r)

/-- Calls a value. -/
def call : Primitive
  | t, f :: args => t.call f args
  | _, [] => refuseArgs "call"

/-- Notes a value and gives it back. -/
def note : Primitive
  | _, [v] => do
    Machine.note v
    return v
  | _, _ => refuseArgs "note"

/-- How a value is shown. -/
def repr : Primitive
  | _, [v] => do return .text (← Machine.display v)
  | _, _ => refuseArgs "repr"

/-- A value as a text. -/
def str : Primitive
  | _, [v] => do return .text (← Machine.describe v)
  | _, _ => refuseArgs "str"

/-- The functions that use parser objects, by name. -/
def users : List (String × Primitive) :=
  [("parse", parse), ("run_parser", runParser), ("parse_or_raise", parseOrRaise),
    ("p.parse", parseAsMethod), ("lazy", lazily), ("clone", clone), ("replace", replace),
    ("p.named", named), ("name", nameOf), ("build_expression_parser", expressionParser),
    ("index", shared Ref.offset), ("lc_index", shared Ref.position), ("eof", shared Ref.eof),
    ("any_char", shared Ref.anyChar), ("rest", shared Ref.rest), ("call", call), ("note", note),
    ("repr", repr), ("str", str)]

/-! ## All functions -/

/-- All functions by name. -/
def library : List (String × Primitive) :=
  constructors.map (fun (name, f) => (name, construct name f)) ++ users ++
    (Builtin.table ++ Record.table).map fun (name, op) => (name, ofOp op)

/-- The function of a name. -/
def find? (name : String) : Option Primitive := library.lookup name

end Furthest.Script
