import Furthest.Message
import Furthest.Value.Printer

/-!
# Faults

What goes wrong other than a text that does not match: an unfit argument, a callback that answers
with something else than it should, an error that a callback raises.  `Fault` names the causes;
`Fault.message` words them.
-/

namespace Furthest

/-- What an argument has to be. -/
inductive Requirement where
  | parser
  | function
  | number
  | text
  | pattern
  | group
  deriving DecidableEq, Inhabited

/-- The complaint about an argument that is something else. -/
def Requirement.complaint : Requirement → String
  | .parser => "Not a parser"
  | .function => "Not a function"
  | .number => "Not a number"
  | .text => "Not a string"
  | .pattern => "Not a regex"
  | .group => "Not a group"

/-- The kinds of faults. -/
inductive FaultKind where
  | type
  | value
  | runtime
  | zeroDivision
  | lookup
  | index
  | name
  | overflow
  | attribute
  | parse
  deriving DecidableEq, Inhabited

/-- The name of a kind of fault. -/
def FaultKind.label : FaultKind → String
  | .type => "TypeError"
  | .value => "ValueError"
  | .runtime => "RuntimeError"
  | .zeroDivision => "ZeroDivisionError"
  | .lookup => "LookupError"
  | .index => "IndexError"
  | .name => "NameError"
  | .overflow => "OverflowError"
  | .attribute => "AttributeError"
  | .parse => "ParseError"

/-- The cause of a fault. -/
inductive Fault (φ : Type) where
  /-- `asker` was given something else than it needs. -/
  | unfit (asker : String) (wanted : Requirement) (given : Value φ)
  /-- A choice among no parsers. -/
  | noAlternatives
  /-- A repetition whose least count is negative or more than its greatest. -/
  | badBounds (min max : Number)
  /-- A row of an operator table holds something else. -/
  | notOperator (given : Value φ)
  /-- A lookup in the environment found something else than a parser. -/
  | notFound (given lookup : Value φ)
  /-- Something that is not a function was called. -/
  | notCallable (given : Value φ)
  /-- Something that is not a list was to be spread out as one. -/
  | notIterable (given : Value φ)
  /-- A pattern matched but has no such group. -/
  | noSuchGroup
  /-- A repetition has to decide whether so large a bound is finite. -/
  | boundTooLarge
  /-- A value has no such field. -/
  | noField (given : Value φ) (field : String)
  /-- A text does not match, where the caller wanted its value. -/
  | mismatch (report : Report) (text : String)
  /-- A callback raised an error. -/
  | raised (kind : FaultKind) (message : String)

namespace Fault

variable {φ : Type}

/-- The kind of a fault. -/
def kind : Fault φ → FaultKind
  | .unfit .. | .notOperator _ | .notFound .. | .notCallable _ | .notIterable _ => .type
  | .noAlternatives | .badBounds .. => .value
  | .noSuchGroup => .index
  | .boundTooLarge => .overflow
  | .noField .. => .attribute
  | .mismatch .. => .parse
  | .raised kind _ => kind

/-- The type of a value and the value. -/
def given [FunctionText φ] (names : Ref → Option String) (v : Value φ) : String :=
  v.typeName ++ " " ++ v.display names

/-- The wording of a fault. -/
def message [FunctionText φ] (names : Ref → Option String) : Fault φ → String
  | .unfit asker wanted v => "partser." ++ asker ++ ": " ++ wanted.complaint ++ ": " ++ given names v
  | .noAlternatives => "partser.alt: Zero alternates"
  | .badBounds min max =>
    "partser.times: Bad bounds: min=" ++ min.toText ++ ", max=" ++ max.toText
  | .notOperator v => "partser.build_expression_parser: Not an operator: " ++ v.display names
  | .notFound v lookup =>
    "partser.from_env: Non-parser value " ++ given names v ++ " from " ++ lookup.display names
  | .notCallable v => "'" ++ v.fullTypeName ++ "' object is not callable"
  | .notIterable v => "'" ++ v.fullTypeName ++ "' object is not iterable"
  | .noSuchGroup => "no such group"
  | .boundTooLarge => "int too large to convert to float"
  | .noField v field => "'" ++ v.fullTypeName ++ "' object has no attribute '" ++ field ++ "'"
  | .mismatch report text => report.errorText text.toList Report.defaultWidth
  | .raised _ message => message

end Fault

/-- Why a run ends without an answer. -/
inductive Halt (φ : Type) where
  | fault (cause : Fault φ)
  /-- The run would go on for longer than it was allowed to. -/
  | exhausted

end Furthest
