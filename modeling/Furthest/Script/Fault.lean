import Furthest.Fault
import Furthest.Script.Term

/-!
# Faults of scripts

What can go wrong in a script itself, apart from the parsers it builds.
-/

namespace Furthest.Script

/-- The cause of a fault in a script. -/
inductive ScriptFault where
  /-- A name stands for nothing. -/
  | unbound (name : String)
  /-- A closure was called with another number of arguments than it has parameters. -/
  | wrongCount (expected given : Nat)
  /-- A named function was given something that it does not take. -/
  | badArgument (function : String)
  /-- A text that is no numeral. -/
  | badNumeral
  /-- A container has no such entry. -/
  | missingEntry
  | divisionByZero
  /-- A text that is no regular expression. -/
  | badPattern

namespace ScriptFault

/-- The wording of a complaint by a named function. -/
def complaint (function : String) : String := "fn " ++ function

/-- The fault of a cause. -/
def toFault : ScriptFault → Fault Function
  | .unbound name => .raised .name name
  | .wrongCount expected given =>
    .raised .type
      ("lam: expected " ++ toString expected ++ " arguments, got " ++ toString given)
  | .badArgument function => .raised .type (complaint function)
  | .badNumeral => .raised .value (complaint "int")
  | .missingEntry => .raised .lookup (complaint "get")
  | .divisionByZero => .raised .zeroDivision "div"
  | .badPattern => .raised .value (complaint "re")

end ScriptFault

/-- The outcome of a function that has no effect. -/
abbrev Pure (α : Type) := Except (Fault Function) α

/-- Halts with a cause. -/
def refuse {α : Type} (cause : ScriptFault) : Pure α := .error cause.toFault

end Furthest.Script
