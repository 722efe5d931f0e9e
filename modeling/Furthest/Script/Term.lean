import Furthest.Value.Basic

/-!
# Terms of the script language

Scripts build parsers and run them.  The language is strict and dynamically typed: a term is a
literal, a container, a name, a function, a conditional, or the application of a named function.
-/

namespace Furthest.Script

/-- A term. -/
inductive Term where
  | null
  | bool (b : Bool)
  | int (n : Int)
  | float (x : Binary64)
  | text (s : String)
  | bytes (s : String)
  | pattern (text : String) (options : Regex.Options) (ofBytes : Bool)
  | list (items : List Term)
  | tuple (items : List Term)
  | dict (entries : List (String × Term))
  /-- A parameter or a variable of the script. -/
  | ref (name : String)
  | lambda (name? : Option String) (params : List String) (body : Term)
  /-- A named function as a value. -/
  | function (name : String)
  | ite (condition whenTrue whenFalse : Term)
  | apply (name : String) (args : List Term)

instance : Inhabited Term := ⟨.null⟩

/-- A function of the language. -/
inductive Function where
  /-- A term with parameters, and the values of the parameters around it. -/
  | closure (name? : Option String) (params : List String) (body : Term)
      (scope : List (String × Value Function))
  /-- A named function. -/
  | named (name : String)

instance : FunctionText Function where
  typeName
    | .closure .. => "Lam"
    | .named _ => "Fn"
  name?
    | .closure name? .. => name?
    | .named name => some name
  display
    | .closure name? .. =>
      match name? with
      | none => "<lam>"
      | some name => if name.isEmpty then "<lam>" else "<lam " ++ name ++ ">"
    | .named name => "<fn " ++ name ++ ">"

/-- The values of a script. -/
abbrev Val := Value Function

/-- The values of parameters or variables, the innermost first. -/
abbrev Scope := List (String × Val)

end Furthest.Script
