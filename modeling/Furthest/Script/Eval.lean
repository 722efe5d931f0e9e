import Furthest.Script.Library

/-!
# Evaluation

`eval` gives the value of a term, by recursion on the term: calls of closures go through the tools
of the run, which bound how deep they may nest.  Arguments are evaluated from left to right, and the
name of a function is looked up before them.
-/

namespace Furthest.Script

/-- The value of a name: a parameter, else a variable of the script. -/
def lookUp (globals scope : Scope) (name : String) : Machine Function Val :=
  match (scope.lookup name).or (globals.lookup name) with
  | some v => pure v
  | none => Machine.fault (ScriptFault.unbound name).toFault

/-- The function of a name. -/
def resolve (name : String) : Machine Function Primitive :=
  match find? name with
  | some f => pure f
  | none => Machine.fault (ScriptFault.unbound name).toFault

mutual

/-- The value of a term. -/
def eval (t : Tools Function) (globals scope : Scope) : Term → Machine Function Val
  | .null => pure .null
  | .bool b => pure (.bool b)
  | .int n => pure (.int n)
  | .float x => pure (.number (.float x))
  | .text s => pure (.text s)
  | .bytes s => pure (.bytes s)
  | .pattern text options ofBytes =>
    match Pattern.ofText options ofBytes text with
    | some p => pure (.pattern p)
    | none => Machine.fault ScriptFault.badPattern.toFault
  | .list items => do return .list (← evalAll t globals scope items)
  | .tuple items => do return .tuple (← evalAll t globals scope items)
  | .dict entries => do return .dict (Builtin.entriesOf (← evalEntries t globals scope entries))
  | .ref name => lookUp globals scope name
  | .lambda name? params body => pure (.function (.closure name? params body scope))
  | .function name => do
    let _ ← resolve name
    return .function (.named name)
  | .ite condition whenTrue whenFalse => do
    if (← eval t globals scope condition).truthy then eval t globals scope whenTrue
    else eval t globals scope whenFalse
  | .apply name args => do
    let f ← resolve name
    f t (← evalAll t globals scope args)

/-- The values of several terms. -/
def evalAll (t : Tools Function) (globals scope : Scope) :
    List Term → Machine Function (List Val)
  | [] => pure []
  | a :: args => do
    let v ← eval t globals scope a
    return v :: (← evalAll t globals scope args)

/-- The values of several entries. -/
def evalEntries (t : Tools Function) (globals scope : Scope) :
    List (String × Term) → Machine Function (List (String × Val))
  | [] => pure []
  | (key, a) :: entries => do
    let v ← eval t globals scope a
    return (key, v) :: (← evalEntries t globals scope entries)

end

/-- Applies a function to arguments. -/
def applyFunction (globals : Scope) (t : Tools Function) :
    Function → List Val → Machine Function Val
  | .closure _ params body scope, args =>
    if args.length = params.length then
      eval t globals ((params.zip args).reverse ++ scope) body
    else Machine.fault (ScriptFault.wrongCount params.length args.length).toFault
  | .named name, args => do
    let f ← resolve name
    f t args

end Furthest.Script
