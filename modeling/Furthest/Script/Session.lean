import Furthest.Script.Eval

/-!
# Sessions

A session runs the steps of a script one after another.  Each step evaluates a term and may keep its
value under a name; a step that faults changes no variable, but what it did to parser objects
before stays done.
-/

namespace Furthest.Script

/-- A step of a script. -/
structure Step where
  /-- The variable that keeps the value, if any. -/
  target? : Option String
  term : Term
  /-- Whether the answer tells what was logged. -/
  logged : Bool

/-- What a step comes to. -/
structure Answer where
  outcome : Except (Halt Function) Val
  /-- What callbacks noted. -/
  notes : List Val
  /-- What was logged. -/
  log : List String

/-- The variables and parser objects between steps. -/
structure Session where
  globals : Scope := []
  world : World Function := .initial

/-- How deep the runs of a step may nest, and how long a repetition may go on. -/
def depth : Nat := 1000000

namespace Session

/-- Runs one step. -/
def step (session : Session) (s : Step) : Answer × Session :=
  let tools := Machine.tools (applyFunction session.globals) depth depth
  let start := { session.world with log := #[], notes := #[] }
  match eval tools session.globals [] s.term start with
  | .ok v world =>
    let globals := match s.target? with
      | some name => (name, v) :: session.globals
      | none => session.globals
    (⟨.ok v, world.notes.toList, world.log.toList⟩, ⟨globals, world⟩)
  | .error halt world =>
    (⟨.error halt, world.notes.toList, world.log.toList⟩, ⟨session.globals, world⟩)

/-- Runs steps one after another; the names that parser objects have after each step come with its
answer. -/
def run (session : Session) : List Step → List (Step × Answer × World Function)
  | [] => []
  | s :: steps =>
    let (answer, next) := session.step s
    (s, answer, next.world) :: run next steps

end Session

end Furthest.Script
