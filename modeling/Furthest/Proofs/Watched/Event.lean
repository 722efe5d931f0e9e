import Furthest.Proofs.Watched.Denotation
import Furthest.Proofs.Watched.Report

/-!
# Events of a run

A `Watched` computation notes what happens on the way, in order: each failure of a parser without
parts, with its label and its place, and each attempt of a parser that words its report by itself.
`Watched.observer` is the watcher that notes this.
-/

namespace Furthest

/-- What is noted of a run. -/
inductive Event where
  | failure (f : Failure)
  /-- A parser was tried that words its report by itself. -/
  | foreign
  deriving DecidableEq

namespace Event

/-- The failure that an event is. -/
def failure? : Event → Option Failure
  | .failure f => some f
  | .foreign => none

/-- The failures among events, in order. -/
def failures (events : List Event) : List Failure := events.filterMap failure?

theorem failures_append (es es' : List Event) :
    failures (es ++ es') = failures es ++ failures es' :=
  List.filterMap_append

end Event

/-- A computation that notes events. -/
abbrev Watched (m : Type → Type) := StateT (List Event) m

namespace Watched

variable {m : Type → Type} [Monad m] {φ : Type}

/-- Notes an event after those before it. -/
def note (event : Event) : Watched m PUnit := modify (· ++ [event])

/-- Notes the failures of parsers without parts and the attempts of parsers that word their report
by themselves. -/
def observer : Watcher (Watched m) φ where
  leaf label place p := fun s i env => do
    let r ← p s i env
    unless r.status do note (.failure ⟨label, place s i⟩)
    return r
  foreign p := fun s i env => do
    note .foreign
    p s i env

end Watched

end Furthest
