import Furthest.Fault
import Furthest.Grammar.Derived
import Furthest.Parser.Log

/-!
# Parser objects

A parser object holds a grammar and a name, and both may be put in place of others later.  The
`World` keeps all objects, what deferred parsers have been made into, the log, and the values that
callbacks have noted.  A `Machine` computation reads and changes the world; what it has changed
stays changed when it halts.
-/

namespace Furthest

/-- A parser object. -/
structure Cell (φ : Type) where
  behaviour : Grammar φ
  /-- The object's name; nothing when it has none. -/
  name : Value φ
  deriving Inhabited

/-- The state of a deferred parser. -/
structure Deferral (φ : Type) where
  /-- The function that makes the parser. -/
  thunk : Value φ
  /-- The object that was made with it. -/
  self : Ref
  /-- What the function made; nothing before that. -/
  target : Value φ
  /-- How often the function has made something. -/
  made : Nat
  deriving Inhabited

/-- A deferred parser that was not used yet. -/
def Deferral.fresh {φ : Type} (thunk : Value φ) (self : Ref) : Deferral φ := ⟨thunk, self, .null, 0⟩

/-- Everything that changes while parsers are built and run. -/
structure World (φ : Type) where
  cells : Array (Cell φ)
  deferrals : Array (Deferral φ) := #[]
  log : Array String := #[]
  notes : Array (Value φ) := #[]

/-- A computation that reads and changes the world and may halt. -/
abbrev Machine (φ : Type) := EStateM (Halt φ) (World φ)

namespace World

variable {φ : Type}

/-- The world with the shared parser objects only. -/
def initial : World φ where
  cells := #[⟨.offset, .text "index"⟩, ⟨.position, .text "lc_index"⟩, ⟨.eof, .text "eof"⟩,
    ⟨.anyChar, .text "any character"⟩, ⟨.rest, .text "rest"⟩]

instance : Inhabited (World φ) := ⟨.initial⟩

/-- The object of a reference. -/
def cell (w : World φ) (r : Ref) : Cell φ := w.cells[r]?.getD default

/-- The state of a deferred parser. -/
def deferral (w : World φ) (d : DeferralRef) : Deferral φ := w.deferrals[d]?.getD default

/-- Puts a grammar in place of what an object did. -/
def rebind (w : World φ) (r : Ref) (g : Grammar φ) : World φ :=
  { w with cells := w.cells.modify r fun c => { c with behaviour := g } }

/-- Names an object. -/
def rename (w : World φ) (r : Ref) (name : Value φ) : World φ :=
  { w with cells := w.cells.modify r fun c => { c with name := name } }

/-- Records what a deferred parser has been made into. -/
def resolve (w : World φ) (d : DeferralRef) (target : Value φ) : World φ :=
  { w with deferrals := w.deferrals.modify d fun x =>
      { x with target := target, made := x.made + 1 } }

/-- The names under which objects are shown; what does not count as true is no name. -/
def names [FunctionText φ] (w : World φ) (r : Ref) : Option String :=
  match (w.cell r).name with
  | .parser _ => none
  | name => if name.truthy then some (name.describe fun _ => none) else none

/-! ### What changes and what does not -/

theorem cell_rebind_self {w : World φ} {r : Ref} (h : r < w.cells.size) (g : Grammar φ) :
    (w.rebind r g).cell r = { w.cell r with behaviour := g } := by
  simp [cell, rebind, h, Array.getElem_modify]

theorem cell_rebind_of_ne {w : World φ} {r r' : Ref} (h : r ≠ r') (g : Grammar φ) :
    (w.rebind r g).cell r' = w.cell r' := by
  simp [cell, rebind, Array.getElem?_modify, h]

/-- After a rebinding an object does either what it is to do now or what it did before. -/
theorem behaviour_rebind (w : World φ) (r r' : Ref) (g : Grammar φ) :
    ((w.rebind r g).cell r').behaviour = g ∨
      ((w.rebind r g).cell r').behaviour = (w.cell r').behaviour := by
  by_cases h : r = r'
  · subst h
    by_cases hr : r < w.cells.size
    · exact Or.inl (by rw [cell_rebind_self hr])
    · right
      simp [cell, rebind, Array.getElem?_modify, Array.getElem?_eq_none (Nat.le_of_not_lt hr)]
  · exact Or.inr (by rw [cell_rebind_of_ne h])

theorem cell_rename_of_ne {w : World φ} {r r' : Ref} (h : r ≠ r') (name : Value φ) :
    (w.rename r name).cell r' = w.cell r' := by
  simp [cell, rename, Array.getElem?_modify, h]

/-- A name has no part in what an object does. -/
theorem behaviour_rename (w : World φ) (r r' : Ref) (name : Value φ) :
    ((w.rename r name).cell r').behaviour = (w.cell r').behaviour := by
  by_cases h : r = r'
  · subst h
    by_cases hr : r < w.cells.size
    · simp [cell, rename, hr, Array.getElem_modify]
    · simp [cell, rename, Array.getElem?_modify, Array.getElem?_eq_none (Nat.le_of_not_lt hr)]
  · rw [cell_rename_of_ne h]

theorem cell_resolve (w : World φ) (d : DeferralRef) (target : Value φ) (r : Ref) :
    (w.resolve d target).cell r = w.cell r := rfl

theorem deferral_rebind (w : World φ) (r : Ref) (g : Grammar φ) (d : DeferralRef) :
    (w.rebind r g).deferral d = w.deferral d := rfl

theorem deferral_resolve_self {w : World φ} {d : DeferralRef} (h : d < w.deferrals.size)
    (target : Value φ) :
    (w.resolve d target).deferral d =
      { w.deferral d with target := target, made := (w.deferral d).made + 1 } := by
  simp [deferral, resolve, h, Array.getElem_modify]

theorem deferral_resolve_of_ne {w : World φ} {d d' : DeferralRef} (h : d ≠ d')
    (target : Value φ) : (w.resolve d target).deferral d' = w.deferral d' := by
  simp [deferral, resolve, Array.getElem?_modify, h]

/-- After a deferred parser was made into something, a deferred parser is either made into that or
as it was. -/
theorem deferral_resolve (w : World φ) (d d' : DeferralRef) (target : Value φ) :
    (w.resolve d target).deferral d' =
        { w.deferral d' with target := target, made := (w.deferral d').made + 1 } ∨
      (w.resolve d target).deferral d' = w.deferral d' := by
  by_cases h : d = d'
  · subst h
    by_cases hd : d < w.deferrals.size
    · exact Or.inl (deferral_resolve_self hd target)
    · right
      simp [deferral, resolve, Array.getElem?_modify, Array.getElem?_eq_none (Nat.le_of_not_lt hd)]
  · exact Or.inr (deferral_resolve_of_ne h target)

end World

namespace Machine

variable {φ : Type}

/-- Halts with a fault. -/
def fault {α : Type} (cause : Fault φ) : Machine φ α := throw (.fault cause)

/-- The object of a reference. -/
def cell (r : Ref) : Machine φ (Cell φ) := do return (← get).cell r

/-- A new parser object. -/
def allocate (c : Cell φ) : Machine φ Ref :=
  modifyGet fun w => (w.cells.size, { w with cells := w.cells.push c })

/-- A new deferred parser: an object that a function will make when it is first used. -/
def allocateDeferred (thunk : Value φ) : Machine φ Ref := do
  let w ← get
  let d := w.deferrals.size
  let r := w.cells.size
  set { w with
    cells := w.cells.push ⟨.deferred d, .null⟩
    deferrals := w.deferrals.push (.fresh thunk r) }
  return r

/-- Makes an object do what its substitute does now. -/
def replace (r substitute : Ref) : Machine φ PUnit := do
  let c ← cell substitute
  modify (·.rebind r c.behaviour)

/-- A new object that does what another one does now, under its name. -/
def clone (r : Ref) : Machine φ Ref := do
  allocate (← cell r)

/-- Notes a value. -/
def note (v : Value φ) : Machine φ PUnit :=
  modify fun w => { w with notes := w.notes.push v }

section

variable [FunctionText φ]

/-- Words a value. -/
def describe (v : Value φ) : Machine φ String := do return v.describe (← get).names

/-- Shows a value. -/
def display (v : Value φ) : Machine φ String := do return v.display (← get).names

/-- Writes an entry to the log, in the names that hold now. -/
def log (entry : LogEntry φ) : Machine φ PUnit :=
  modify fun w => { w with log := w.log.push (entry.render w.names) }

end

end Machine

end Furthest
