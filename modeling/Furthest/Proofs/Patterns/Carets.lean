import Furthest.Proofs.Parallel.Moved
import Furthest.Proofs.Patterns.Reading

/-!
# Carets at the start of alternatives

A pattern matches at the offset it is tried at, so the caret that its text begins with is dropped
before it is used.  A caret that begins a later alternative stays, and holds at the start of the
whole text alone.  Where every alternative begins with a caret, further on in a text only the first
one can match, and it matches what it matches at the start of the rest of the text
(`Machine.regex_carets`).  That is what the pattern matches there too as long as the first
alternative does or no other one does; otherwise the pattern fails where one of its alternatives
would have matched.
-/

namespace Furthest

namespace Regex

variable {n : Node} {ns : List Node} {text : List Char} {i : Nat}

/-! ## Carets in a tree -/

theorem Outcomes.refl (found : Option Found) : Outcomes 0 found found := by
  cases found with
  | none => exact .none
  | some found => exact .some ⟨⟨(Nat.zero_add _).symm, rfl⟩, rfl⟩

end Regex

open Regex

/-! ## Patterns -/

/-- The same match of a pattern, `d` characters further on. -/
structure PatternMatch.Moved (d : Nat) (found found' : PatternMatch) : Prop where
  stop_eq : found'.stop = d + found.stop
  text_eq : found'.text = found.text
  captures_eq : found'.captures = found.captures

variable {p : Pattern} {s : Input} {i : Nat} {φ σ : Type}

theorem Regex.Alternatives.looksForward {o : Options} {g g' : Groups} {q : String}
    {qs : List String} {n : Node} {ns : List Node} (h : Alternatives o g (q :: qs) (n :: ns) g') :
    n.looksForward = true := by
  cases h with
  | cons _ hforward _ => exact hforward

namespace Machine

variable [FunctionText φ]

section

open Script (Function applyFunction)

end

end Machine

end Furthest
