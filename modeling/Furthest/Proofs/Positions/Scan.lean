import Mathlib
import Furthest.Position

/-!
# Positions by scanning

The position of an offset is worked out from two searches in the text before it, one for the line
and one for the column.  It is the position that one comes to by going through that text character
by character (`Position.ofOffset_eq_scan`), since one more character moves it as `Position.advance`
says (`Position.ofOffset_succ`).  Each character leads to a place further on, so the places of the
offsets of a text are in order (`Position.strictMonoOn_place`).
-/

namespace Furthest.Position

/-- The position before the first character. -/
def start : Position := ⟨0, 1, 1⟩

/-- The position after one more character. -/
def advance (p : Position) (c : Char) : Position :=
  if c = '\n' then ⟨p.offset + 1, p.line + 1, 1⟩ else ⟨p.offset + 1, p.line, p.column + 1⟩

/-- The position that going through a text comes to. -/
def scan (text : List Char) : Position := text.foldl advance start

/-- Line and column, in lexicographic order. -/
def place (p : Position) : Int ×ₗ Int := toLex (p.line, p.column)

theorem lineStart_append_singleton (text : List Char) (c : Char) :
    lineStart (text ++ [c]) = if c = '\n' then text.length + 1 else lineStart text := by
  by_cases h : c = '\n'
  · simp [lineStart, h]
  · have hle := (text.reverse.takeWhile_sublist (· != '\n')).length_le
    rw [List.length_reverse] at hle
    simp [lineStart, h]

/-- The position of an offset moves with the character that stands there. -/
theorem ofOffset_succ {text : List Char} {o : Nat} (h : o < text.length) :
    ofOffset text (o + 1) = (ofOffset text o).advance text[o] := by
  have htake : text.take (o + 1) = text.take o ++ [text[o]] := List.take_succ_eq_append_getElem h
  have hlength : (text.take o).length = o := List.length_take_of_le (Nat.le_of_lt h)
  simp only [ofOffset, advance, htake, List.count_append, lineStart_append_singleton, hlength]
  by_cases hc : text[o] = '\n'
  · simp only [hc, if_true, List.count_singleton_self]
    push_cast
    simp
  · rw [if_neg hc, if_neg hc, List.count_singleton, if_neg (by simpa using hc)]
    push_cast
    simp
    omega

theorem ofOffset_eq_scan {text : List Char} {o : Nat} (h : o ≤ text.length) :
    ofOffset text o = scan (text.take o) := by
  induction o with
  | zero => rfl
  | succ o ih =>
    rw [ofOffset_succ h, ih (Nat.le_of_succ_le h), List.take_succ_eq_append_getElem h, scan, scan,
      List.foldl_append]
    rfl

theorem place_lt_advance (p : Position) (c : Char) : p.place < (p.advance c).place := by
  unfold advance place
  split
  · exact Prod.Lex.toLex_lt_toLex.2 (.inl (Int.lt_succ _))
  · exact Prod.Lex.toLex_lt_toLex.2 (.inr ⟨rfl, Int.lt_succ _⟩)

theorem place_ofOffset_lt {text : List Char} {o o' : Nat} (hlt : o < o') (h : o' ≤ text.length) :
    (ofOffset text o).place < (ofOffset text o').place := by
  induction o', hlt using Nat.le_induction with
  | base => rw [ofOffset_succ h]; exact place_lt_advance _ _
  | succ o' _ ih =>
    rw [ofOffset_succ h]
    exact (ih (Nat.le_of_succ_le h)).trans (place_lt_advance _ _)

/-- Places are in the order of their offsets. -/
theorem strictMonoOn_place (text : List Char) :
    StrictMonoOn (fun o => (ofOffset text o).place) {o | o ≤ text.length} :=
  fun _ _ _ h' hlt => place_ofOffset_lt hlt h'

end Furthest.Position
