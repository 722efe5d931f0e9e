import Furthest.Value.Basic

/-!
# Parsers without parts

The parsers that look at the text themselves.  Each takes the text and an offset and answers at
once; none depends on an environment or has an effect.
-/

namespace Furthest

/-- The text to parse. -/
abbrev Input := List Char

namespace Leaf

variable {φ : Type}

/-- Succeeds with a value and consumes nothing. -/
def succeed (v : Value φ) (_ : Input) (i : Nat) : Result (Value φ) := .success i v

/-- Always fails. -/
def fail (label : String) (_ : Input) (i : Nat) : Result (Value φ) := .failure i label

/-- The offset. -/
def offset (_ : Input) (i : Nat) : Result (Value φ) := .success i (.nat i)

/-- The offset with its line and column. -/
def position (s : Input) (i : Nat) : Result (Value φ) :=
  .success i (.position (.ofOffset s i))

/-- Succeeds at the end of the text only. -/
def eof (s : Input) (i : Nat) : Result (Value φ) :=
  if i < s.length then .failure i "end of input" else .success i .null

/-- Any character. -/
def anyChar (s : Input) (i : Nat) : Result (Value φ) :=
  match s[i]? with
  | some c => .success (i + 1) (.text c.toString)
  | none => .failure i "any character"

/-- All the text that is left. -/
def rest (s : Input) (i : Nat) : Result (Value φ) :=
  .success s.length (.text (String.ofList (s.drop i)))

/-- The number of characters that two texts have in common at their start. -/
def commonPrefix : List Char → List Char → Nat
  | a :: as, b :: bs => if a = b then commonPrefix as bs + 1 else 0
  | _, _ => 0

theorem commonPrefix_le_left (as bs : List Char) : commonPrefix as bs ≤ as.length := by
  fun_induction commonPrefix as bs with
  | case1 a as bs ih => simpa using ih
  | case2 | case3 => exact Nat.zero_le _

theorem commonPrefix_le_right (as bs : List Char) : commonPrefix as bs ≤ bs.length := by
  fun_induction commonPrefix as bs with
  | case1 a as bs ih => simpa using ih
  | case2 | case3 => exact Nat.zero_le _

/-- The common characters are the same in both texts. -/
theorem take_commonPrefix (as bs : List Char) :
    as.take (commonPrefix as bs) = bs.take (commonPrefix as bs) := by
  fun_induction commonPrefix as bs with
  | case1 a as bs ih => simpa using ih
  | case2 | case3 => simp

/-- All of a text is common exactly where it is a prefix. -/
theorem commonPrefix_eq_length_iff {as bs : List Char} :
    commonPrefix as bs = as.length ↔ as <+: bs := by
  fun_induction commonPrefix as bs with
  | case1 a as bs ih => simpa using ih
  | case2 a as b bs h => simp [h]
  | case3 as bs h =>
    cases as with
    | nil => simp
    | cons a as =>
      cases bs with
      | nil => simp
      | cons b bs => exact (h a as b bs rfl rfl).elim

/-- A text that is no prefix differs from the other one right after what they have in common. -/
theorem getElem?_commonPrefix_ne {as bs : List Char} (h : ¬as <+: bs) :
    as[commonPrefix as bs]? ≠ bs[commonPrefix as bs]? := by
  fun_induction commonPrefix as bs with
  | case1 a as bs ih =>
    rw [List.prefix_cons_inj] at h
    simpa using ih h
  | case2 a as b bs hab => simpa using hab
  | case3 as bs hne =>
    cases as with
    | nil => exact absurd List.nil_prefix h
    | cons a as =>
      cases bs with
      | nil => simp
      | cons b bs => exact (hne a as b bs rfl rfl).elim

/-- A given text.  A mismatch is reported at the first character that differs. -/
def string (literal : String) (s : Input) (i : Nat) : Result (Value φ) :=
  let wanted := literal.toList
  if wanted.isPrefixOf (s.drop i) && decide (i ≤ s.length) then
    .success (i + wanted.length) (.text literal)
  else
    ⟨.single (i + commonPrefix wanted (s.drop i)) ("'" ++ literal ++ "'"), false, i, .null⟩

end Leaf

end Furthest
