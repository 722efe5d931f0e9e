import Furthest.Regex.Pattern

/-!
# The extent of a match

A match of a regular expression goes forward: it ends between the place where it started and the end
of the text (`Pattern.matchAt_extent`).  An expression is matched together with what has to match
afterwards, so the lemma on expressions says at which places the continuation may be asked
(`Node.forward_run`).  Looking around never moves the place itself.
-/

namespace Furthest

namespace Regex

/-- One place lies after another in the same text, or they are the same. -/
structure Cursor.Leads (c c' : Cursor) : Prop where
  offset_le : c.offset ≤ c'.offset
  length_eq : c'.offset + c'.after.length = c.offset + c.after.length

namespace Cursor.Leads

theorem refl (c : Cursor) : c.Leads c := ⟨Nat.le_refl _, rfl⟩

theorem trans {a b c : Cursor} (h : a.Leads b) (h' : b.Leads c) : a.Leads c :=
  ⟨Nat.le_trans h.offset_le h'.offset_le, h'.length_eq.trans h.length_eq⟩

end Cursor.Leads

/-- A matcher that succeeds only where its continuation does, at a place further on. -/
def Forward (f : Continuation → Continuation) : Prop :=
  ∀ k c caps found, f k c caps = some found →
    ∃ c' caps', c.Leads c' ∧ k c' caps' = some found

theorem forward_takeChar (test : Char → Bool) : Forward (takeChar test) := by
  intro k c caps found h
  unfold takeChar at h
  split at h
  · cases h
  · rename_i x after hafter
    split at h
    · refine ⟨_, caps, ⟨Nat.le_succ _, ?_⟩, h⟩
      simp only [hafter, List.length_cons]
      omega
    · cases h

theorem forward_takeText (fold : Fold) (text : List Char) : Forward (takeText fold text) := by
  induction text with
  | nil => exact fun k c caps found h => ⟨c, caps, .refl c, h⟩
  | cons x text ih =>
    intro k c caps found h
    obtain ⟨c₁, caps₁, h₁, hk⟩ := forward_takeChar _ _ c caps found h
    obtain ⟨c₂, caps₂, h₂, hk'⟩ := ih k c₁ caps₁ found hk
    exact ⟨c₂, caps₂, h₁.trans h₂, hk'⟩

/-- The rounds of a loop go forward when each of them does. -/
theorem forward_rounds {round : Continuation → Continuation} (hr : Forward round) (min : Nat)
    (max : Option Nat) (greedy : Bool) (fuel count : Nat) (last : Option Nat) :
    Forward fun k => rounds round min max greedy k fuel count last := by
  induction fuel generalizing count last with
  | zero =>
    intro k c caps found h
    cases h
  | succ fuel ih =>
    intro k c caps found h
    -- one more round, and then the rest of the loop
    have again : ∀ last', round (rounds round min max greedy k fuel (count + 1) last') c caps =
        some found → ∃ c' caps', c.Leads c' ∧ k c' caps' = some found := by
      intro last' h
      obtain ⟨c₁, caps₁, h₁, hk⟩ := hr _ c caps found h
      obtain ⟨c₂, caps₂, h₂, hk'⟩ := ih (count + 1) last' k c₁ caps₁ found hk
      exact ⟨c₂, caps₂, h₁.trans h₂, hk'⟩
    simp only [rounds, Option.orElse_eq_orElse, Option.orElse_eq_or] at h
    split at h
    · exact again last h
    · split at h <;> rcases Option.or_eq_some_iff.1 h with h | ⟨-, h⟩
      · split at h
        · exact again _ h
        · cases h
      · exact ⟨c, caps, .refl c, h⟩
      · exact ⟨c, caps, .refl c, h⟩
      · split at h
        · exact again _ h
        · cases h

theorem Node.forward_run (n : Node) : Forward n.run := by
  induction n with
  | empty => exact fun k c caps found h => ⟨c, caps, .refl c, h⟩
  | char code fold => exact fun k c caps found h => forward_takeChar _ k c caps found h
  | any lineBreaks => exact fun k c caps found h => forward_takeChar _ k c caps found h
  | set s => exact fun k c caps found h => forward_takeChar _ k c caps found h
  | anchor a =>
    intro k c caps found h
    simp only [Node.run] at h
    split at h
    · exact ⟨c, caps, .refl c, h⟩
    · cases h
  | group number body ih =>
    intro k c caps found h
    obtain ⟨c', caps', h', hk⟩ := ih _ c caps found h
    exact ⟨c', _, h', hk⟩
  | backReference number fold =>
    intro k c caps found h
    simp only [Node.run] at h
    split at h
    · exact forward_takeText fold _ k c caps found h
    · cases h
  | seq a b iha ihb =>
    intro k c caps found h
    obtain ⟨c₁, caps₁, h₁, hk⟩ := iha _ c caps found h
    obtain ⟨c₂, caps₂, h₂, hk'⟩ := ihb k c₁ caps₁ found hk
    exact ⟨c₂, caps₂, h₁.trans h₂, hk'⟩
  | alt a b iha ihb =>
    intro k c caps found h
    simp only [Node.run, Option.orElse_eq_orElse, Option.orElse_eq_or] at h
    rcases Option.or_eq_some_iff.1 h with h | ⟨-, h⟩
    · exact iha k c caps found h
    · exact ihb k c caps found h
  | conditional number yes no ihyes ihno =>
    intro k c caps found h
    simp only [Node.run] at h
    split at h
    · exact ihyes k c caps found h
    · exact ihno k c caps found h
  | loop min max greedy body ih =>
    intro k c caps found h
    exact forward_rounds ih min max greedy _ 0 none k c caps found h
  | atomic body ih =>
    intro k c caps found h
    simp only [Node.run] at h
    split at h
    · next c₁ caps₁ hbody =>
      obtain ⟨c', caps', h', hk⟩ := ih _ c caps _ hbody
      cases hk
      exact ⟨c₁, caps₁, h', h⟩
    · cases h
  | lookAhead negated body ih =>
    intro k c caps found h
    simp only [Node.run] at h
    split at h <;> split at h <;> first | cases h | exact ⟨c, _, .refl c, h⟩
  | lookBehind negated body ih =>
    intro k c caps found h
    simp only [Node.run] at h
    split at h <;> split at h <;> first | cases h | exact ⟨c, _, .refl c, h⟩

end Regex

open Regex in
/-- A match ends between where it started and the end of the text. -/
theorem Pattern.matchAt_extent {p : Pattern} {s : List Char} {i : Nat} {found : PatternMatch}
    (hi : i ≤ s.length) (h : p.matchAt s i = some found) :
    i ≤ found.stop ∧ found.stop ≤ s.length := by
  obtain ⟨⟨c, captures⟩, hc, rfl⟩ := Option.map_eq_some_iff.1 h
  obtain ⟨c', caps', hl, hk⟩ := p.root.forward_run _ _ _ _ hc
  cases hk
  have hle := hl.offset_le
  have hlen := hl.length_eq
  simp only [Cursor.ofOffset, List.length_take, List.length_drop] at hle hlen
  constructor <;> dsimp only <;> omega

end Furthest
