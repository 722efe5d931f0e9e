import Mathlib.Algebra.Order.Ring.Int
import Furthest.Parser.Leaf

/-!
# Well-formed results

What a result may tell about an attempt that started at offset `i` of a text of `n` characters
(`Result.WellFormed`): it ends between `i` and the end of the text, and its report either is silent
or points between `i` and the end and names a label.  Only a success may be silent, and a failure
has no value.  Merging keeps this, also when the older result started further to the left
(`Result.WellFormed.merge`), and so do the parsers without parts.
-/

namespace Furthest

namespace Report

/-- The report points between two offsets and names a label. -/
structure Within (r : Report) (i n : Nat) : Prop where
  le_furthest : (i : Int) ≤ r.furthest
  furthest_le : r.furthest ≤ n
  expected_ne_nil : r.expected ≠ []

/-- The report is silent or lies within two offsets. -/
def Fits (r : Report) (i n : Nat) : Prop := r = silent ∨ r.Within i n

theorem fits_silent (i n : Nat) : silent.Fits i n := Or.inl rfl

theorem within_single {i j n : Nat} (label : String) (hij : i ≤ j) (hjn : j ≤ n) :
    (single j label).Within i n :=
  ⟨by simpa [single] using hij, by simpa [single] using hjn, by simp [single]⟩

theorem Within.mono {r : Report} {i j n : Nat} (h : r.Within j n) (hij : i ≤ j) :
    r.Within i n :=
  ⟨le_trans (by exact_mod_cast hij) h.le_furthest, h.furthest_le, h.expected_ne_nil⟩

theorem Within.fits {r : Report} {i n : Nat} (h : r.Within i n) : r.Fits i n := Or.inr h

theorem Fits.mono {r : Report} {i j n : Nat} (h : r.Fits j n) (hij : i ≤ j) : r.Fits i n :=
  h.imp_right fun h => h.mono hij

/-- The deepest failure of a report that fits is a place of the text, or there is none. -/
theorem Fits.neg_one_le {r : Report} {i n : Nat} (h : r.Fits i n) : -1 ≤ r.furthest := by
  rcases h with rfl | h
  · exact le_refl _
  · have := h.le_furthest
    omega

theorem Within.join {a b : Report} {i n : Nat} (ha : a.Within i n) (hb : b.Within i n) :
    (a.join b).Within i n := by
  rcases Int.lt_trichotomy a.furthest b.furthest with h | h | h
  · rwa [join_of_gt h]
  · rw [join_of_eq h]
    exact ⟨hb.le_furthest, hb.furthest_le, by simp [ha.expected_ne_nil]⟩
  · rwa [join_of_lt h]

/-- A failure stays one, whatever came before it. -/
theorem Within.join_fits {a b : Report} {i n : Nat} (ha : a.Within i n) (hb : b.Fits i n) :
    (a.join b).Within i n := by
  rcases hb with rfl | hb
  · rwa [join_silent ha.fits.neg_one_le]
  · exact ha.join hb

theorem Fits.join {a b : Report} {i n : Nat} (ha : a.Fits i n) (hb : b.Fits i n) :
    (a.join b).Fits i n := by
  rcases ha with rfl | ha
  · rwa [silent_join hb.neg_one_le]
  · exact (ha.join_fits hb).fits

end Report

namespace Result

variable {φ : Type}

/-- The result of an attempt at offset `i` of a text of `n` characters is well-formed. -/
structure WellFormed (r : Result (Value φ)) (i n : Nat) : Prop where
  le_index : i ≤ r.index
  index_le : r.index ≤ n
  of_success : r.status = true → r.toReport.Fits i n
  of_failure : r.status = false → r.toReport.Within i n ∧ r.value = .null

namespace WellFormed

variable {r newer older : Result (Value φ)} {i j n : Nat}

theorem fits (h : r.WellFormed i n) : r.toReport.Fits i n := by
  cases hs : r.status with
  | true => exact h.of_success hs
  | false => exact (h.of_failure hs).1.fits

theorem mono (h : r.WellFormed j n) (hij : i ≤ j) : r.WellFormed i n :=
  ⟨hij.trans h.le_index, h.index_le, fun hs => (h.of_success hs).mono hij,
    fun hs => ⟨(h.of_failure hs).1.mono hij, (h.of_failure hs).2⟩⟩

/-- A result keeps its form when the report of an attempt further to the left is joined. -/
theorem merge (h : newer.WellFormed j n) (hij : i ≤ j) (ho : older.toReport.Fits i n) :
    (newer.merge older).WellFormed i n :=
  have hi := h.mono hij
  ⟨hi.le_index, hi.index_le, fun hs => (hi.of_success hs).join ho,
    fun hs => ⟨(hi.of_failure hs).1.join_fits ho, (hi.of_failure hs).2⟩⟩

theorem mergeWith (h : newer.WellFormed j n) (hij : i ≤ j) {best : Option (Result (Value φ))}
    (hb : ∀ b ∈ best, b.toReport.Fits i n) : (newer.mergeWith best).WellFormed i n := by
  cases best with
  | none => exact h.mono hij
  | some b => exact h.merge hij (hb b rfl)

/-- Looking ahead puts a success back to where it started. -/
theorem rewind (h : r.WellFormed i n) (hi : i ≤ n) (hs : r.status = true) :
    ({ r with index := i } : Result (Value φ)).WellFormed i n :=
  ⟨le_refl i, hi, h.of_success, fun hf => absurd (hs.symm.trans hf) Bool.noConfusion⟩

/-- Another label for a failure. -/
theorem relabel (h : r.WellFormed i n) (hs : r.status = false) (label : String) :
    (⟨⟨r.furthest, [label]⟩, false, r.index, .null⟩ : Result (Value φ)).WellFormed i n :=
  ⟨h.le_index, h.index_le, nofun, fun _ =>
    ⟨⟨(h.of_failure hs).1.le_furthest, (h.of_failure hs).1.furthest_le, by simp⟩, rfl⟩⟩

end WellFormed

theorem wellFormed_success {i j n : Nat} (v : Value φ) (hij : i ≤ j) (hjn : j ≤ n) :
    (Result.success j v).WellFormed i n :=
  ⟨hij, hjn, fun _ => Report.fits_silent i n, nofun⟩

/-- A failure at `i` that got as far as `j`. -/
theorem wellFormed_of_single {i j n : Nat} (label : String) (hij : i ≤ j) (hjn : j ≤ n) :
    (⟨.single j label, false, i, .null⟩ : Result (Value φ)).WellFormed i n :=
  ⟨le_refl i, hij.trans hjn, nofun, fun _ => ⟨Report.within_single label hij hjn, rfl⟩⟩

theorem wellFormed_failure {i n : Nat} (label : String) (hi : i ≤ n) :
    (Result.failure i label : Result (Value φ)).WellFormed i n :=
  wellFormed_of_single label (le_refl i) hi

end Result

/-! ## Parsers without parts -/

namespace Leaf

variable {φ : Type} {s : Input} {i : Nat}

theorem wellFormed_eof (hi : i ≤ s.length) :
    (Leaf.eof s i : Result (Value φ)).WellFormed i s.length := by
  unfold Leaf.eof
  split
  · exact Result.wellFormed_failure _ hi
  · exact Result.wellFormed_success _ (le_refl i) hi

theorem wellFormed_anyChar (hi : i ≤ s.length) :
    (Leaf.anyChar s i : Result (Value φ)).WellFormed i s.length := by
  unfold Leaf.anyChar
  split
  · rename_i c hc
    have hlt : i < s.length := (List.getElem?_eq_some_iff.1 hc).1
    exact Result.wellFormed_success _ (Nat.le_succ i) hlt
  · exact Result.wellFormed_failure _ hi

theorem wellFormed_string (literal : String) (hi : i ≤ s.length) :
    (Leaf.string literal s i : Result (Value φ)).WellFormed i s.length := by
  unfold Leaf.string
  dsimp only
  split
  · rename_i h
    have hp : literal.toList <+: s.drop i :=
      List.isPrefixOf_iff_prefix.1 (Bool.and_eq_true_iff.1 h).1
    have hl := hp.length_le
    rw [List.length_drop] at hl
    exact Result.wellFormed_success _ (Nat.le_add_right _ _) (by omega)
  · have hl := commonPrefix_le_right literal.toList (s.drop i)
    rw [List.length_drop] at hl
    exact Result.wellFormed_of_single _ (Nat.le_add_right _ _) (by omega)

end Leaf

end Furthest
