import Mathlib.Algebra.Order.Ring.Int
import Mathlib.Data.List.Induction
import Furthest.Result

/-!
# The report of the failures in a run

`Report.ofFailures` tells directly what a report should say after a list of failures: the deepest
offset at which one of them happened and the labels of those that happened there, the latest first.
Failures that happen later are joined to it (`Report.ofFailures_append`).
-/

namespace Furthest

/-- A failure of a parser without parts. -/
structure Failure where
  label : String
  offset : Nat
  deriving DecidableEq

namespace Report

/-- The labels of the failures at an offset, the latest first. -/
def labelsAt (offset : Nat) (fs : List Failure) : List String :=
  ((fs.filter fun f => f.offset = offset).map Failure.label).reverse

/-- The deepest offset of failures that happened one after another, and the labels of those that
happened there, the latest first. -/
def ofFailures (fs : List Failure) : Report :=
  match (fs.map Failure.offset).max? with
  | none => silent
  | some deepest => ⟨deepest, labelsAt deepest fs⟩

theorem ofFailures_nil : ofFailures [] = silent := rfl

theorem ofFailures_eq {fs : List Failure} {deepest : Nat} (hmem : ∃ f ∈ fs, f.offset = deepest)
    (hle : ∀ f ∈ fs, f.offset ≤ deepest) : ofFailures fs = ⟨deepest, labelsAt deepest fs⟩ := by
  have hmax : (fs.map Failure.offset).max? = some deepest := by
    rw [List.max?_eq_some_iff]
    exact ⟨List.mem_map.2 hmem, by simpa using hle⟩
  unfold ofFailures
  rw [hmax]

/-- There are no failures, or one is the deepest. -/
theorem eq_nil_or_deepest (fs : List Failure) :
    fs = [] ∨ ∃ deepest, (∃ f ∈ fs, f.offset = deepest) ∧ ∀ f ∈ fs, f.offset ≤ deepest := by
  cases hmax : (fs.map Failure.offset).max? with
  | none =>
    rw [List.max?_eq_none_iff, List.map_eq_nil_iff] at hmax
    exact Or.inl hmax
  | some deepest =>
    rw [List.max?_eq_some_iff] at hmax
    exact Or.inr ⟨deepest, List.mem_map.1 hmax.1, by simpa using hmax.2⟩

theorem labelsAt_concat (offset : Nat) (fs : List Failure) (f : Failure) :
    labelsAt offset (fs ++ [f]) =
      if f.offset = offset then f.label :: labelsAt offset fs else labelsAt offset fs := by
  unfold labelsAt
  by_cases h : f.offset = offset
  · simp [h]
  · simp [h]

theorem labelsAt_eq_nil {offset : Nat} {fs : List Failure} (h : ∀ f ∈ fs, f.offset < offset) :
    labelsAt offset fs = [] := by
  have hfilter : fs.filter (fun f => f.offset = offset) = [] := by
    rw [List.filter_eq_nil_iff]
    intro f hf
    have := h f hf
    simp only [decide_eq_true_eq]
    omega
  rw [labelsAt, hfilter]
  rfl

theorem ofFailures_single (f : Failure) : ofFailures [f] = single f.offset f.label := by
  rw [ofFailures_eq ⟨f, by simp, rfl⟩ (by simp)]
  simp [labelsAt, single]

/-- The latest failure is joined to the report of those before it. -/
theorem ofFailures_concat (fs : List Failure) (f : Failure) :
    ofFailures (fs ++ [f]) = (single f.offset f.label).join (ofFailures fs) := by
  rcases eq_nil_or_deepest fs with rfl | ⟨deepest, ⟨g, hg, rfl⟩, hle⟩
  · rw [List.nil_append, ofFailures_single, ofFailures_nil]
    exact (join_silent (by simp only [single]; omega)).symm
  · rw [ofFailures_eq ⟨g, hg, rfl⟩ hle]
    rcases Nat.lt_trichotomy f.offset g.offset with h | h | h
    · have hall : ∀ e ∈ fs ++ [f], e.offset ≤ g.offset := by
        simpa [or_imp, forall_and] using ⟨hle, h.le⟩
      rw [ofFailures_eq ⟨g, by simp [hg], rfl⟩ hall, labelsAt_concat, if_neg h.ne,
        join_of_gt (by simpa [single] using h)]
    · have hall : ∀ e ∈ fs ++ [f], e.offset ≤ g.offset := by
        simpa [or_imp, forall_and] using ⟨hle, h.le⟩
      rw [ofFailures_eq ⟨g, by simp [hg], rfl⟩ hall, labelsAt_concat, if_pos h,
        join_of_eq (by simp [single, h])]
      rfl
    · have hall : ∀ e ∈ fs ++ [f], e.offset ≤ f.offset := by
        simpa [or_imp, forall_and] using fun e he => (hle e he).trans h.le
      have hnone : labelsAt f.offset fs = [] :=
        labelsAt_eq_nil fun e he => Nat.lt_of_le_of_lt (hle e he) h
      rw [ofFailures_eq ⟨f, by simp, rfl⟩ hall, labelsAt_concat, if_pos rfl, hnone,
        join_of_lt (by simpa [single] using h)]
      rfl

theorem neg_one_le_ofFailures (fs : List Failure) : -1 ≤ (ofFailures fs).furthest := by
  rcases eq_nil_or_deepest fs with rfl | ⟨deepest, hmem, hle⟩
  · exact le_refl _
  · rw [ofFailures_eq hmem hle]
    show -1 ≤ (deepest : Int)
    omega

/-- The report of later failures is joined to that of earlier ones. -/
theorem ofFailures_append (fs gs : List Failure) :
    ofFailures (fs ++ gs) = (ofFailures gs).join (ofFailures fs) := by
  induction gs using List.reverseRecOn with
  | nil => rw [List.append_nil, ofFailures_nil, silent_join (neg_one_le_ofFailures fs)]
  | append_singleton gs g ih =>
    rw [← List.append_assoc, ofFailures_concat, ofFailures_concat, ih, join_assoc]

example : ofFailures [⟨"a", 2⟩, ⟨"b", 1⟩, ⟨"c", 2⟩] = ⟨2, ["c", "a"]⟩ := by decide

end Report

end Furthest
