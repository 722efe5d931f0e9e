import Mathlib.Data.List.Induction
import Furthest.Result

/-!
# Merging more than two results

A merge takes two results.  More of them are merged two by two, and a `Bracketing` tells in which
steps.  An associative operation comes to the same however its steps are bracketed
(`Bracketing.combine_eq_foldl`), and so do merges: `Result.SumsUp` tells directly what many results
are merged to, and every bracketing gives that (`Result.merge_bracketed`).
-/

namespace Furthest

/-- A way to bracket a sequence into steps of two. -/
inductive Bracketing (α : Type) where
  | single (a : α)
  | both (left right : Bracketing α)

namespace Bracketing

variable {α : Type}

/-- What is bracketed, in order. -/
def toList : Bracketing α → List α
  | single a => [a]
  | both left right => left.toList ++ right.toList

/-- Takes the steps of a bracketing by an operation. -/
def combine (f : α → α → α) : Bracketing α → α
  | single a => a
  | both left right => f (left.combine f) (right.combine f)

theorem exists_toList_eq_cons (t : Bracketing α) : ∃ a as, t.toList = a :: as := by
  induction t with
  | single a => exact ⟨a, [], rfl⟩
  | both left right ihl _ =>
    obtain ⟨a, as, h⟩ := ihl
    exact ⟨a, as ++ right.toList, by rw [toList, h, List.cons_append]⟩

/-- Every sequence with a first item can be bracketed. -/
theorem exists_toList_eq (a : α) (as : List α) : ∃ t : Bracketing α, t.toList = a :: as := by
  induction as generalizing a with
  | nil => exact ⟨single a, rfl⟩
  | cons b bs ih =>
    obtain ⟨t, ht⟩ := ih b
    exact ⟨both (single a) t, by rw [toList, ht]; rfl⟩

/-- The steps of an associative operation may be taken from the left, however they are bracketed. -/
theorem combine_eq_foldl {f : α → α → α} (hf : ∀ a b c, f (f a b) c = f a (f b c))
    (t : Bracketing α) {a : α} {as : List α} (h : t.toList = a :: as) :
    t.combine f = as.foldl f a := by
  induction t generalizing a as with
  | single b =>
    obtain ⟨rfl, rfl⟩ := List.cons.inj h
    rfl
  | both left right ihl ihr =>
    obtain ⟨b, bs, hb⟩ := left.exists_toList_eq_cons
    obtain ⟨c, cs, hc⟩ := right.exists_toList_eq_cons
    rw [toList, hb, hc, List.cons_append] at h
    obtain ⟨rfl, rfl⟩ := List.cons.inj h
    have : Std.Associative f := ⟨hf⟩
    rw [combine, ihl hb, ihr hc, List.foldl_append, List.foldl_cons, List.foldl_assoc]

end Bracketing

namespace Result

variable {α : Type}

/-- The labels of the results whose report points at an offset, in order. -/
def labelsAt (offset : Int) (rs : List (Result α)) : List String :=
  (rs.filter fun r => r.furthest = offset).flatMap fun r => r.expected

/-- What several results are merged to, the latest of which stands first: what the first one says of
the text, the deepest offset that any of them reports, and the labels of all that report it, in
order. -/
structure SumsUp (m first : Result α) (others : List (Result α)) : Prop where
  status_eq : m.status = first.status
  index_eq : m.index = first.index
  value_eq : m.value = first.value
  furthest_le : ∀ r ∈ first :: others, r.furthest ≤ m.furthest
  furthest_mem : ∃ r ∈ first :: others, r.furthest = m.furthest
  expected_eq : m.expected = labelsAt m.furthest (first :: others)

theorem labelsAt_append (offset : Int) (rs rs' : List (Result α)) :
    labelsAt offset (rs ++ rs') = labelsAt offset rs ++ labelsAt offset rs' := by
  simp [labelsAt]

theorem labelsAt_single {offset : Int} {r : Result α} (h : r.furthest = offset) :
    labelsAt offset [r] = r.expected := by
  simp [labelsAt, h]

theorem labelsAt_eq_nil {offset : Int} {rs : List (Result α)}
    (h : ∀ r ∈ rs, r.furthest < offset) : labelsAt offset rs = [] := by
  have hfilter : rs.filter (fun r => r.furthest = offset) = [] := by
    rw [List.filter_eq_nil_iff]
    intro r hr
    have := h r hr
    simp only [decide_eq_true_eq]
    omega
  rw [labelsAt, hfilter, List.flatMap_nil]

theorem sumsUp_single (r : Result α) : r.SumsUp r [] :=
  ⟨rfl, rfl, rfl, by simp, ⟨r, by simp, rfl⟩, (labelsAt_single rfl).symm⟩

/-- One more result is merged as the oldest. -/
theorem SumsUp.merge {m first : Result α} {others : List (Result α)} (h : m.SumsUp first others)
    (r : Result α) : (m.merge r).SumsUp first (others ++ [r]) := by
  have hmax : (m.merge r).furthest = max m.furthest r.furthest := Report.furthest_join _ _
  refine ⟨h.status_eq, h.index_eq, h.value_eq, fun a ha => ?_, ?_, ?_⟩
  · rw [← List.cons_append, List.mem_append, List.mem_singleton] at ha
    rcases ha with ha | rfl
    · have := h.furthest_le a ha
      omega
    · omega
  · obtain ⟨a, ha, hdeepest⟩ := h.furthest_mem
    by_cases hle : r.furthest ≤ m.furthest
    · exact ⟨a, List.mem_append_left [r] ha, by omega⟩
    · exact ⟨r, by simp, by omega⟩
  · rw [← List.cons_append, labelsAt_append]
    rcases Int.lt_trichotomy m.furthest r.furthest with hlt | heq | hgt
    · have hnone : labelsAt r.furthest (first :: others) = [] :=
        labelsAt_eq_nil fun a ha => Int.lt_of_le_of_lt (h.furthest_le a ha) hlt
      rw [toReport_merge, Report.join_of_gt hlt, hnone, labelsAt_single rfl, List.nil_append]
    · rw [toReport_merge, Report.join_of_eq heq, labelsAt_single rfl, ← heq, ← h.expected_eq]
    · have hnone : labelsAt m.furthest [r] = [] := labelsAt_eq_nil (by simpa using hgt)
      rw [toReport_merge, Report.join_of_lt hgt, hnone, List.append_nil, h.expected_eq]

theorem sumsUp_foldl (first : Result α) (others : List (Result α)) :
    (others.foldl Result.merge first).SumsUp first others := by
  induction others using List.reverseRecOn with
  | nil => exact sumsUp_single first
  | append_singleton others r ih =>
    rw [List.foldl_append]
    exact ih.merge r

/-- However the merges of a sequence of results are bracketed, they come to one result, which is
what the sequence sums up to.  Merging with nothing changes nothing, and merging is associative. -/
theorem merge_bracketed (first : Result α) (others : List (Result α)) :
    (∃ m : Result α, m.SumsUp first others ∧
      (∃ t : Bracketing (Result α), t.toList = first :: others) ∧
      ∀ t : Bracketing (Result α), t.toList = first :: others → t.combine Result.merge = m) ∧
    first.mergeWith none = first ∧
    ∀ a b : Result α, (first.merge a).merge b = first.merge (a.merge b) :=
  ⟨⟨others.foldl Result.merge first, sumsUp_foldl first others,
    Bracketing.exists_toList_eq first others, fun t => t.combine_eq_foldl merge_assoc⟩,
    mergeWith_none first, merge_assoc first⟩

/-- A success, an older failure that got as deep, and a success before them in which nothing failed:
the labels of the first two stand in order, however the merges are bracketed. -/
theorem merge_bracketed_tie :
    ∀ t : Bracketing (Result String),
      t.toList = [⟨⟨2, ["x"]⟩, true, 1, "v"⟩, ⟨⟨2, ["y"]⟩, false, 0, ""⟩, .success 0 "w"] →
      t.combine Result.merge = ⟨⟨2, ["x", "y"]⟩, true, 1, "v"⟩ := by
  obtain ⟨⟨_, -, -, hall⟩, -⟩ := merge_bracketed (⟨⟨2, ["x"]⟩, true, 1, "v"⟩ : Result String)
    [⟨⟨2, ["y"]⟩, false, 0, ""⟩, .success 0 "w"]
  intro t ht
  rw [hall t ht]
  exact (hall (.both (.both (.single _) (.single _)) (.single _)) rfl).symm

end Result

end Furthest
