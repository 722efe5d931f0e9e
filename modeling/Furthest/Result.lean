/-!
# Results and failure reports

An attempt to parse ends in a `Result`: whether it matched, where to go on, the value, and a
`Report`.  The report names the deepest offset at which anything failed and what would have been
accepted there, the latest attempt first.  `Report.join` keeps the deeper of two reports and lists
the labels of both on a tie; `Result.merge` joins the reports and keeps the rest of the newer
result.  Joining is associative (`Report.join_assoc`), so how merges are bracketed does not matter.
-/

namespace Furthest

/-- How far an attempt got before it failed, and what it would have accepted there. -/
structure Report where
  /-- The deepest offset at which something failed, `-1` when nothing did. -/
  furthest : Int
  /-- The labels of what failed there, the latest attempt first. -/
  expected : List String
  deriving DecidableEq, Inhabited

namespace Report

/-- The report of an attempt in which nothing failed. -/
def silent : Report := ⟨-1, []⟩

/-- The report of a single failure. -/
def single (offset : Nat) (label : String) : Report := ⟨offset, [label]⟩

/-- The deeper of a newer and an older report; on a tie the newer one's labels come first. -/
def join (newer older : Report) : Report :=
  if older.furthest < newer.furthest then newer
  else if newer.furthest = older.furthest then ⟨older.furthest, newer.expected ++ older.expected⟩
  else older

theorem join_of_lt {a b : Report} (h : b.furthest < a.furthest) : a.join b = a := by
  simp [join, h]

theorem join_of_eq {a b : Report} (h : a.furthest = b.furthest) :
    a.join b = ⟨b.furthest, a.expected ++ b.expected⟩ := by
  simp [join, h]

theorem join_of_gt {a b : Report} (h : a.furthest < b.furthest) : a.join b = b := by
  have h₁ : ¬ b.furthest < a.furthest := by omega
  have h₂ : a.furthest ≠ b.furthest := by omega
  simp [join, h₁, h₂]

theorem furthest_join (a b : Report) : (a.join b).furthest = max a.furthest b.furthest := by
  unfold join
  split
  · omega
  · split
    · simp only; omega
    · omega

/-- Joining reports is associative, order of labels included. -/
theorem join_assoc (a b c : Report) : (a.join b).join c = a.join (b.join c) := by
  rcases Int.lt_trichotomy a.furthest b.furthest with hab | hab | hab <;>
    rcases Int.lt_trichotomy b.furthest c.furthest with hbc | hbc | hbc
  · rw [join_of_gt hab, join_of_gt hbc, join_of_gt (by omega)]
  · rw [join_of_gt hab, join_of_eq hbc, join_of_gt (by simpa using by omega)]
  · rw [join_of_gt hab, join_of_lt hbc, join_of_gt hab]
  · rw [join_of_eq hab, join_of_gt hbc, join_of_gt (by simpa using hbc), join_of_gt (by omega)]
  · rw [join_of_eq hab, join_of_eq hbc, join_of_eq (by simpa using hbc),
      join_of_eq (by simpa using by omega), List.append_assoc]
  · rw [join_of_eq hab, join_of_lt hbc, join_of_lt (by simpa using hbc), join_of_eq hab]
  · rw [join_of_lt hab, join_of_gt hbc]
  · rw [join_of_lt hab, join_of_eq hbc, join_of_lt (by omega), join_of_lt (by simpa using by omega)]
  · rw [join_of_lt hab, join_of_lt hbc, join_of_lt (by omega), join_of_lt hab]

theorem silent_join {r : Report} (h : -1 ≤ r.furthest) : silent.join r = r := by
  rcases Int.lt_or_eq_of_le h with h | h
  · exact join_of_gt h
  · rw [join_of_eq (by simpa [silent] using h)]
    simp [silent]

theorem join_silent {r : Report} (h : -1 ≤ r.furthest) : r.join silent = r := by
  rcases Int.lt_or_eq_of_le h with h | h
  · exact join_of_lt h
  · rw [join_of_eq (by simpa [silent] using h.symm)]
    cases r
    simp_all [silent]

end Report

/-- Outcome of one attempt to parse at one offset.  A success may carry a report too: that is how
the deepest failure of an abandoned branch survives. -/
structure Result (α : Type) extends Report where
  /-- Whether the attempt matched. -/
  status : Bool
  /-- Where to resume after a success. -/
  index : Nat
  /-- What a success produced. -/
  value : α

namespace Result

variable {α : Type}

/-- A success in which nothing failed. -/
def success (index : Nat) (value : α) : Result α := ⟨.silent, true, index, value⟩

/-- A failure at `index`, where `label` would have been accepted. -/
def failure [Inhabited α] (index : Nat) (label : String) : Result α :=
  ⟨.single index label, false, index, default⟩

/-- The newer result, with the older one's report joined to its own. -/
def merge (newer older : Result α) : Result α :=
  { newer with toReport := newer.toReport.join older.toReport }

/-- `merge` with the best result so far, if there is one. -/
def mergeWith (newer : Result α) : Option (Result α) → Result α
  | none => newer
  | some older => newer.merge older

@[simp] theorem status_merge (a b : Result α) : (a.merge b).status = a.status := rfl
@[simp] theorem index_merge (a b : Result α) : (a.merge b).index = a.index := rfl
@[simp] theorem value_merge (a b : Result α) : (a.merge b).value = a.value := rfl
@[simp] theorem toReport_merge (a b : Result α) :
    (a.merge b).toReport = a.toReport.join b.toReport := rfl

theorem merge_assoc (a b c : Result α) : (a.merge b).merge c = a.merge (b.merge c) := by
  simp [merge, Report.join_assoc]

@[simp] theorem mergeWith_none (a : Result α) : a.mergeWith none = a := rfl
@[simp] theorem mergeWith_some (a b : Result α) : a.mergeWith (some b) = a.merge b := rfl

/-- A merge decides nothing: the newer result's status stands. -/
@[simp] theorem status_mergeWith (a : Result α) (b : Option (Result α)) :
    (a.mergeWith b).status = a.status := by
  cases b <;> rfl

@[simp] theorem index_mergeWith (a : Result α) (b : Option (Result α)) :
    (a.mergeWith b).index = a.index := by
  cases b <;> rfl

@[simp] theorem value_mergeWith (a : Result α) (b : Option (Result α)) :
    (a.mergeWith b).value = a.value := by
  cases b <;> rfl

end Result

end Furthest
