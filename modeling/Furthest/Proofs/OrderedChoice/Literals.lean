import Mathlib.Order.Bounds.Basic
import Furthest.Machine.Run
import Furthest.Script.Eval
import Furthest.Proofs.Algebra.Regrouping
import Furthest.Proofs.EntryPoints.Whole
import Furthest.Proofs.Watched.Denotation
import Furthest.Proofs.Watched.Report

/-!
# Choices between texts

A parser of a given text matches where all of the text is found, and otherwise it reports how much
of it was: the length of the longest common prefix, which is told here by `Leaf.sharedLengths` alone
and not by the scan that computes it.

A choice between texts takes the first one that is found.  Every text that is missed leaves a
`Failure`, and `Report.ofFailures` says what several of them come to; so where all texts are missed,
the choice names those that were found furthest, the latest first (`Machine.run_literals`).
-/

namespace Furthest

variable {φ : Type}

/-! ## What two texts share -/

namespace Leaf

variable {as bs : List Char} {n : Nat}

/-- The lengths of the texts that two texts both start with. -/
def sharedLengths (as bs : List Char) : Set Nat :=
  {n | ∃ start, start <+: as ∧ start <+: bs ∧ start.length = n}

theorem length_le_commonPrefix {start : List Char} (ha : start <+: as) (hb : start <+: bs) :
    start.length ≤ commonPrefix as bs := by
  fun_induction commonPrefix as bs generalizing start with
  | case1 a as bs ih =>
    cases start with
    | nil => exact Nat.zero_le _
    | cons c start =>
      rw [List.cons_prefix_cons] at ha hb
      exact Nat.succ_le_succ (ih ha.2 hb.2)
  | case2 a as b bs hne =>
    cases start with
    | nil => exact Nat.le_refl 0
    | cons c start =>
      rw [List.cons_prefix_cons] at ha hb
      exact absurd (ha.1.symm.trans hb.1) hne
  | case3 as bs hnil =>
    cases start with
    | nil => exact Nat.le_refl 0
    | cons c start =>
      obtain ⟨as, rfl⟩ := ha
      obtain ⟨bs, rfl⟩ := hb
      exact (hnil _ _ _ _ rfl rfl).elim

theorem mem_sharedLengths_iff : n ∈ sharedLengths as bs ↔ n ≤ commonPrefix as bs := by
  constructor
  · rintro ⟨start, ha, hb, rfl⟩
    exact length_le_commonPrefix ha hb
  · intro hn
    have ha := hn.trans (commonPrefix_le_left as bs)
    refine ⟨as.take n, List.take_prefix n as, ?_, List.length_take_of_le ha⟩
    have hsame := congrArg (List.take n) (take_commonPrefix as bs)
    rw [List.take_take, List.take_take, Nat.min_eq_left hn] at hsame
    rw [hsame]
    exact List.take_prefix n bs

instance : Decidable (n ∈ sharedLengths as bs) := decidable_of_iff _ mem_sharedLengths_iff.symm

/-- What the scan for a mismatch computes is the length of the longest common prefix. -/
theorem isGreatest_commonPrefix (as bs : List Char) :
    IsGreatest (sharedLengths as bs) (commonPrefix as bs) :=
  ⟨mem_sharedLengths_iff.2 (Nat.le_refl _), fun _ => mem_sharedLengths_iff.1⟩

/-! ## One text -/

variable {text : String} {s : Input} {i : Nat}

/-- How a text that is missed is reported. -/
def missed (s : Input) (i : Nat) (text : String) : Failure :=
  ⟨"'" ++ text ++ "'", Watcher.mismatch text s i⟩

/-- The result of attempts that were all missed, given their failures in order. -/
def allMissed (i : Nat) (fs : List Failure) : Result (Value φ) :=
  ⟨.ofFailures fs, false, i, .null⟩

theorem string_of_found (h : text.toList <+: s.drop i) (hi : i ≤ s.length) :
    (Leaf.string text s i : Result (Value φ)) = .success (i + text.length) (.text text) := by
  have hfound : (text.toList.isPrefixOf (s.drop i) && decide (i ≤ s.length)) = true := by
    simp [List.isPrefixOf_iff_prefix.2 h, hi]
  rw [Leaf.string, if_pos hfound, String.length_toList]

theorem string_of_missed (h : ¬text.toList <+: s.drop i) :
    (Leaf.string text s i : Result (Value φ)) = allMissed i [missed s i text] := by
  have hmissed : ¬(text.toList.isPrefixOf (s.drop i) && decide (i ≤ s.length)) = true := by
    simp [List.isPrefixOf_iff_prefix, h]
  rw [Leaf.string, if_neg hmissed, allMissed, Report.ofFailures_single]
  rfl

/-- What is reported of a text that is missed: it ends nowhere past the end of either text. -/
theorem mismatch_lt (h : ¬text.toList <+: s.drop i) :
    Watcher.mismatch text s i < i + text.length := by
  have hne : commonPrefix text.toList (s.drop i) ≠ text.toList.length :=
    fun heq => h (commonPrefix_eq_length_iff.1 heq)
  have hle := commonPrefix_le_left text.toList (s.drop i)
  rw [Watcher.mismatch, ← String.length_toList]
  omega

end Leaf

/-! ## Several texts -/

section

open Leaf

/-- What is reported of texts that were missed one after another: how much the best of them share
with the text at the offset, and the labels of those, the latest first. -/
inductive ReportsMissed (s : Input) (i : Nat) : List String → Report → Prop where
  | none : ReportsMissed s i [] .silent
  | deepest {texts : List String} {j : Nat} :
    IsGreatest {n | ∃ text ∈ texts, n ∈ sharedLengths text.toList (s.drop i)} j →
    ReportsMissed s i texts ⟨(i + j : Nat),
      ((texts.filter fun text => j ∈ sharedLengths text.toList (s.drop i)).map
        fun text => "'" ++ text ++ "'").reverse⟩

theorem labelsAt_missed {s : Input} {i j : Nat} {texts : List String}
    (h : ∀ text ∈ texts, Watcher.mismatch text s i ≤ i + j) :
    Report.labelsAt (i + j) (texts.map (missed s i)) =
      ((texts.filter fun text => j ∈ sharedLengths text.toList (s.drop i)).map
        fun text => "'" ++ text ++ "'").reverse := by
  rw [Report.labelsAt, List.filter_map, List.map_map]
  have hfilter : texts.filter ((fun f : Failure => decide (f.offset = i + j)) ∘ missed s i) =
      texts.filter fun text => j ∈ sharedLengths text.toList (s.drop i) := by
    refine List.filter_congr fun text htext => ?_
    have hle := h text htext
    unfold Watcher.mismatch at hle
    refine decide_eq_decide.2 ?_
    rw [mem_sharedLengths_iff]
    show i + commonPrefix text.toList (s.drop i) = i + j ↔ _
    omega
  rw [hfilter]
  rfl

/-- The failures of several texts come to the longest of their common prefixes. -/
theorem reportsMissed_ofFailures (s : Input) (i : Nat) (texts : List String) :
    ReportsMissed s i texts (.ofFailures (texts.map (missed s i))) := by
  rcases Report.eq_nil_or_deepest (texts.map (missed s i)) with hnil | ⟨deepest, hmem, hle⟩
  · rw [List.map_eq_nil_iff] at hnil
    subst hnil
    exact .none
  · rw [Report.ofFailures_eq hmem hle]
    obtain ⟨_, hf, rfl⟩ := hmem
    obtain ⟨best, hbest, rfl⟩ := List.mem_map.1 hf
    have hbound : ∀ text ∈ texts, Watcher.mismatch text s i ≤ Watcher.mismatch best s i :=
      fun text htext => hle _ (List.mem_map_of_mem htext)
    have hgreatest : IsGreatest {n | ∃ text ∈ texts, n ∈ sharedLengths text.toList (s.drop i)}
        (commonPrefix best.toList (s.drop i)) := by
      refine ⟨⟨best, hbest, (isGreatest_commonPrefix _ _).1⟩, ?_⟩
      rintro n ⟨text, htext, hn⟩
      exact (mem_sharedLengths_iff.1 hn).trans (Nat.le_of_add_le_add_left (hbound text htext))
    have hlabels := labelsAt_missed hbound
    show ReportsMissed s i texts ⟨(i + commonPrefix best.toList (s.drop i) : Nat),
      Report.labelsAt (i + commonPrefix best.toList (s.drop i)) _⟩
    rw [hlabels]
    exact .deepest hgreatest

/-- The result of a choice between texts. -/
inductive ChoosesText (s : Input) (i : Nat) (texts : List String) : Result (Value φ) → Prop where
  /-- The first text that is found is taken; the report is that of the texts before it. -/
  | found {before after : List String} {text : String} {report : Report} :
    texts = before ++ text :: after → (∀ t ∈ before, ¬t.toList <+: s.drop i) →
    text.toList <+: s.drop i → ReportsMissed s i before report →
    ChoosesText s i texts ⟨report, true, i + text.length, .text text⟩
  /-- All texts are missed. -/
  | missed {report : Report} :
    (∀ t ∈ texts, ¬t.toList <+: s.drop i) → ReportsMissed s i texts report →
    ChoosesText s i texts ⟨report, false, i, .null⟩

/-- Some text is the first one that is found, or all are missed. -/
theorem exists_first_found (s : Input) (i : Nat) (texts : List String) :
    (∃ before text after, texts = before ++ text :: after ∧
      (∀ t ∈ before, ¬t.toList <+: s.drop i) ∧ text.toList <+: s.drop i) ∨
    ∀ t ∈ texts, ¬t.toList <+: s.drop i := by
  cases hfind : texts.find? fun t => t.toList.isPrefixOf (s.drop i) with
  | none =>
    refine .inr fun t ht hfound => ?_
    exact List.find?_eq_none.1 hfind t ht (List.isPrefixOf_iff_prefix.2 hfound)
  | some text =>
    obtain ⟨hfound, before, after, rfl, hbefore⟩ := List.find?_eq_some_iff_append.1 hfind
    refine .inl ⟨before, text, after, rfl, fun t ht hfound => ?_,
      List.isPrefixOf_iff_prefix.1 hfound⟩
    simpa [List.isPrefixOf_iff_prefix.2 hfound] using hbefore t ht

end

/-! ## Attempts at texts -/

namespace Behaviour

open Leaf

variable {σ : Type} {p : Behaviour (EStateM (Halt φ) σ) φ}
  {ps : List (Behaviour (EStateM (Halt φ) σ) φ)} {text : String} {texts : List String}
  {s : Input} {i : Nat} {env : Value φ} {w : σ}

/-- In a state, a behaviour does at one place what the parser of a text does. -/
abbrev ReadsText (s : Input) (i : Nat) (env : Value φ) (w : σ)
    (p : Behaviour (EStateM (Halt φ) σ) φ) (text : String) : Prop :=
  p s i env w = .ok (Leaf.string text s i) w

/-- A choice goes on from attempts of which none has failed yet. -/
theorem alt_eq_orElse (hi : i ≤ s.length) (hp : ReadsText s i env w p text)
    (ps : List (Behaviour (EStateM (Halt φ) σ) φ)) :
    alt p ps s i env w = orElse s i env (p :: ps) (allMissed i []) w := by
  have hsilent : (Leaf.string text s i : Result (Value φ)).merge (allMissed i []) =
      Leaf.string text s i := by
    have hle := (Leaf.wellFormed_string (φ := φ) text hi).fits.neg_one_le
    rw [Result.merge, allMissed, Report.ofFailures_nil, Report.join_silent hle]
  rw [alt_apply, orElse_cons _ _ _ _ _ rfl, bind_of_ok hp, bind_of_ok hp, hsilent]

/-- One more text is missed. -/
theorem orElse_cons_of_missed (hp : ReadsText s i env w p text)
    (hmissed : ¬text.toList <+: s.drop i) (ps : List (Behaviour (EStateM (Halt φ) σ) φ))
    (earlier : List Failure) :
    orElse s i env (p :: ps) (allMissed i earlier) w =
      orElse s i env ps (allMissed i (earlier ++ [missed s i text])) w := by
  rw [orElse_cons _ _ _ _ _ rfl, bind_of_ok hp, string_of_missed hmissed, Result.merge, allMissed,
    allMissed, allMissed, Report.ofFailures_append]

theorem orElse_of_missed (hps : List.Forall₂ (ReadsText s i env w) ps texts)
    (hmissed : ∀ t ∈ texts, ¬t.toList <+: s.drop i) (earlier : List Failure) :
    orElse s i env ps (allMissed i earlier) w =
      .ok (allMissed i (earlier ++ texts.map (missed s i))) w := by
  induction hps generalizing earlier with
  | nil => rw [List.map_nil, List.append_nil, orElse_nil]; rfl
  | @cons p text ps texts hp _ ih =>
    rw [List.forall_mem_cons] at hmissed
    rw [orElse_cons_of_missed hp hmissed.1, ih hmissed.2, List.map_cons, List.append_assoc,
      List.singleton_append]

theorem orElse_of_found {before after : List String} (hi : i ≤ s.length)
    (hps : List.Forall₂ (ReadsText s i env w) ps (before ++ text :: after))
    (hbefore : ∀ t ∈ before, ¬t.toList <+: s.drop i) (hfound : text.toList <+: s.drop i)
    (earlier : List Failure) :
    orElse s i env ps (allMissed i earlier) w =
      .ok ⟨.ofFailures (earlier ++ before.map (missed s i)), true, i + text.length, .text text⟩
        w := by
  induction before generalizing ps earlier with
  | nil =>
    obtain ⟨p, ps, hp, -, rfl⟩ := List.forall₂_cons_right_iff.1 hps
    rw [orElse_cons _ _ _ _ _ rfl, bind_of_ok hp, string_of_found hfound hi,
      orElse_of_match _ _ _ _ rfl, Result.success_merge (Report.neg_one_le_ofFailures earlier),
      List.map_nil, List.append_nil]
    rfl
  | cons t before ih =>
    obtain ⟨p, ps, hp, hrest, rfl⟩ := List.forall₂_cons_right_iff.1 hps
    rw [List.forall_mem_cons] at hbefore
    rw [orElse_cons_of_missed hp hbefore.1, ih hrest hbefore.2, List.map_cons, List.append_assoc,
      List.singleton_append]

/-- A choice between behaviours that read texts chooses a text. -/
theorem chooses_alt (hi : i ≤ s.length)
    (hps : List.Forall₂ (ReadsText s i env w) (p :: ps) texts) :
    ∃ result, alt p ps s i env w = .ok result w ∧ ChoosesText s i texts result := by
  obtain ⟨text, others, hp, -, rfl⟩ := List.forall₂_cons_left_iff.1 hps
  rw [alt_eq_orElse hi hp]
  rcases exists_first_found s i (text :: others) with ⟨before, found, after, heq, hbefore, hfound⟩ |
    hmissed
  · refine ⟨_, orElse_of_found hi (heq ▸ hps) hbefore hfound [], ?_⟩
    exact .found heq hbefore hfound (reportsMissed_ofFailures s i before)
  · exact ⟨_, orElse_of_missed hps hmissed [], .missed hmissed (reportsMissed_ofFailures s i _)⟩

end Behaviour

/-! ## Objects -/

namespace Machine

open Leaf Behaviour

variable [FunctionText φ] {apply : Tools φ → φ → List (Value φ) → Machine φ (Value φ)}
  {budget depth : Nat} {w : World φ} {r : Ref} {s : Input} {i : Nat} {env : Value φ}

theorem run_string {text : String} (h : (w.cell r).behaviour = .string text) :
    ReadsText s i env w ((tools apply budget (depth + 1)).run r) text := by
  show (w.cell r).behaviour.denote (host (tools apply budget depth)) s i env w = _
  rw [h]
  rfl

theorem run_alt {first : Ref} {others : List Ref}
    (h : (w.cell r).behaviour = .alt (.object first) (others.map .object)) :
    (tools apply budget (depth + 1)).run r s i env w =
      alt ((tools apply budget depth).run first) (others.map (tools apply budget depth).run) s i env
        w := by
  show (w.cell r).behaviour.denote (host (tools apply budget depth)) s i env w = _
  rw [h, Grammar.denote_alt, List.map_map]
  rfl

/-- The parser of a text shares with the text at the offset as much as it reports: it matches if
that is all of it, with nothing to report, and otherwise fails where the texts part, which is before
the end of either.  A choice between such parsers takes the first text that is found there; if there
is none it fails as deep as the longest common prefix of them all, and names those that get
there. -/
theorem run_literals (hi : i ≤ s.length) (env : Value φ) (w : World φ) (budget depth : Nat) :
    (∀ r text, (w.cell r).behaviour = .string text →
      ∃ j result, IsGreatest (sharedLengths text.toList (s.drop i)) j ∧
        (tools apply budget (depth + 1)).run r s i env w = .ok result w ∧
        (result.status = true ↔ j = text.length) ∧
        (j = text.length → result = ⟨⟨-1, []⟩, true, i + text.length, .text text⟩) ∧
        (j ≠ text.length →
          result = ⟨⟨(i + j : Nat), ["'" ++ text ++ "'"]⟩, false, i, .null⟩ ∧
          i ≤ i + j ∧ i + j < i + text.length ∧ i + j ≤ s.length)) ∧
    ∀ r first others texts, (w.cell r).behaviour = .alt (.object first) (others.map .object) →
      List.Forall₂ (fun o text => (w.cell o).behaviour = .string text) (first :: others) texts →
      ∃ result, (tools apply budget (depth + 2)).run r s i env w = .ok result w ∧
        ChoosesText s i texts result := by
  refine ⟨fun r text h => ?_, fun r first others texts h htexts => ?_⟩
  · refine ⟨commonPrefix text.toList (s.drop i), Leaf.string text s i, isGreatest_commonPrefix _ _,
      run_string h, ?_⟩
    have hall : commonPrefix text.toList (s.drop i) = text.length ↔ text.toList <+: s.drop i := by
      rw [← String.length_toList, commonPrefix_eq_length_iff]
    by_cases hfound : text.toList <+: s.drop i
    · rw [string_of_found hfound hi]
      exact ⟨iff_of_true rfl (hall.2 hfound), fun _ => rfl, fun hne => absurd (hall.2 hfound) hne⟩
    · have hne := mt hall.1 hfound
      have hright := commonPrefix_le_right text.toList (s.drop i)
      rw [List.length_drop] at hright
      rw [string_of_missed hfound, allMissed, Report.ofFailures_single]
      refine ⟨iff_of_false nofun hne, fun heq => absurd heq hne, fun _ => ⟨rfl, ?_⟩⟩
      exact ⟨Nat.le_add_right _ _, mismatch_lt hfound, by omega⟩
  · have hread : List.Forall₂ (ReadsText s i env w)
        ((first :: others).map (tools apply budget (depth + 1)).run) texts :=
      List.forall₂_map_left_iff.2 (htexts.imp fun _ _ => run_string)
    rw [run_alt h]
    exact chooses_alt hi hread

section

open Script (Function applyFunction)

/-- A world with three texts and the choice between them. -/
def threeTexts : World Function :=
  { World.initial with
    cells := World.initial.cells ++ #[⟨.string "for", .null⟩, ⟨.string "foo", .null⟩,
      ⟨.string "far", .null⟩, ⟨.alt (.object 5) [.object 6, .object 7], .null⟩] }

/-- `-fo` ends inside the first text.  In `-fox` the first two texts are found up to the same place
and the third one is not; in `-foo` the second one is found. -/
theorem run_literals_threeTexts :
    (IsGreatest (sharedLengths "for".toList "fo".toList) 2 ∧
      (tools (applyFunction []) 0 2).run 5 "-fo".toList 1 .null threeTexts =
        .ok ⟨⟨3, ["'for'"]⟩, false, 1, .null⟩ threeTexts) ∧
    (ChoosesText "-fox".toList 1 ["for", "foo", "far"]
        (⟨⟨3, ["'foo'", "'for'"]⟩, false, 1, .null⟩ : Result (Value Function)) ∧
      (tools (applyFunction []) 0 2).run 8 "-fox".toList 1 .null threeTexts =
        .ok ⟨⟨3, ["'foo'", "'for'"]⟩, false, 1, .null⟩ threeTexts) ∧
    ChoosesText "-foo".toList 1 ["for", "foo", "far"]
        (⟨⟨3, ["'for'"]⟩, true, 4, .text "foo"⟩ : Result (Value Function)) ∧
      (tools (applyFunction []) 0 2).run 8 "-foo".toList 1 .null threeTexts =
        .ok ⟨⟨3, ["'for'"]⟩, true, 4, .text "foo"⟩ threeTexts := by
  have htexts : List.Forall₂ (fun o text => (threeTexts.cell o).behaviour = .string text) [5, 6, 7]
      ["for", "foo", "far"] := .cons rfl (.cons rfl (.cons rfl .nil))
  have hrun : ∀ text : Input, 1 ≤ text.length → ∃ result,
      (tools (applyFunction []) 0 2).run 8 text 1 .null threeTexts = .ok result threeTexts ∧
        ChoosesText text 1 ["for", "foo", "far"] result := fun text h =>
    (run_literals h .null threeTexts 0 0).2 8 5 [6, 7] _ rfl htexts
  obtain ⟨_, hfox, hmissed⟩ := hrun "-fox".toList (by decide)
  obtain ⟨_, hfoo, hfound⟩ := hrun "-foo".toList (by decide)
  obtain ⟨j, _, hj, hfo, -, -, hshort⟩ :=
    (@run_literals Function _ (applyFunction []) "-fo".toList 1 (by decide) .null threeTexts 0 1).1
      5 "for" rfl
  obtain rfl : j = 2 := hj.unique (isGreatest_commonPrefix "for".toList "fo".toList)
  obtain ⟨rfl, -⟩ := hshort (by decide)
  cases hfox
  cases hfoo
  exact ⟨⟨hj, hfo⟩, ⟨hmissed, rfl⟩, hfound, rfl⟩

end

end Machine

end Furthest
