import Furthest.Proofs.Deferred.OwnRules
import Furthest.Proofs.Parallel.Runs

/-!
# Labels and traces decide nothing

Two systems of parser objects that differ in labels, in relabelled parts and in traced parts come to
the same results but for what they say was expected, and to the very same results if only traces
differ (`Machine.run_of_twin`).
-/

namespace Furthest

/-- A result without what it says was expected. -/
def Result.unlabelled {α : Type} (r : Result α) : Result α := { r with expected := [] }

/-- One text on both sides. -/
def Difference.labels (sameLabels : Prop) : Difference := ⟨[], [], sameLabels⟩

variable {φ : Type}

theorem looksAtNoValue_unlabelled : LooksAtNoValue (φ := φ) Result.unlabelled :=
  fun _ _ _ h => ⟨by simp only [Result.unlabelled, h.toReport_eq], h.status_eq, h.index_eq,
    h.value_like⟩

namespace Difference

variable {sameLabels : Prop}

theorem unmoved_labels : (labels sameLabels).Unmoved := ⟨rfl, rfl⟩

theorem Results.unlabelled_eq {V : Value φ → Prop} {r r' : Result (Value φ)}
    (h : (labels sameLabels).Results V r r') : r.unlabelled = r'.unlabelled := by
  have h' : (labels True).Results V r.unlabelled r'.unlabelled :=
    ⟨⟨h.reports.furthest, fun _ => rfl⟩, h.status_eq, h.place, h.value_eq, h.value_mem,
      h.value_of_failure⟩
  exact h'.eq unmoved_labels trivial

end Difference

variable [FunctionText φ]

namespace Machine

variable {R : Rules φ} {V : Value φ → Prop} {T : Ref → Ref → Prop}
  {B₁ B₂ : Bond φ} {w₁ w₂ : World φ}
  {apply : Tools φ → φ → List (Value φ) → Machine φ (Value φ)} {r₁ r₂ r r' : Ref}
  {env₁ env₂ env : Value φ} {sameLabels : Prop}

/-- Two results that only differ in what they say was expected, and not even in that if labels are
the same. -/
def SameButLabels (sameLabels : Prop) (names names' : Ref → Option String)
    (result result' : Result (Value φ)) : Prop :=
  SameOutcome names names' (.ok result.unlabelled) (.ok result'.unlabelled) ∧
    (sameLabels → SameOutcome names names' (.ok result) (.ok result'))

/-- Where one of two objects that differ in labels and wrappers comes to a result, the other one
yields the same result but for labels. -/
theorem yields_of_twin (hpure : ∀ budget, PureFunctions apply budget R) (hV : Domain V)
    (hT : ∀ r r', T r r' → R.Twin V (.labels sameLabels) T (R.rule r) (R.rule r'))
    (hw₁ : Faithful R B₁ w₁) (hw₂ : Faithful R B₂ w₂) (hr₁ : B₁.objects r₁ = some r)
    (hr₂ : B₂.objects r₂ = some r') (hr : T r r') (henv₁ : Value.Like B₁ env₁ env)
    (henv₂ : Value.Like B₂ env₂ env) (henv : V env) (s : Input) (i : Nat)
    {result : Result (Value φ)} {w₁' : World φ}
    (hrun : ComesTo apply r₁ s i env₁ w₁ (.ok result) w₁') :
    Yields apply r₂ s i env₂ w₂ fun result' w₂' =>
      SameButLabels sameLabels w₁'.names w₂'.names result result' := by
  have hgives : ∀ given, R.Gives r s i env (.ok given) → ∃ given',
      R.Gives r' s i env (.ok given') ∧ (Difference.labels sameLabels).Results V given given' :=
    fun given hgiven => R.gives_of_twin s hV hT hr
      (Difference.unmoved_labels.place_iff.2 rfl) henv hgiven
  refine Yields.and ?_ fun hl => ?_
  · exact yields_of_gives hpure hw₁ hw₂ hr₁ hr₂ henv₁ henv₂ looksAtNoValue_unlabelled
      looksAtNoValue_unlabelled
      (fun given hgiven => (hgives given hgiven).imp fun _ h => ⟨h.1, h.2.unlabelled_eq⟩) hrun
  · exact yields_of_gives hpure hw₁ hw₂ hr₁ hr₂ henv₁ henv₂ looksAtNoValue_id looksAtNoValue_id
      (fun given hgiven => (hgives given hgiven).imp fun _ h =>
        ⟨h.1, h.2.eq Difference.unmoved_labels hl⟩) hrun

/-- Labels and wrappers decide nothing: where either of two objects that differ in them comes to a
result, the other one comes to the same result, but for what it says was expected. -/
theorem run_of_twin (hpure : ∀ budget, PureFunctions apply budget R) (hV : Domain V)
    (hT : ∀ r r', T r r' → R.Twin V (.labels sameLabels) T (R.rule r) (R.rule r'))
    (hw₁ : Faithful R B₁ w₁) (hw₂ : Faithful R B₂ w₂) (hr₁ : B₁.objects r₁ = some r)
    (hr₂ : B₂.objects r₂ = some r') (hr : T r r') (henv₁ : Value.Like B₁ env₁ env)
    (henv₂ : Value.Like B₂ env₂ env) (henv : V env) (s : Input) (i : Nat) :
    (∀ result w₁', ComesTo apply r₁ s i env₁ w₁ (.ok result) w₁' →
      Yields apply r₂ s i env₂ w₂ fun result' w₂' =>
        SameButLabels sameLabels w₁'.names w₂'.names result result') ∧
    (∀ result' w₂', ComesTo apply r₂ s i env₂ w₂ (.ok result') w₂' →
      Yields apply r₁ s i env₁ w₁ fun result w₁' =>
        SameButLabels sameLabels w₂'.names w₁'.names result' result) :=
  ⟨fun _ _ => yields_of_twin hpure hV hT hw₁ hw₂ hr₁ hr₂ hr henv₁ henv₂ henv s i,
    fun _ _ => yields_of_twin hpure hV (T := fun r r' => T r' r) (fun r r' h => (hT r' r h).swap) hw₂
      hw₁ hr₂ hr₁ hr henv₂ henv₁ henv s i⟩

/-! ## Two characters -/

section

open Script (Function applyFunction)

/-- A world with a parser of two characters, and with one that has a label and a trace; each is made
by the function of a deferred parser. -/
def pairs : World Function :=
  { World.initial with
    cells := World.initial.cells ++ #[⟨.deferred 0, .null⟩, ⟨.deferred 1, .null⟩,
      ⟨.seq [.object Ref.anyChar, .object Ref.anyChar], .null⟩,
      ⟨.relabel (.seq [.object Ref.anyChar, .trace (.object Ref.anyChar) (.text "second")])
        "two characters", .null⟩]
    deferrals := #[.fresh (objectThunk 7) 5, .fresh (objectThunk 8) 6] }

theorem pairs_not_custom (r : Ref) (f : Function) :
    (pairs.cell r).behaviour ≠ .custom (.function f) := by
  match r with
  | 0 | 1 | 2 | 3 | 4 | 5 | 6 | 7 | 8 | _ + 9 => nofun

/-- What that world says of its objects. -/
def pairRules : Rules Function :=
  .own pairs (· + 7) (fun _ => False) (fun _ _ => .error .noAlternatives) pairs_not_custom

/-- The objects of that world, each for itself. -/
def pairBond : Bond Function := .own pairs 9 fun _ => False

theorem pureFunctions_pairs (budget : Nat) :
    PureFunctions (applyFunction []) budget pairRules := by
  refine pureFunctions_own nofun nofun fun d hd depth w => ?_
  match d, hd with
  | 0, _ => exact call_objectThunk 7 budget depth w
  | 1, _ => exact call_objectThunk 8 budget depth w

theorem unused_pairs : pairs.Unused 9 where
  self_lt {d} hd := by
    match d, hd with
    | 0, _ | 1, _ => decide
  behaviour_eq {d} hd := by
    match d, hd with
    | 0, _ | 1, _ => rfl
  target_eq d := by rcases d with _ | _ | d <;> rfl
  made_eq d := by rcases d with _ | _ | d <;> rfl

theorem faithful_pairs : Faithful pairRules pairBond pairs := by
  refine faithful_own (by decide) (by decide) unused_pairs ?_ fun r hr => ?_
  · exact fun d hd => Nat.add_lt_add_right hd 7
  match r, hr with
  | 0, _ => exact .offset
  | 1, _ => exact .position
  | 2, _ => exact .eof
  | 3, _ => exact .anyChar
  | 4, _ => exact .rest
  | 5, _ | 6, _ => exact .deferred rfl
  | 7, _ => exact .seq (.cons (.object rfl) (.cons (.object rfl) .nil))
  | 8, _ =>
    exact .relabel _ (.seq (.cons (.object rfl) (.cons (.trace (.object rfl) (.text _)) .nil)))

/-- Which objects differ in labels and traces only. -/
inductive PairTwin : Ref → Ref → Prop where
  | anyChar : PairTwin Ref.anyChar Ref.anyChar
  | deferred : PairTwin 5 6
  | pair : PairTwin 7 8

theorem twin_pairs (r r' : Ref) (h : PairTwin r r') :
    pairRules.Twin (fun _ => True) (.labels False) PairTwin (pairRules.rule r)
      (pairRules.rule r') := by
  cases h with
  | anyChar => exact .anyChar
  | deferred => exact .deferred .pair
  | pair =>
    exact .relabel_right _ (.seq (.cons (.object .anyChar)
      (.cons (.trace_right _ (.object .anyChar)) .nil))) id

/-- Both deferred parsers, used for the first time, fail after the first character of `"a"`, and
expect something else there. -/
theorem run_of_twin_pairs : ∃ result w₁ result' w₂,
    (pairs.deferral 0).target = .null ∧ (pairs.deferral 1).target = .null ∧
    ComesTo (applyFunction []) 5 ['a'] 0 .null pairs (.ok result) w₁ ∧
    ComesTo (applyFunction []) 6 ['a'] 0 .null pairs (.ok result') w₂ ∧
    result.toReport = ⟨1, ["any character"]⟩ ∧
    result.unlabelled = result'.unlabelled := by
  obtain ⟨result, w₁, hrun, hreport, hplain⟩ : ∃ result w₁,
      (tools (applyFunction []) 9 9).run 5 ['a'] 0 .null pairs = settledIn (.ok result) w₁ ∧
      result.toReport = ⟨1, ["any character"]⟩ ∧ result.unlabelled.value.Plain :=
    ⟨_, _, rfl, rfl, trivial⟩
  have hplainPair : pairBond.objects 5 = some 5 := rfl
  have hlabelled : pairBond.objects 6 = some 6 := rfl
  obtain ⟨hforth, -⟩ := run_of_twin pureFunctions_pairs domain_true twin_pairs faithful_pairs
    faithful_pairs hplainPair hlabelled .deferred .null .null trivial ['a'] 0
  have hyields := hforth result w₁ ⟨9, 9, hrun⟩
  obtain ⟨_, w₂, hrun'⟩ := hyields.ends
  obtain ⟨result', rfl, hsame, -⟩ := hyields.result hrun'
  cases hsame with
  | ok _ _ _ _ heq =>
    exact ⟨result, w₁, result', w₂, rfl, rfl, ⟨9, 9, hrun⟩, hrun', hreport, heq hplain⟩

end

end Machine

end Furthest
