import Furthest.Proofs.Deferred.Gives
import Furthest.Proofs.Deferred.OwnRules

/-!
# What was parsed before makes no difference

A `History` runs, parses with and clones the objects of a world in any order; a run may also have
ended in a fault.  Afterwards each object, and each clone, still does what it did in the world that
the history started from, and what it does in the system in which deferred parsers are their targets
(`Machine.run_after_history`).  No function of a deferred parser has made anything more than once.
-/

namespace Furthest

variable {φ : Type}

namespace Bond

/-- The bond of objects that were made from the bonded ones. -/
def along (B : Bond φ) (origin : Ref → Option Ref) : Bond φ :=
  { B with objects := fun r => (origin r).bind B.objects }

/-- A clone has the origin of what was cloned. -/
theorem along_update_le {B B' : Bond φ} {origin : Ref → Option Ref} {r₀ r' : Ref}
    (hB : B.along origin ≤ B') (hr₀ : B.objects r₀ = some r') {c : Ref} (hc : B'.objects c = none) :
    B.along (Function.update origin c (some r₀)) ≤ B'.insert c r' := by
  refine ⟨fun {r₁ r₁'} h₁ => ?_, hB.deferrals, hB.functions, hB.thunks⟩
  by_cases he : r₁ = c
  · subst he
    have hupdate : B.objects r₀ = some r₁' := by
      simpa only [along, Function.update_self, Option.bind_some] using h₁
    exact (Function.update_self _ _ _).trans (hr₀.symm.trans hupdate)
  · refine (le_insert hc r').objects (hB.objects ?_)
    simpa only [along, Function.update_of_ne he] using h₁

end Bond

namespace World

theorem cell_push (w : World φ) (c : Cell φ) (r : Ref) :
    ({ w with cells := w.cells.push c }).cell r = if r = w.cells.size then c else w.cell r := by
  unfold cell
  rw [Array.getElem?_push]
  split <;> rfl

end World

variable [FunctionText φ] {R : Rules φ} {B : Bond φ} {w : World φ}

theorem Models.objects_size (h : Models R B w) : B.objects w.cells.size = none := by
  cases hr : B.objects w.cells.size with
  | none => rfl
  | some r' => exact absurd (h.object_lt hr) (Nat.lt_irrefl _)

omit [FunctionText φ] in
theorem ModelsDeferral.mono {B' : Bond φ} (hB : B ≤ B') {x : Deferral φ} {d' : DeferralRef}
    (h : ModelsDeferral R B x d') : ModelsDeferral R B' x d' where
  self := by
    obtain ⟨r', hr', hrule⟩ := h.self
    exact ⟨r', hB.objects hr', hrule⟩
  target := by
    rcases h.target with ⟨hnull, hthunk⟩ | ⟨r, hr, hobject⟩
    · exact Or.inl ⟨hnull, hB.thunks hthunk⟩
    · exact Or.inr ⟨r, hr, hB.objects hobject⟩

/-- A clone stands for what the cloned object stands for. -/
theorem Models.clone (h : Models R B w) {r r' : Ref} (hr : B.objects r = some r') :
    Models R (B.insert w.cells.size r') { w with cells := w.cells.push (w.cell r) } := by
  have hB := Bond.le_insert h.objects_size r'
  -- an object is either the clone or one from before
  have hold : ∀ {r₁ r₁'}, (B.insert w.cells.size r').objects r₁ = some r₁' →
      (r₁ = w.cells.size ∧ r₁' = r') ∨ (r₁ ≠ w.cells.size ∧ B.objects r₁ = some r₁') := by
    intro r₁ r₁' h₁
    by_cases he : r₁ = w.cells.size
    · subst he
      exact Or.inl ⟨rfl, Option.some.inj (h₁.symm.trans (Function.update_self _ _ _))⟩
    · exact Or.inr ⟨he, (Function.update_of_ne he _ _).symm.trans h₁⟩
  refine ⟨hB.objects h.eof, R.admits_insert h.admitted h.objects_size, ?_, ?_, h.deferral_lt,
    fun hd => (h.deferral hd).mono hB, ?_, ?_, ?_⟩
  · intro r₁ r₁' h₁
    rw [Array.size_push]
    rcases hold h₁ with ⟨rfl, -⟩ | ⟨-, h₁⟩
    · exact Nat.lt_succ_self _
    · exact Nat.lt_succ_of_lt (h.object_lt h₁)
  · intro r₁ r₁' h₁
    rw [World.cell_push]
    rcases hold h₁ with ⟨rfl, rfl⟩ | ⟨hne, h₁⟩
    · rw [if_pos rfl]
      exact (h.stands hr).mono hB
    · rw [if_neg hne]
      exact (h.stands h₁).mono hB
  · intro r₁ r₁' h₁
    unfold World.names
    rw [World.cell_push]
    rcases hold h₁ with ⟨rfl, rfl⟩ | ⟨hne, h₁⟩
    · rw [if_pos rfl]
      exact h.texts.names_eq hr
    · rw [if_neg hne]
      exact h.texts.names_eq h₁
  · exact h.texts.display_eq
  · exact h.texts.typeName_eq

theorem Faithful.clone (h : Faithful R B w) {r r' : Ref} (hr : B.objects r = some r') :
    Faithful R (B.insert w.cells.size r') { w with cells := w.cells.push (w.cell r) } :=
  ⟨h.models.clone hr, h.counted⟩

/-! ## Histories -/

/-- What may be done with the objects of a world, and with clones of them: `origin` tells for each
from which object of the first world it comes. -/
inductive History (apply : Tools φ → φ → List (Value φ) → Machine φ (Value φ)) (B : Bond φ)
    (w₀ : World φ) : (Ref → Option Ref) → World φ → Prop where
  | fresh : History apply B w₀ some w₀
  | run {origin : Ref → Option Ref} {w w' : World φ} {r r' : Ref} {env env' : Value φ}
    (budget depth : Nat) (s : Input) (i : Nat) {o : Except (Fault φ) (Result (Value φ))} :
    History apply B w₀ origin w → (B.along origin).objects r = some r' →
    Value.Like (B.along origin) env env' →
    (Machine.tools apply budget depth).run r s i env w = settledIn o w' →
    History apply B w₀ origin w'
  | parse {origin : Ref → Option Ref} {w w' : World φ} {r r' : Ref} {env env' : Value φ}
    (budget depth : Nat) (s : Input) {o : Except (Fault φ) (Outcome φ)} :
    History apply B w₀ origin w → (B.along origin).objects r = some r' →
    Value.Like (B.along origin) env env' →
    (Machine.host (Machine.tools apply budget depth)).parse r s env w = settledIn o w' →
    History apply B w₀ origin w'
  | clone {origin : Ref → Option Ref} {w w' : World φ} {r r₀ r' c : Ref} :
    History apply B w₀ origin w → origin r = some r₀ → B.objects r₀ = some r' →
    Machine.clone r w = .ok c w' →
    History apply B w₀ (Function.update origin c (some r₀)) w'

variable {apply : Tools φ → φ → List (Value φ) → Machine φ (Value φ)} {w₀ : World φ}
  {origin : Ref → Option Ref}

/-- Every history leads to a world that models the rules. -/
theorem History.faithful (hpure : ∀ budget, PureFunctions apply budget R)
    (h₀ : Faithful R B w₀) (h : History apply B w₀ origin w) :
    ∃ B', B.along origin ≤ B' ∧ Faithful R B' w := by
  induction h with
  | fresh => exact ⟨B, le_refl B, h₀⟩
  | run budget depth s i _ hr henv hrun ih =>
    obtain ⟨B₁, hB₁, hw₁⟩ := ih
    obtain ⟨B₂, _, hB₂, hw₂, -⟩ :=
      (Machine.agrees_run (hpure budget) hw₁ (hB₁.objects hr) (henv.mono hB₁) s i).forth hrun
    exact ⟨B₂, hB₁.trans hB₂, hw₂⟩
  | parse budget depth s _ hr henv hparse ih =>
    obtain ⟨B₁, hB₁, hw₁⟩ := ih
    obtain ⟨B₂, _, hB₂, hw₂, -⟩ :=
      (Machine.agrees_parse (hpure budget) hw₁ (hB₁.objects hr) (henv.mono hB₁) s).forth hparse
    exact ⟨B₂, hB₁.trans hB₂, hw₂⟩
  | clone _ hr hr₀ hclone ih =>
    obtain ⟨B₁, hB₁, hw₁⟩ := ih
    cases hclone
    refine ⟨_, Bond.along_update_le hB₁ hr₀ hw₁.models.objects_size, hw₁.clone (hB₁.objects ?_)⟩
    exact (congrArg (·.bind B.objects) hr).trans hr₀

/-! ## Outcomes -/

/-- Two outcomes that a user cannot tell apart: two results that agree but for references and
functions in their values, which are worded alike, or two faults of one kind with one message. -/
inductive SameOutcome (names names' : Ref → Option String) :
    Except (Fault φ) (Result (Value φ)) → Except (Fault φ) (Result (Value φ)) → Prop where
  | ok {r r' : Result (Value φ)} : r.toReport = r'.toReport → r.status = r'.status →
    r.index = r'.index → r.value.describe names = r'.value.describe names' →
    (r.value.Plain → r = r') → SameOutcome names names' (.ok r) (.ok r')
  | error {e e' : Fault φ} : e.kind = e'.kind → e.message names = e'.message names' →
    SameOutcome names names' (.error e) (.error e')

/-- An outcome in a world is what the rules give, if objects are taken for what they stand for. -/
def Stated (R : Rules φ) (B : Bond φ) (w : World φ)
    (o o' : Except (Fault φ) (Result (Value φ))) : Prop :=
  ∃ B', B ≤ B' ∧ Faithful R B' w ∧ Related B' ((Bond.likeness φ).results B') o o'

theorem Stated.same {B₀ : Bond φ} {o o₀ o' : Except (Fault φ) (Result (Value φ))}
    (h : Stated R B w o o') (h₀ : Stated R B₀ w₀ o₀ o') :
    SameOutcome w.names w₀.names o o₀ := by
  obtain ⟨B₁, -, hw, ho⟩ := h
  obtain ⟨B₂, -, hw₀, ho₀⟩ := h₀
  cases ho with
  | ok hr =>
    cases ho₀ with
    | ok hr₀ =>
      refine .ok (hr.toReport_eq.trans hr₀.toReport_eq.symm)
        (hr.status_eq.trans hr₀.status_eq.symm) (hr.index_eq.trans hr₀.index_eq.symm) ?_ ?_
      · have htext := Value.Like.describe_eq hw.models.texts hr.value_like
        exact htext.trans (Value.Like.describe_eq hw₀.models.texts hr₀.value_like).symm
      · intro hplain
        have hplain₀ := hr₀.value_like.plain_iff.2 (hr.value_like.plain_iff.1 hplain)
        have hleft := hr.eq_of_value (hr.value_like.eq_of_plain hplain)
        exact hleft.trans (hr₀.eq_of_value (hr₀.value_like.eq_of_plain hplain₀)).symm
  | error he =>
    cases ho₀ with
    | error he₀ =>
      refine .error (he.kind_eq.trans he₀.kind_eq.symm) ?_
      have htext := he.message_eq hw.models.texts
      exact htext.trans (he₀.message_eq hw₀.models.texts).symm

namespace Machine

/-- Running an object comes to an outcome within some bounds, and leaves a world. -/
def ComesTo (apply : Tools φ → φ → List (Value φ) → Machine φ (Value φ)) (r : Ref) (s : Input)
    (i : Nat) (env : Value φ) (w : World φ) (o : Except (Fault φ) (Result (Value φ)))
    (w' : World φ) : Prop :=
  ∃ budget depth, (tools apply budget depth).run r s i env w = settledIn o w'

/-- Running an object runs what it does now, one depth later. -/
theorem comesTo_iff_denote {r : Ref} {s : Input} {i : Nat} {env : Value φ}
    {o : Except (Fault φ) (Result (Value φ))} {w' : World φ} :
    ComesTo apply r s i env w o w' ↔ ∃ budget depth,
      (w.cell r).behaviour.denote (host (tools apply budget depth)) s i env w = settledIn o w' := by
  constructor
  · rintro ⟨budget, depth, h⟩
    cases depth with
    | zero => cases o <;> cases h
    | succ depth => exact ⟨budget, depth, h⟩
  · rintro ⟨budget, depth, h⟩
    exact ⟨budget, depth + 1, h⟩

section

variable {r r' : Ref} {env env' : Value φ} {s : Input} {i : Nat}
  {o o' : Except (Fault φ) (Result (Value φ))} {B' : Bond φ}

theorem ComesTo.stated {w' : World φ} (h : ComesTo apply r s i env w o w')
    (hpure : ∀ budget, PureFunctions apply budget R) (hB : B ≤ B')
    (hw : Faithful R B' w) (hr : B.objects r = some r') (henv : Value.Like B env env') :
    ∃ o', R.Gives r' s i env' o' ∧ Stated R B w' o o' := by
  obtain ⟨budget, depth, hrun⟩ := h
  obtain ⟨B₁, o', hB₁, hw', ho, hgives⟩ :=
    (agrees_run (hpure budget) hw (hB.objects hr) (henv.mono hB) s i).forth hrun
  exact ⟨o', ⟨budget, hgives.exists⟩, B₁, hB.trans hB₁, hw', ho⟩

theorem comesTo_of_gives (h : R.Gives r' s i env' o')
    (hpure : ∀ budget, PureFunctions apply budget R) (hB : B ≤ B')
    (hw : Faithful R B' w) (hr : B.objects r = some r') (henv : Value.Like B env env') :
    ∃ o w', ComesTo apply r s i env w o w' ∧ Stated R B w' o o' := by
  obtain ⟨budget, depth, hrun⟩ := h
  obtain ⟨B₁, o, w', hB₁, hw', ho, hcomes⟩ :=
    (agrees_run (hpure budget) hw (hB.objects hr) (henv.mono hB) s i).back hrun
  exact ⟨o, w', ⟨budget, hcomes.exists⟩, B₁, hB.trans hB₁, hw', ho⟩

end

/-- After any history a run comes to what it comes to in the world that the history started from, and
to what the rules give, where deferred parsers are their targets.  Functions of deferred parsers have
made something once at most. -/
theorem run_after_history (hpure : ∀ budget, PureFunctions apply budget R)
    (h₀ : Faithful R B w₀) (h : History apply B w₀ origin w) {r r₀ r' : Ref}
    (hr : origin r = some r₀) (hr₀ : B.objects r₀ = some r') {env env₀ env' : Value φ}
    (henv : Value.Like (B.along origin) env env') (henv₀ : Value.Like B env₀ env')
    (s : Input) (i : Nat) :
    (∀ o w', ComesTo apply r s i env w o w' → ∃ o₀ w₀',
      ComesTo apply r₀ s i env₀ w₀ o₀ w₀' ∧ SameOutcome w'.names w₀'.names o o₀) ∧
    (∀ o₀ w₀', ComesTo apply r₀ s i env₀ w₀ o₀ w₀' → ∃ o w',
      ComesTo apply r s i env w o w' ∧ SameOutcome w'.names w₀'.names o o₀) ∧
    (∀ o w', ComesTo apply r s i env w o w' → ∃ o',
      R.Gives r' s i env' o' ∧ Stated R (B.along origin) w' o o') ∧
    (∀ o', R.Gives r' s i env' o' → ∃ o w',
      ComesTo apply r s i env w o w' ∧ Stated R (B.along origin) w' o o') ∧
    ∀ d, (w.deferral d).made ≤ 1 := by
  obtain ⟨B₁, hB₁, hw⟩ := h.faithful hpure h₀
  have hobject : (B.along origin).objects r = some r' := (congrArg (·.bind B.objects) hr).trans hr₀
  refine ⟨fun o w' ho => ?_, fun o₀ w₀' ho₀ => ?_,
    fun o w' ho => ho.stated hpure hB₁ hw hobject henv,
    fun o' ho' => comesTo_of_gives ho' hpure hB₁ hw hobject henv, fun d => (hw.counted d).made_le⟩
  · obtain ⟨o', hgives, hstated⟩ := ho.stated hpure hB₁ hw hobject henv
    obtain ⟨o₀, w₀', ho₀, hstated₀⟩ := comesTo_of_gives hgives hpure (le_refl B) h₀ hr₀ henv₀
    exact ⟨o₀, w₀', ho₀, hstated.same hstated₀⟩
  · obtain ⟨o', hgives, hstated₀⟩ := ho₀.stated hpure (le_refl B) h₀ hr₀ henv₀
    obtain ⟨o, w', ho, hstated⟩ := comesTo_of_gives hgives hpure hB₁ hw hobject henv
    exact ⟨o, w', ho, hstated.same hstated₀⟩

/-! ## A rule that refers to itself -/

section

open Script (Function applyFunction)

/-- A world with a deferred parser of a rule, which refers to the deferred parser: a character and
then the rule, or the end of the text. -/
def recursive : World Function :=
  { World.initial with
    cells := World.initial.cells ++ #[⟨.deferred 0, .null⟩,
      ⟨.alt (.seq [.object Ref.anyChar, .object 5]) [.object Ref.eof], .null⟩]
    deferrals := #[.fresh (objectThunk 6) 5] }

theorem recursive_not_custom (r : Ref) (f : Function) :
    (recursive.cell r).behaviour ≠ .custom (.function f) := by
  match r with
  | 0 | 1 | 2 | 3 | 4 | 5 | 6 | _ + 7 => nofun

/-- What that world says of its objects, where the deferred parser is the rule. -/
def recursiveRules : Rules Function :=
  .own recursive (fun _ => 6) (fun _ => False) (fun _ _ => .error .noAlternatives)
    recursive_not_custom

/-- The objects of that world, each for itself. -/
def selfBond : Bond Function := .own recursive 7 fun _ => False

theorem pureFunctions_recursive (budget : Nat) :
    PureFunctions (applyFunction []) budget recursiveRules := by
  refine pureFunctions_own nofun nofun fun d hd depth w => ?_
  obtain rfl := Nat.lt_one_iff.1 hd
  exact call_objectThunk 6 budget depth w

theorem unused_recursive : recursive.Unused 7 where
  self_lt hd := by
    obtain rfl := Nat.lt_one_iff.1 hd
    decide
  behaviour_eq hd := by
    obtain rfl := Nat.lt_one_iff.1 hd
    rfl
  target_eq d := by rcases d with _ | d <;> rfl
  made_eq d := by rcases d with _ | d <;> rfl

theorem faithful_recursive : Faithful recursiveRules selfBond recursive := by
  refine faithful_own (by decide) (by decide) unused_recursive (fun _ _ => by decide)
    fun r hr => ?_
  match r, hr with
  | 0, _ => exact .offset
  | 1, _ => exact .position
  | 2, _ => exact .eof
  | 3, _ => exact .anyChar
  | 4, _ => exact .rest
  | 5, _ => exact .deferred rfl
  | 6, _ =>
    exact .alt (.seq (.cons (.object rfl) (.cons (.object rfl) .nil))) (.cons (.object rfl) .nil)

/-- The deferred parser is run on `"ab"`, which makes the rule, and is then cloned. -/
theorem run_after_history_recursive : ∃ origin w,
    History (applyFunction []) selfBond recursive origin w ∧ origin 7 = some 5 ∧
    (recursive.deferral 0).target = .null ∧ (w.deferral 0).made = 1 ∧
    (∀ o w', ComesTo (applyFunction []) 7 "ab".toList 0 .null w o w' → ∃ o₀ w₀',
      ComesTo (applyFunction []) 5 "ab".toList 0 .null recursive o₀ w₀' ∧
        SameOutcome w'.names w₀'.names o o₀) ∧
    ∀ d, (w.deferral d).made ≤ 1 := by
  obtain ⟨result, w, hrun, hsize, hmade⟩ : ∃ result w,
      (tools (applyFunction []) 9 9).run 5 "ab".toList 0 .null recursive =
        settledIn (.ok result) w ∧ w.cells.size = 7 ∧ (w.deferral 0).made = 1 :=
    ⟨_, _, rfl, rfl, rfl⟩
  have hclone : Machine.clone 5 w = .ok 7 { w with cells := w.cells.push (w.cell 5) } := by
    rw [← hsize]
    rfl
  have h : History (applyFunction []) selfBond recursive _ _ :=
    (History.fresh.run 9 9 "ab".toList 0 rfl .null hrun).clone rfl rfl hclone
  obtain ⟨hsame, -, -, -, hmost⟩ := run_after_history pureFunctions_recursive faithful_recursive h
    (r := 7) rfl rfl .null .null "ab".toList 0
  exact ⟨_, _, h, rfl, rfl, hmade, hsame, hmost⟩

end

end Machine

end Furthest
