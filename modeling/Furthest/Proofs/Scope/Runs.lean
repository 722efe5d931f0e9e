import Furthest.Proofs.Deferred.OwnRules
import Furthest.Proofs.Parallel.Runs
import Furthest.Proofs.Scope.Sealed

/-!
# The environment reaches its readers only

A parser in a derived environment comes to what the parser comes to that the derivation was pushed
through, down to what reads the environment.  So nothing beside or above the parser sees the derived
environment.  A parser without readers, or with readers only below an environment that is always the
same one, comes to the same in any two environments (`Machine.run_scoped`).
-/

namespace Furthest

variable {φ : Type} [FunctionText φ]

namespace Rules

variable {R : Rules φ} {T : (Value φ → Value φ → Prop) → Ref → Ref → Prop} {f : Value φ}

/-- An environment that a function derives, over the one it is derived from. -/
def Under (R : Rules φ) (f x e : Value φ) : Prop := R.Derives f e x

/-- An object that a callback chooses may be put below the derivation. -/
theorem pushed_chosen (r : Ref) (f : Value φ) :
    R.Pushed T (R.Under f) (R.rule r) (.subEnv (.object r) f) :=
  .subEnv_right (.unfold_right (.same _ fun _ _ => id)) fun x _ hx => ⟨x, hx, rfl⟩

/-- A derivation below another one becomes a derivation by both functions. -/
theorem pushed_derivation (p : Grammar φ) {g gf : Value φ}
    (h : R.FunctionsMeet (R.Under f) Eq g gf) :
    R.Pushed T (R.Under f) (.subEnv p g) (.subEnv p gf) :=
  .subEnv (.same p fun _ _ => id) h

end Rules

namespace Machine

variable {R : Rules φ} {T : (Value φ → Value φ → Prop) → Ref → Ref → Prop} {C : Ref → Prop}
  {B₁ B₂ : Bond φ} {w₁ w₂ : World φ}
  {apply : Tools φ → φ → List (Value φ) → Machine φ (Value φ)} {r₁ r₂ r r' : Ref}
  {env₁ env₂ env x e : Value φ} {F : Value φ → Value φ → Prop}

/-- Two objects, each in a world and an environment of its own: where either of them comes to a
result, the other one yields the same result. -/
def SameRuns (apply : Tools φ → φ → List (Value φ) → Machine φ (Value φ)) (r₁ : Ref)
    (env₁ : Value φ) (w₁ : World φ) (r₂ : Ref) (env₂ : Value φ) (w₂ : World φ) : Prop :=
  ∀ s i,
    (∀ result w₁', ComesTo apply r₁ s i env₁ w₁ (.ok result) w₁' →
      Yields apply r₂ s i env₂ w₂ fun result' w₂' =>
        SameOutcome w₁'.names w₂'.names (.ok result) (.ok result')) ∧
    (∀ result' w₂', ComesTo apply r₂ s i env₂ w₂ (.ok result') w₂' →
      Yields apply r₁ s i env₁ w₁ fun result w₁' =>
        SameOutcome w₂'.names w₁'.names (.ok result') (.ok result))

theorem yields_of_pushed (hpure : ∀ budget, PureFunctions apply budget R)
    (hT : ∀ F r r', T F r r' → R.Pushed T F (R.rule r) (R.rule r'))
    (hw₁ : Faithful R B₁ w₁) (hw₂ : Faithful R B₂ w₂) (hr₁ : B₁.objects r₁ = some r)
    (hr₂ : B₂.objects r₂ = some r') (henv₁ : Value.Like B₁ env₁ x) (henv₂ : Value.Like B₂ env₂ e)
    (h : R.Pushed T F (.object r) (.object r')) (hF : F x e) (s : Input) (i : Nat)
    {result : Result (Value φ)} {w₁' : World φ}
    (hrun : ComesTo apply r₁ s i env₁ w₁ (.ok result) w₁') :
    Yields apply r₂ s i env₂ w₂ fun result' w₂' =>
      SameOutcome w₁'.names w₂'.names (.ok result) (.ok result') :=
  yields_of_gives hpure hw₁ hw₂ hr₁ hr₂ henv₁ henv₂ looksAtNoValue_id looksAtNoValue_id
    (fun given hgiven => ⟨given, Rules.gives_of_pushed hT h hF hgiven, rfl⟩) hrun

/-- Objects that are pushed come to the same in related environments. -/
theorem sameRuns_of_pushed (hpure : ∀ budget, PureFunctions apply budget R)
    (hT : ∀ F r r', T F r r' → R.Pushed T F (R.rule r) (R.rule r'))
    (hw₁ : Faithful R B₁ w₁) (hw₂ : Faithful R B₂ w₂) (hr₁ : B₁.objects r₁ = some r)
    (hr₂ : B₂.objects r₂ = some r') (henv₁ : Value.Like B₁ env₁ x) (henv₂ : Value.Like B₂ env₂ e)
    (h : R.Pushed T F (.object r) (.object r')) (hF : F x e) :
    SameRuns apply r₁ env₁ w₁ r₂ env₂ w₂ := by
  refine fun s i => ⟨fun _ _ => ?_, fun _ _ => ?_⟩
  · exact yields_of_pushed hpure hT hw₁ hw₂ hr₁ hr₂ henv₁ henv₂ h hF s i
  · exact yields_of_pushed hpure (fun _ _ _ h => (hT _ _ _ h).swap) hw₂ hw₁ hr₂ hr₁ henv₂ henv₁
      h.swap hF s i

/-- The environment reaches its readers only.  An object that derives an environment for a parser
comes to the same as the parser that the derivation was pushed through.  So does any object with such
parts, and the one where derivations were pushed through them.  And an object that is sealed comes to
the same in any two environments. -/
theorem run_scoped (hpure : ∀ budget, PureFunctions apply budget R)
    (hT : ∀ F r r', T F r r' → R.Pushed T F (R.rule r) (R.rule r'))
    (hC : ∀ r, C r → R.Sealed C (R.rule r)) (hw₁ : Faithful R B₁ w₁)
    (hw₂ : Faithful R B₂ w₂) (hr₁ : B₁.objects r₁ = some r)
    (henv₁ : Value.Like B₁ env₁ env) :
    (∀ r₂ r' env₂, B₂.objects r₂ = some r' → Value.Like B₂ env₂ env →
      (∀ p f derived, R.rule r = .subEnv p f → R.Derives f env derived →
        R.Pushed T (R.Under f) p (.object r') → SameRuns apply r₁ env₁ w₁ r₂ env₂ w₂) ∧
      (R.Pushed T Eq (.object r) (.object r') → SameRuns apply r₁ env₁ w₁ r₂ env₂ w₂)) ∧
    (C r → ∀ r₂ env₂ env', B₂.objects r₂ = some r → Value.Like B₂ env₂ env' →
      SameRuns apply r₁ env₁ w₁ r₂ env₂ w₂) := by
  refine ⟨fun r₂ r' env₂ hr₂ henv₂ => ⟨fun p f derived hrule hderived h => ?_, fun h => ?_⟩,
    fun hr r₂ env₂ env' hr₂ henv₂ => ?_⟩
  · -- the derivation only has to give something in the environment of the run
    have hpushed : R.Pushed T (fun x e => x = env ∧ e = env) (.object r) (.object r') := by
      refine .unfold_left (hrule ▸ .subEnv_left h ?_)
      rintro _ _ ⟨rfl, rfl⟩
      exact ⟨derived, hderived, hderived⟩
    exact sameRuns_of_pushed hpure hT hw₁ hw₂ hr₁ hr₂ henv₁ henv₂ hpushed ⟨rfl, rfl⟩
  · exact sameRuns_of_pushed hpure hT hw₁ hw₂ hr₁ hr₂ henv₁ henv₂ h rfl
  · have hsealed : R.Pushed (Rules.Itself C) (fun _ _ => True) (.object r) (.object r) :=
      .object ⟨rfl, hr⟩
    refine sameRuns_of_pushed hpure ?_ hw₁ hw₂ hr₁ hr₂ henv₁ henv₂ hsealed trivial
    rintro F r _ ⟨rfl, hr⟩
    exact Rules.pushed_of_sealed (hC r hr)

/-! ## An enclosed environment -/

section

open Script (Function Term Val ScriptFault applyFunction)

/-- A function that answers with the environment. -/
def readEnv : Function := .closure none ["v", "env"] (.ref "env") []

/-- A function that derives an environment. -/
def encloseEnv : Function := .closure none ["env"] (.list [.ref "env"]) []

/-- A function that answers with what is derived from the environment. -/
def readEnclosed : Function := .closure none ["v", "env"] (.list [.ref "env"]) []

/-- A function that derives the same environment from any other one. -/
def fixedEnv : Function := .closure none ["env"] (.text "fixed") []

/-- A world with a parser that reads the environment (5), with that one in a derived environment (6)
and with the one that this is pushed to (7); with both kinds side by side (8 and 9); with all in an
environment that is always the same one (10); and with deferred parsers of the reader and of what it
is pushed to (11 and 12), the former one in a derived environment (13). -/
def enclosing : World Function :=
  { World.initial with
    cells := World.initial.cells ++ #[
      ⟨.mapEnv (.object Ref.anyChar) (.valueAndEnv (.function readEnv)), .null⟩,
      ⟨.subEnv (.object 5) (.function encloseEnv), .null⟩,
      ⟨.mapEnv (.object Ref.anyChar) (.valueAndEnv (.function readEnclosed)), .null⟩,
      ⟨.seq [.object 5, .object 6, .object 5], .null⟩,
      ⟨.seq [.object 5, .object 7, .object 5], .null⟩,
      ⟨.subEnv (.object 8) (.function fixedEnv), .null⟩,
      ⟨.deferred 0, .null⟩, ⟨.deferred 1, .null⟩,
      ⟨.subEnv (.object 11) (.function encloseEnv), .null⟩]
    deferrals := #[.fresh (objectThunk 5) 11, .fresh (objectThunk 7) 12] }

/-- The functions of that world. -/
def enclosingFunctions : List Function := [readEnv, encloseEnv, readEnclosed, fixedEnv]

/-- The objects and the functions of that world, each for itself. -/
def enclosingBond : Bond Function := .own enclosing 14 (· ∈ enclosingFunctions)

/-- What a function of that world answers on its last argument. -/
def enclosingAnswer (env : Val) : Term → Val
  | .ref _ => env
  | .list _ => .list [env]
  | _ => .text "fixed"

/-- What the functions of that world answer. -/
def enclosingApply : Function → List Val → Except (Fault Function) Val
  | .closure _ params body _, args =>
    if args.length = params.length then .ok (enclosingAnswer (args.getLastD .null) body)
    else .error (ScriptFault.wrongCount params.length args.length).toFault
  | .named _, _ => .error .noAlternatives

theorem enclosing_not_custom (r : Ref) (f : Function) :
    (enclosing.cell r).behaviour ≠ .custom (.function f) := by
  match r with
  | 0 | 1 | 2 | 3 | 4 | 5 | 6 | 7 | 8 | 9 | 10 | 11 | 12 | 13 | _ + 14 => nofun

/-- The object that the function of a deferred parser of that world gives. -/
def enclosingTarget : DeferralRef → Ref
  | 0 => 5
  | _ => 7

/-- What that world says of its objects and functions. -/
def enclosingRules : Rules Function :=
  .own enclosing enclosingTarget (· ∈ enclosingFunctions) enclosingApply enclosing_not_custom

theorem call_enclosing {f : Function} (hf : f ∈ enclosingFunctions) (budget n : Nat)
    (args : List Val) (w : World Function) :
    (tools (applyFunction []) budget (n + 1)).call (.function f) args w =
      settledIn (enclosingApply f args) w := by
  simp only [enclosingFunctions, List.mem_cons, List.not_mem_nil, or_false] at hf
  rcases hf with rfl | rfl | rfl | rfl
  · match args with
    | [] | [_] | [_, _] | _ :: _ :: _ :: _ => rfl
  · match args with
    | [] | [_] | _ :: _ :: _ => rfl
  · match args with
    | [] | [_] | [_, _] | _ :: _ :: _ :: _ => rfl
  · match args with
    | [] | [_] | _ :: _ :: _ => rfl

theorem like_getLastD {B : Bond Function} {args args' : List Val} {v v' : Val}
    (h : List.Forall₂ (Value.Like B) args args') (hv : Value.Like B v v') :
    Value.Like B (args.getLastD v) (args'.getLastD v') := by
  induction h generalizing v v' with
  | nil => exact hv
  | cons ha _ ih => simpa only [List.getLastD_cons] using ih ha

theorem related_enclosing {B : Bond Function} {args args' : List Val}
    (h : List.Forall₂ (Value.Like B) args args') (f : Function) :
    Related B (Value.Like B) (enclosingApply f args) (enclosingApply f args') := by
  cases f with
  | named name => exact .error .noAlternatives
  | closure name? params body scope =>
    simp only [enclosingApply, h.length_eq]
    split
    · have hlast := like_getLastD h .null
      refine .ok ?_
      cases body with
      | ref name => exact hlast
      | list items => exact .list (.cons hlast .nil)
      | _ => exact .text "fixed"
    · exact .error (.raised _ _)

theorem pureFunctions_enclosing (budget : Nat) :
    PureFunctions (applyFunction []) budget enclosingRules := by
  refine pureFunctions_own (fun f hf depth args w => call_enclosing hf budget depth args w)
    (fun f _ B args args' hargs => related_enclosing hargs f) fun d hd depth w => ?_
  match d, hd with
  | 0, _ => exact call_objectThunk 5 budget depth w
  | 1, _ => exact call_objectThunk 7 budget depth w

theorem unused_enclosing : enclosing.Unused 14 where
  self_lt {d} hd := by
    match d, hd with
    | 0, _ | 1, _ => decide
  behaviour_eq {d} hd := by
    match d, hd with
    | 0, _ | 1, _ => rfl
  target_eq d := by rcases d with _ | _ | d <;> rfl
  made_eq d := by rcases d with _ | _ | d <;> rfl

theorem faithful_enclosing : Faithful enclosingRules enclosingBond enclosing := by
  have htarget : ∀ d, enclosingTarget d < 14
    | 0 => by decide
    | _ + 1 => Nat.lt_of_lt_of_le (Nat.lt_succ_self 7) (by decide)
  have hfunction : ∀ f ∈ enclosingFunctions,
      Value.Like enclosingBond (.function f) (.function f) := fun _ hf => .function ⟨rfl, hf⟩
  refine faithful_own (by decide) (by decide) unused_enclosing (fun d _ => htarget d) fun r hr => ?_
  match r, hr with
  | 0, _ => exact .offset
  | 1, _ => exact .position
  | 2, _ => exact .eof
  | 3, _ => exact .anyChar
  | 4, _ => exact .rest
  | 5, _ | 7, _ =>
    exact .mapEnv (.object rfl) (.valueAndEnv (hfunction _ (by simp [enclosingFunctions])))
  | 6, _ | 10, _ | 13, _ =>
    exact .subEnv (.object rfl) (hfunction _ (by simp [enclosingFunctions]))
  | 8, _ | 9, _ => exact .seq (.cons (.object rfl) (.cons (.object rfl) (.cons (.object rfl) .nil)))
  | 11, _ | 12, _ => exact .deferred rfl

theorem derives_encloseEnv (e : Val) :
    enclosingRules.Derives (.function encloseEnv) e (.list [e]) := fun _ => .of_forall fun _ => rfl

/-- Which objects do the same in two environments. -/
inductive EnclosingTwin : (Val → Val → Prop) → Ref → Ref → Prop where
  | anyChar (F : Val → Val → Prop) : EnclosingTwin F Ref.anyChar Ref.anyChar
  | reader : EnclosingTwin (enclosingRules.Under (.function encloseEnv)) 5 7

theorem pushed_enclosing (F : Val → Val → Prop) (r r' : Ref) (h : EnclosingTwin F r r') :
    enclosingRules.Pushed EnclosingTwin F (enclosingRules.rule r) (enclosingRules.rule r') := by
  cases h with
  | anyChar => exact .blind trivial
  | reader =>
    refine .mapEnv (.object (.anyChar _)) fun budget v x e hx => ?_
    obtain rfl := (hx budget).unique (derives_encloseEnv e budget)
    exact alike_of_comes (a := .list [e]) (b := .list [e]) (.of_forall fun _ => rfl)
      (.of_forall fun _ => rfl) rfl

/-- The derivation is pushed into the middle part of a sequence. -/
theorem pushed_siblings : enclosingRules.Pushed EnclosingTwin Eq (.object 8) (.object 9) := by
  have hmiddle : enclosingRules.Pushed EnclosingTwin Eq (.object 6) (.object 7) := by
    refine .unfold_left (.subEnv_left (.object .reader) ?_)
    rintro x _ rfl
    exact ⟨.list [x], derives_encloseEnv x, derives_encloseEnv x⟩
  have hreader : enclosingRules.Pushed EnclosingTwin Eq (.object 5) (.object 5) :=
    .same _ fun _ _ => id
  exact .unfold_left (.unfold_right (.seq (.cons hreader (.cons hmiddle (.cons hreader .nil)))))

/-- The derivation is pushed through a deferred parser. -/
theorem pushed_deferred : enclosingRules.Pushed EnclosingTwin
    (enclosingRules.Under (.function encloseEnv)) (.object 11) (.object 12) :=
  .unfold_left (.unfold_right (.deferred .reader))

theorem sealed_enclosing (r : Ref) (hr : r = 10) :
    enclosingRules.Sealed (· = 10) (enclosingRules.rule r) := by
  subst hr
  exact .constant (c := .text "fixed") _ fun _ _ => .of_forall fun _ => rfl

/-- On `"abc"` only the middle one of three characters is read in the derived environment.  Nothing
is made yet where the derivation is pushed through the deferred parser. -/
theorem run_scoped_enclosing :
    SameRuns (applyFunction []) 6 (.text "outer") enclosing 7 (.text "outer") enclosing ∧
    SameRuns (applyFunction []) 8 (.text "outer") enclosing 9 (.text "outer") enclosing ∧
    SameRuns (applyFunction []) 10 (.text "outer") enclosing 10 .null enclosing ∧
    ((enclosing.deferral 0).target = .null ∧ (enclosing.deferral 1).target = .null ∧
      SameRuns (applyFunction []) 13 (.text "outer") enclosing 12 (.text "outer") enclosing ∧
      ∃ result w, ComesTo (applyFunction []) 13 "abc".toList 0 (.text "outer") enclosing
          (.ok result) w ∧ result.value = .list [.text "outer"]) ∧
    ∃ result w, ComesTo (applyFunction []) 8 "abc".toList 0 (.text "outer") enclosing
        (.ok result) w ∧
      result.value = .list [.text "outer", .list [.text "outer"], .text "outer"] := by
  obtain ⟨result, w, hrun, hvalue⟩ : ∃ result w,
      (tools (applyFunction []) 9 9).run 8 "abc".toList 0 (.text "outer") enclosing =
        settledIn (.ok result) w ∧
      result.value = .list [.text "outer", .list [.text "outer"], .text "outer"] :=
    ⟨_, _, rfl, rfl⟩
  obtain ⟨made, w', hmade, hread⟩ : ∃ made w',
      (tools (applyFunction []) 9 9).run 13 "abc".toList 0 (.text "outer") enclosing =
        settledIn (.ok made) w' ∧ made.value = .list [.text "outer"] := ⟨_, _, rfl, rfl⟩
  have hobject : ∀ r < 14, enclosingBond.objects r = some r := fun _ hr => if_pos hr
  obtain ⟨hderived, -⟩ := run_scoped pureFunctions_enclosing pushed_enclosing sealed_enclosing
    faithful_enclosing faithful_enclosing (hobject 6 (by decide)) (.text "outer")
  obtain ⟨hwhole, -⟩ := run_scoped pureFunctions_enclosing pushed_enclosing sealed_enclosing
    faithful_enclosing faithful_enclosing (hobject 8 (by decide)) (.text "outer")
  obtain ⟨-, hsealed⟩ := run_scoped pureFunctions_enclosing pushed_enclosing sealed_enclosing
    faithful_enclosing faithful_enclosing (hobject 10 (by decide)) (.text "outer")
  obtain ⟨hdeferred, -⟩ := run_scoped pureFunctions_enclosing pushed_enclosing sealed_enclosing
    faithful_enclosing faithful_enclosing (hobject 13 (by decide)) (.text "outer")
  refine ⟨?_, ?_, ?_, ⟨rfl, rfl, ?_, made, w', ⟨9, 9, hmade⟩, hread⟩, result, w, ⟨9, 9, hrun⟩,
    hvalue⟩
  · exact (hderived 7 7 _ rfl (.text "outer")).1 _ _ _ rfl (derives_encloseEnv _) (.object .reader)
  · exact (hwhole 9 9 _ rfl (.text "outer")).2 pushed_siblings
  · exact hsealed rfl 10 _ _ rfl .null
  · exact (hdeferred 12 12 _ rfl (.text "outer")).1 _ _ _ rfl (derives_encloseEnv _) pushed_deferred

end

end Machine

end Furthest
