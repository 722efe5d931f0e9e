import Furthest.Proofs.Deferred.History

/-!
# Deferred parsers that make no parser

The function of a deferred parser may give something else than a parser.  The first invocation of
the parser, or of a clone, then faults, and words the value.  What was made is recorded before it
is looked at, so the next invocation takes the value for the parser: unless it is nothing, it is
called (`Machine.invoked_after_uses`).  What is no function cannot be called, which is another
fault; what a function answers is handed on as it is, whatever it is.

The parser may be called by itself or run as a part of a grammar, which takes what was answered for
a result.  Both use it in the same way (`Machine.UsesTo`).
-/

namespace Furthest.Machine

variable {φ : Type} [FunctionText φ] {apply : Tools φ → φ → List (Value φ) → Machine φ (Value φ)}

/-- Calling a value comes to an outcome within some bounds, and leaves a world. -/
def CallsTo (apply : Tools φ → φ → List (Value φ) → Machine φ (Value φ)) (f : Value φ)
    (args : List (Value φ)) (w : World φ) (o : Except (Fault φ) (Value φ)) (w' : World φ) : Prop :=
  ∃ budget depth, (tools apply budget depth).call f args w = settledIn o w'

/-- Using a deferred parser comes to an outcome within some bounds, and leaves a world. -/
def UsesTo {α : Type} (apply : Tools φ → φ → List (Value φ) → Machine φ (Value φ))
    (use : Tools φ → Value φ → Machine φ α) (d : DeferralRef) (w : World φ)
    (o : Except (Fault φ) α) (w' : World φ) : Prop :=
  ∃ budget depth, useDeferred (tools apply budget depth) (use (tools apply budget depth)) d w =
    settledIn o w'

/-- The function of the deferred parser `d` is `thunk`, what it was made into is `target`, and the
objects of `A` are this parser. -/
structure Held (thunk target : Value φ) (d : DeferralRef) (A : Ref → Prop) (w : World φ) :
    Prop where
  deferral_lt : d < w.deferrals.size
  thunk_eq : (w.deferral d).thunk = thunk
  target_eq : (w.deferral d).target = target
  object_lt {r : Ref} : A r → r < w.cells.size
  behaviour_eq {r : Ref} : A r → (w.cell r).behaviour = .deferred d

/-- The function of the deferred parser `d` gives `v`, which is no parser, and neither it nor, if
`v` is a function, calls of `v` change the deferred parser or its objects. -/
structure GivesUnfit (apply : Tools φ → φ → List (Value φ) → Machine φ (Value φ))
    (thunk v : Value φ) (d : DeferralRef) : Prop where
  unfit (r : Ref) : v ≠ .parser r
  of_thunk {A : Ref → Prop} {w w' : World φ} {o : Except (Fault φ) (Value φ)} :
    Held thunk .null d A w → CallsTo apply thunk [] w o w' → o = .ok v ∧ Held thunk .null d A w'
  of_value {f : φ} {A : Ref → Prop} {w w' : World φ} {args : List (Value φ)}
    {o : Except (Fault φ) (Value φ)} : v = .function f → Held thunk v d A w →
    CallsTo apply v args w o w' → Held thunk v d A w'

/-- What may be done with a deferred parser and its clones, which `A` holds all of: `n` times one of
them is called by itself or run as a part of a grammar, or that happens in the course of other runs,
which put the value on record; and anything else that leaves them as they are. -/
inductive Uses (apply : Tools φ → φ → List (Value φ) → Machine φ (Value φ)) (thunk v : Value φ)
    (d : DeferralRef) (A₀ : Ref → Prop) (w₀ : World φ) :
    (n : Nat) → (A : Ref → Prop) → World φ → Prop where
  | start : Uses apply thunk v d A₀ w₀ 0 A₀ w₀
  | invoke {n : Nat} {A : Ref → Prop} {w w' : World φ} {r : Ref} {args : List (Value φ)}
    {text : String} {i : Nat} {env : Value φ} {o : Except (Fault φ) (Value φ)} :
    Uses apply thunk v d A₀ w₀ n A w → A r → Value.start? args = some (text, i, env) →
    CallsTo apply (.parser r) args w o w' → Uses apply thunk v d A₀ w₀ (n + 1) A w'
  | run {n : Nat} {A : Ref → Prop} {w w' : World φ} {r : Ref} {s : Input} {i : Nat}
    {env : Value φ} {o : Except (Fault φ) (Result (Value φ))} : Uses apply thunk v d A₀ w₀ n A w →
    A r → ComesTo apply r s i env w o w' → Uses apply thunk v d A₀ w₀ (n + 1) A w'
  | within {n : Nat} {A : Ref → Prop} {w w' : World φ} : Uses apply thunk v d A₀ w₀ n A w →
    (Held thunk .null d A w ∨ Held thunk v d A w → Held thunk v d A w') →
    Uses apply thunk v d A₀ w₀ (n + 1) A w'
  | clone {n : Nat} {A : Ref → Prop} {w w' : World φ} {r c : Ref} :
    Uses apply thunk v d A₀ w₀ n A w → A r → clone r w = .ok c w' →
    Uses apply thunk v d A₀ w₀ n (fun r => A r ∨ r = c) w'
  | other {n : Nat} {A : Ref → Prop} {w w' : World φ} : Uses apply thunk v d A₀ w₀ n A w →
    (∀ target, Held thunk target d A w → Held thunk target d A w') →
    Uses apply thunk v d A₀ w₀ n A w'

section

variable {α : Type} {use : Tools φ → Value φ → Machine φ α} {thunk target v : Value φ}
  {d : DeferralRef} {A : Ref → Prop} {w w' : World φ} {r : Ref} {args : List (Value φ)}
  {text : String} {s : Input} {i : Nat} {env : Value φ}

omit [FunctionText φ] in
theorem Held.resolve (h : Held thunk target d A w) (v : Value φ) :
    Held thunk v d A (w.resolve d v) where
  deferral_lt := by
    show d < (w.deferrals.modify d _).size
    rw [Array.size_modify]
    exact h.deferral_lt
  thunk_eq := by
    rw [World.deferral_resolve_self h.deferral_lt]
    exact h.thunk_eq
  target_eq := by rw [World.deferral_resolve_self h.deferral_lt]
  object_lt := h.object_lt
  behaviour_eq := h.behaviour_eq

omit [FunctionText φ] in
/-- A clone of the parser is the parser. -/
theorem Held.clone (h : Held thunk target d A w) (hr : A r) :
    Held thunk target d (fun r => A r ∨ r = w.cells.size)
      { w with cells := w.cells.push (w.cell r) } where
  deferral_lt := h.deferral_lt
  thunk_eq := h.thunk_eq
  target_eq := h.target_eq
  object_lt hr' := by
    rw [Array.size_push]
    rcases hr' with hr' | rfl
    · exact Nat.lt_succ_of_lt (h.object_lt hr')
    · exact Nat.lt_succ_self _
  behaviour_eq hr' := by
    rw [World.cell_push]
    rcases hr' with hr' | rfl
    · rw [if_neg (Nat.ne_of_lt (h.object_lt hr'))]
      exact h.behaviour_eq hr'
    · rw [if_pos rfl]
      exact h.behaviour_eq hr

/-! ### Using a deferred parser -/

/-- Running an object that is a deferred parser uses this parser. -/
theorem comesTo_iff_usesTo (h : (w.cell r).behaviour = .deferred d)
    {o : Except (Fault φ) (Result (Value φ))} :
    ComesTo apply r s i env w o w' ↔ UsesTo apply (fun t => runTarget t s i env) d w o w' := by
  rw [comesTo_iff_denote, h]
  rfl

/-- Calling an object that is a deferred parser uses this parser. -/
theorem callsTo_iff_usesTo (h : (w.cell r).behaviour = .deferred d)
    (hargs : Value.start? args = some (text, i, env)) {o : Except (Fault φ) (Value φ)} :
    CallsTo apply (.parser r) args w o w' ↔
      UsesTo apply (fun t v => t.call v [.text text, .nat i, env]) d w o w' := by
  have hcall : ∀ budget depth, (tools apply budget (depth + 1)).call (.parser r) args w =
      useDeferred (tools apply budget depth)
        (fun v => (tools apply budget depth).call v [.text text, .nat i, env]) d w := by
    intro budget depth
    show callValue apply _ _ _ w = _
    rw [callValue_object, hargs]
    show answer _ _ _ _ (w.cell r).behaviour w = _
    rw [h]
    rfl
  constructor
  · rintro ⟨budget, depth, hrun⟩
    cases depth with
    | zero => cases o <;> cases hrun
    | succ depth => exact ⟨budget, depth, (hcall budget depth).symm.trans hrun⟩
  · rintro ⟨budget, depth, hrun⟩
    exact ⟨budget, depth + 1, (hcall budget depth).trans hrun⟩

omit [FunctionText φ] in
/-- What is no parser cannot be adopted, but is recorded. -/
theorem adopt_of_unfit (hv : ∀ r, v ≠ .parser r) (use : Value φ → Machine φ α) (self : Ref) :
    adopt use d self v w = settledIn (.error (.unfit "lazy" .parser v)) (w.resolve d v) := by
  cases v with
  | parser r => exact absurd rfl (hv r)
  | _ => rfl

/-- A use before anything was made. -/
theorem usesTo_unmade (hy : GivesUnfit apply thunk v d) (h : Held thunk .null d A w)
    {o : Except (Fault φ) α} :
    UsesTo apply use d w o w' ↔ o = .error (.unfit "lazy" .parser v) ∧
      ∃ w₁, CallsTo apply thunk [] w (.ok v) w₁ ∧ w' = w₁.resolve d v := by
  unfold UsesTo
  simp only [useDeferred_of_null h.target_eq, h.thunk_eq]
  constructor
  · rintro ⟨budget, depth, hrun⟩
    rcases bind_eq_settledIn hrun with ⟨made, w₁, hcall, hadopt⟩ | ⟨e, -, hcall⟩
    · cases (hy.of_thunk h ⟨budget, depth, hcall⟩).1
      rw [adopt_of_unfit hy.unfit] at hadopt
      obtain ⟨rfl, rfl⟩ := settledIn_inj hadopt
      exact ⟨rfl, w₁, ⟨budget, depth, hcall⟩, rfl⟩
    · cases (hy.of_thunk h ⟨budget, depth, hcall⟩).1
  · rintro ⟨rfl, w₁, ⟨budget, depth, hcall⟩, rfl⟩
    refine ⟨budget, depth, ?_⟩
    rw [bind_of_settledIn_ok _ hcall, adopt_of_unfit hy.unfit]

/-- A use after something was made: it is taken for the parser, unless it is nothing. -/
theorem usesTo_made (h : Held thunk v d A w) (hnull : v ≠ .null) {o : Except (Fault φ) α} :
    UsesTo apply use d w o w' ↔
      ∃ budget depth, use (tools apply budget depth) v w = settledIn o w' := by
  unfold UsesTo
  simp only [useDeferred_of_made h.target_eq hnull]

omit [FunctionText φ] in
/-- What is taken for a parser is called, and has to answer with a result. -/
theorem runTarget_of_unfit (hv : ∀ r, v ≠ .parser r) (t : Tools φ) :
    runTarget t s i env v =
      t.call v [.text (String.ofList s), .nat i, env] >>= Host.resultOf := by
  cases v with
  | parser r => exact absurd rfl (hv r)
  | _ => rfl

/-! ### What is no function -/

/-- What is neither a function nor a parser cannot be called. -/
theorem call_of_not_callable (hv : ∀ r, v ≠ .parser r) (hf : ∀ f, v ≠ .function f)
    (args : List (Value φ)) (budget depth : Nat) (w : World φ) :
    (tools apply budget (depth + 1)).call v args w = settledIn (.error (.notCallable v)) w := by
  cases v with
  | parser r => exact absurd rfl (hv r)
  | function f => exact absurd rfl (hf f)
  | _ => rfl

theorem callsTo_not_callable (hv : ∀ r, v ≠ .parser r) (hf : ∀ f, v ≠ .function f)
    {o : Except (Fault φ) (Value φ)} :
    CallsTo apply v args w o w' ↔ o = .error (.notCallable v) ∧ w' = w := by
  constructor
  · rintro ⟨budget, depth, h⟩
    cases depth with
    | zero => cases o <;> cases h
    | succ depth =>
      obtain ⟨ho, hw⟩ :=
        settledIn_inj ((call_of_not_callable hv hf args budget depth w).symm.trans h)
      exact ⟨ho.symm, hw.symm⟩
  · rintro ⟨rfl, rfl⟩
    exact ⟨0, 1, call_of_not_callable hv hf args 0 0 w'⟩

/-! ### The value stays on record -/

omit [FunctionText φ] in
theorem resultOf_settles (v : Value φ) (w : World φ) :
    ∃ o, (Host.resultOf v : Machine φ (Result (Value φ))) w = settledIn o w := by
  cases v with
  | result r => exact ⟨.ok r, rfl⟩
  | _ => exact ⟨.error _, rfl⟩

theorem Held.called (hy : GivesUnfit apply thunk v d) (h : Held thunk v d A w)
    {o : Except (Fault φ) (Value φ)} (hcall : CallsTo apply v args w o w') :
    Held thunk v d A w' := by
  by_cases hf : ∃ f, v = .function f
  · obtain ⟨f, hf⟩ := hf
    exact hy.of_value hf h hcall
  · obtain ⟨-, rfl⟩ := (callsTo_not_callable hy.unfit fun f h => hf ⟨f, h⟩).1 hcall
    exact h

/-- Whatever a use comes to, the value is on record after it, if it still is after the value was
taken for the parser. -/
theorem Held.used (hy : GivesUnfit apply thunk v d)
    (h : Held thunk .null d A w ∨ Held thunk v d A w) {o : Except (Fault φ) α}
    (hrun : UsesTo apply use d w o w')
    (huse : ∀ budget depth, Held thunk v d A w →
      use (tools apply budget depth) v w = settledIn o w' → Held thunk v d A w') :
    Held thunk v d A w' := by
  by_cases hunmade : Held thunk .null d A w
  · obtain ⟨-, w₁, hcall, rfl⟩ := (usesTo_unmade hy hunmade).1 hrun
    exact (hy.of_thunk hunmade hcall).2.resolve v
  · have hmade := h.resolve_left hunmade
    have hnull : v ≠ .null := by
      rintro rfl
      exact hunmade hmade
    obtain ⟨budget, depth, hused⟩ := (usesTo_made hmade hnull).1 hrun
    exact huse budget depth hmade hused

theorem Held.invoked (hy : GivesUnfit apply thunk v d) (hr : A r)
    (h : Held thunk .null d A w ∨ Held thunk v d A w)
    (hargs : Value.start? args = some (text, i, env)) {o : Except (Fault φ) (Value φ)}
    (hrun : CallsTo apply (.parser r) args w o w') : Held thunk v d A w' := by
  have hbehaviour := h.elim (fun h => h.behaviour_eq hr) fun h => h.behaviour_eq hr
  exact Held.used hy h ((callsTo_iff_usesTo hbehaviour hargs).1 hrun)
    fun budget depth hmade hcall => hmade.called hy ⟨budget, depth, hcall⟩

theorem Held.run (hy : GivesUnfit apply thunk v d) (hr : A r)
    (h : Held thunk .null d A w ∨ Held thunk v d A w) {o : Except (Fault φ) (Result (Value φ))}
    (hrun : ComesTo apply r s i env w o w') : Held thunk v d A w' := by
  have hbehaviour := h.elim (fun h => h.behaviour_eq hr) fun h => h.behaviour_eq hr
  refine Held.used hy h ((comesTo_iff_usesTo hbehaviour).1 hrun) fun budget depth hmade hused => ?_
  rw [runTarget_of_unfit hy.unfit] at hused
  rcases bind_eq_settledIn hused with ⟨a, w₁, hcall, hresult⟩ | ⟨e, -, hcall⟩
  · obtain ⟨o', ho'⟩ := resultOf_settles a w₁
    obtain ⟨-, rfl⟩ := settledIn_inj (ho'.symm.trans hresult)
    exact hmade.called hy ⟨budget, depth, hcall⟩
  · exact hmade.called hy ⟨budget, depth, hcall⟩

end

section

variable {thunk v : Value φ} {d : DeferralRef} {A₀ A : Ref → Prop} {w₀ w w' : World φ} {n : Nat}

/-- The value is on record from the first invocation on, and the objects are as they were. -/
theorem held_of_uses (hy : GivesUnfit apply thunk v d) (h₀ : Held thunk .null d A₀ w₀)
    (h : Uses apply thunk v d A₀ w₀ n A w) : Held thunk (if n = 0 then .null else v) d A w := by
  have heither : ∀ {n A w}, Held thunk (if n = 0 then .null else v) d A w →
      Held thunk .null d A w ∨ Held thunk v d A w := by
    intro n A w hheld
    split at hheld
    · exact Or.inl hheld
    · exact Or.inr hheld
  induction h with
  | start => exact h₀
  | invoke _ hr hargs hrun ih => exact Held.invoked hy hr (heither ih) hargs hrun
  | run _ hr hrun ih => exact Held.run hy hr (heither ih) hrun
  | within _ hmade ih => exact hmade (heither ih)
  | clone _ hr hclone ih =>
    cases hclone
    exact ih.clone hr
  | other _ hkeeps ih => exact hkeeps _ ih

/-- What an invocation of a deferred parser or of one of its clones comes to if its function gives
`v`, which is no parser.  The first one faults and words `v`; if `v` is nothing, so does every one,
and the deferred parser stays as it was.  Otherwise the later ones call `v`: if `v` is no function
they fault because of that, else they come to what it answers, whatever that is.  It is the same
where the parser is run as a part of a grammar, which takes what `v` answers for a result. -/
theorem invoked_after_uses (hy : GivesUnfit apply thunk v d) (h₀ : Held thunk .null d A₀ w₀)
    (h : Uses apply thunk v d A₀ w₀ n A w) {r : Ref} (hr : A r) {args : List (Value φ)}
    {text : String} {i : Nat} {env : Value φ} (hargs : Value.start? args = some (text, i, env))
    (o : Except (Fault φ) (Value φ)) (o' : Except (Fault φ) (Result (Value φ))) (w' : World φ) :
    (n = 0 ∨ v = .null → Held thunk .null d A w ∧
      (CallsTo apply (.parser r) args w o w' ↔ o = .error (.unfit "lazy" .parser v) ∧
        ∃ w₁, CallsTo apply thunk [] w (.ok v) w₁ ∧ w' = w₁.resolve d v) ∧
      (ComesTo apply r text.toList i env w o' w' ↔ o' = .error (.unfit "lazy" .parser v) ∧
        ∃ w₁, CallsTo apply thunk [] w (.ok v) w₁ ∧ w' = w₁.resolve d v)) ∧
    (n ≠ 0 → v ≠ .null → Held thunk v d A w ∧
      (CallsTo apply (.parser r) args w o w' ↔
        CallsTo apply v [.text text, .nat i, env] w o w') ∧
      (ComesTo apply r text.toList i env w o' w' ↔ ∃ budget depth,
        ((tools apply budget depth).call v [.text text, .nat i, env] >>= Host.resultOf) w =
          settledIn o' w') ∧
      ((∀ f, v ≠ .function f) →
        (CallsTo apply (.parser r) args w o w' ↔ o = .error (.notCallable v) ∧ w' = w))) ∧
    (Fault.unfit "lazy" .parser v).kind = .type ∧
    ∀ names, (Fault.unfit "lazy" .parser v).message names =
      "partser.lazy: Not a parser: " ++ Fault.given names v := by
  have hheld := held_of_uses hy h₀ h
  refine ⟨fun hfirst => ?_, fun hn hnull => ?_, rfl, fun names => ?_⟩
  · have hunmade : Held thunk .null d A w := by
      rcases hfirst with hn | rfl
      · rwa [if_pos hn] at hheld
      · rwa [ite_self] at hheld
    have hbehaviour := hunmade.behaviour_eq hr
    exact ⟨hunmade, (callsTo_iff_usesTo hbehaviour hargs).trans (usesTo_unmade hy hunmade),
      (comesTo_iff_usesTo hbehaviour).trans (usesTo_unmade hy hunmade)⟩
  · rw [if_neg hn] at hheld
    have hbehaviour := hheld.behaviour_eq hr
    have hcall : CallsTo apply (.parser r) args w o w' ↔
        CallsTo apply v [.text text, .nat i, env] w o w' :=
      (callsTo_iff_usesTo hbehaviour hargs).trans (usesTo_made hheld hnull)
    refine ⟨hheld, hcall, ?_, fun hf => hcall.trans (callsTo_not_callable hy.unfit hf)⟩
    rw [comesTo_iff_usesTo hbehaviour, usesTo_made hheld hnull]
    simp only [runTarget_of_unfit hy.unfit, String.ofList_toList]
  · have hprefix : "partser." ++ "lazy" ++ ": " ++ Requirement.parser.complaint ++ ": " =
        "partser.lazy: Not a parser: " := by decide
    rw [← hprefix]
    rfl

end

section

open Script (Function Term applyFunction)

/-- A function that gives the value of a term. -/
def termThunk (body : Term) : Value Function := .function (.closure none [] body [])

/-- A world with a deferred parser whose function gives the value of a term. -/
def deferringTerm (body : Term) : World Function :=
  { World.initial with
    cells := World.initial.cells.push ⟨.deferred 0, .null⟩
    deferrals := #[.fresh (termThunk body) 5] }

theorem held_deferringTerm (body : Term) :
    Held (termThunk body) .null 0 (· = 5) (deferringTerm body) where
  deferral_lt := Nat.zero_lt_one
  thunk_eq := rfl
  target_eq := rfl
  object_lt := by
    rintro r rfl
    exact Nat.lt_succ_self 5
  behaviour_eq := by
    rintro r rfl
    rfl

/-- A term has a value, whatever the tools are. -/
def HasValue (scope : Script.Scope) (body : Term) (v : Value Function) : Prop :=
  ∀ t w, Script.eval t [] scope body w = settledIn (.ok v) w

/-- Calling a function comes to the value of its term. -/
theorem callsTo_closure {params : List String} {body : Term} {args : List (Value Function)}
    {v : Value Function} {w w' : World Function} {o : Except (Fault Function) (Value Function)}
    (hlength : args.length = params.length)
    (hbody : HasValue ((params.zip args).reverse ++ []) body v) :
    CallsTo (applyFunction []) (.function (.closure none params body [])) args w o w' ↔
      o = .ok v ∧ w' = w := by
  have hcall : ∀ budget depth, (tools (applyFunction []) budget (depth + 1)).call
      (.function (.closure none params body [])) args w = settledIn (.ok v) w := by
    intro budget depth
    rw [← hbody (tools (applyFunction []) budget depth) w]
    simp only [tools, callValue, applyFunction, if_pos hlength]
  constructor
  · rintro ⟨budget, depth, h⟩
    cases depth with
    | zero => cases o <;> cases h
    | succ depth =>
      obtain ⟨ho, hw⟩ := settledIn_inj (h.symm.trans (hcall budget depth))
      exact ⟨ho, hw⟩
  · rintro ⟨rfl, rfl⟩
    exact ⟨0, 1, hcall 0 0⟩

/-- A function answers nothing else on a wrong number of arguments than a fault. -/
theorem callsTo_closure_of_wrongCount {params : List String} {body : Term}
    {args : List (Value Function)} {w w' : World Function}
    {o : Except (Fault Function) (Value Function)} (hlength : args.length ≠ params.length)
    (hcall : CallsTo (applyFunction []) (.function (.closure none params body [])) args w o w') :
    w' = w := by
  obtain ⟨budget, depth, hcall⟩ := hcall
  cases depth with
  | zero => cases o <;> cases hcall
  | succ depth =>
    simp only [tools, callValue, applyFunction, if_neg hlength] at hcall
    exact (settledIn_inj (o := .error _) hcall).2.symm

/-- A function of three parameters that answers with a number. -/
def answerTerm : Term := .lambda none ["stream", "i", "env"] (.int 42)

/-- The value of that term. -/
def answerValue : Value Function := .function (.closure none ["stream", "i", "env"] (.int 42) [])

theorem hasValue_text : HasValue [] (.text "x") (.text "x") := fun t w => by
  rw [Script.eval]
  rfl

theorem hasValue_answerTerm : HasValue [] answerTerm answerValue := fun t w => by
  rw [answerTerm, Script.eval]
  rfl

theorem hasValue_int (scope : Script.Scope) (n : Int) : HasValue scope (.int n) (.int n) :=
  fun t w => by
    rw [Script.eval]
    rfl

/-- A function that gives the value of a term gives nothing else, and changes nothing. -/
theorem callsTo_termThunk {body : Term} {v : Value Function} (hbody : HasValue [] body v)
    {w w' : World Function} {o : Except (Fault Function) (Value Function)} :
    CallsTo (applyFunction []) (termThunk body) [] w o w' ↔ o = .ok v ∧ w' = w :=
  callsTo_closure rfl hbody

theorem givesUnfit_text : GivesUnfit (applyFunction []) (termThunk (.text "x")) (.text "x") 0 where
  unfit := nofun
  of_thunk h hcall := by
    obtain ⟨rfl, rfl⟩ := (callsTo_termThunk hasValue_text).1 hcall
    exact ⟨rfl, h⟩
  of_value := nofun

theorem givesUnfit_answer :
    GivesUnfit (applyFunction []) (termThunk answerTerm) answerValue 0 where
  unfit := nofun
  of_thunk h hcall := by
    obtain ⟨rfl, rfl⟩ := (callsTo_termThunk hasValue_answerTerm).1 hcall
    exact ⟨rfl, h⟩
  of_value {f A w w' args o} _ h hcall := by
    by_cases hlength : args.length = 3
    · obtain ⟨-, rfl⟩ := (callsTo_closure hlength (hasValue_int _ 42)).1 hcall
      exact h
    · obtain rfl := callsTo_closure_of_wrongCount hlength hcall
      exact h

/-- The deferred parser is called, and what its function gives is on record. -/
theorem callsTo_deferringTerm {body : Term} {v : Value Function}
    (hy : GivesUnfit (applyFunction []) (termThunk body) v 0) (hbody : HasValue [] body v)
    {args : List (Value Function)} {text : String} {i : Nat} {env : Value Function}
    (hargs : Value.start? args = some (text, i, env)) :
    CallsTo (applyFunction []) (.parser 5) args (deferringTerm body)
      (.error (.unfit "lazy" .parser v)) ((deferringTerm body).resolve 0 v) :=
  (callsTo_iff_usesTo ((held_deferringTerm body).behaviour_eq rfl) hargs).2
    ((usesTo_unmade hy (held_deferringTerm body)).2
      ⟨rfl, _, (callsTo_termThunk hbody).2 ⟨rfl, rfl⟩, rfl⟩)

/-- The deferred parser is called on a text, and is cloned. -/
theorem uses_deferringTerm {body : Term} {v : Value Function}
    (hy : GivesUnfit (applyFunction []) (termThunk body) v 0) (hbody : HasValue [] body v) :
    ∃ w, Uses (applyFunction []) (termThunk body) v 0 (· = 5) (deferringTerm body) 1
      (fun r => r = 5 ∨ r = 6) w := by
  have hargs : Value.start? [.text "ab"] = some ("ab", 0, (.null : Value Function)) := rfl
  have hcalled : Uses (applyFunction []) (termThunk body) v 0 (· = 5) (deferringTerm body) 1 (· = 5)
      _ := Uses.start.invoke rfl hargs (callsTo_deferringTerm hy hbody hargs)
  exact ⟨_, hcalled.clone rfl rfl⟩

/-- A clone is called after the deferred parser was: a text cannot be called, and a function gives
its answer. -/
theorem invoked_after_uses_clone :
    (∃ w, Uses (applyFunction []) (termThunk (.text "x")) (.text "x") 0 (· = 5)
        (deferringTerm (.text "x")) 1 (fun r => r = 5 ∨ r = 6) w ∧
      ∀ o w', CallsTo (applyFunction []) (.parser 6) [.text "ab"] w o w' ↔
        o = .error (.notCallable (.text "x")) ∧ w' = w) ∧
    ∃ w, Uses (applyFunction []) (termThunk answerTerm) answerValue 0 (· = 5)
        (deferringTerm answerTerm) 1 (fun r => r = 5 ∨ r = 6) w ∧
      ∀ o w', CallsTo (applyFunction []) (.parser 6) [.text "ab"] w o w' ↔
        o = .ok (.int 42) ∧ w' = w := by
  have hargs : Value.start? [.text "ab"] = some ("ab", 0, (.null : Value Function)) := rfl
  constructor
  · obtain ⟨w, hused⟩ := uses_deferringTerm givesUnfit_text hasValue_text
    refine ⟨w, hused, fun o w' => ?_⟩
    obtain ⟨-, hlater, -⟩ := invoked_after_uses givesUnfit_text (held_deferringTerm _) hused
      (.inr rfl) hargs o (.error .noAlternatives) w'
    obtain ⟨-, -, -, hfault⟩ := hlater Nat.one_ne_zero nofun
    exact hfault nofun
  · obtain ⟨w, hused⟩ := uses_deferringTerm givesUnfit_answer hasValue_answerTerm
    refine ⟨w, hused, fun o w' => ?_⟩
    obtain ⟨-, hlater, -⟩ := invoked_after_uses givesUnfit_answer (held_deferringTerm _) hused
      (.inr rfl) hargs o (.error .noAlternatives) w'
    obtain ⟨-, hcall, -⟩ := hlater Nat.one_ne_zero nofun
    exact hcall.trans (callsTo_closure rfl (hasValue_int _ 42))

/-- A deferred parser that makes no parser faults in one way at first and in another way later. -/
theorem misuse_not_repeated : ¬∀ (thunk v : Value Function) (d : DeferralRef) (r : Ref)
    (w w' w'' : World Function) (args : List (Value Function))
    (o o' : Except (Fault Function) (Value Function)),
    Held thunk .null d (· = r) w → GivesUnfit (applyFunction []) thunk v d →
    (Value.start? args).isSome → CallsTo (applyFunction []) (.parser r) args w o w' →
    CallsTo (applyFunction []) (.parser r) args w' o' w'' →
    o' = .error (.unfit "lazy" .parser v) := by
  intro h
  have hargs : Value.start? [.text ""] = some ("", 0, (.null : Value Function)) := rfl
  have hfirst := callsTo_deferringTerm givesUnfit_text hasValue_text hargs
  have hmade := (held_deferringTerm (.text "x")).resolve (.text "x")
  have hsecond : CallsTo (applyFunction []) (.parser 5) [.text ""] _
      (.error (.notCallable (.text "x"))) _ :=
    (callsTo_iff_usesTo (hmade.behaviour_eq rfl) hargs).2 ((usesTo_made hmade nofun).2
      ((callsTo_not_callable (v := .text "x") nofun nofun).2 ⟨rfl, rfl⟩))
  cases h _ _ _ _ _ _ _ _ _ _ (held_deferringTerm _) givesUnfit_text rfl hfirst hsecond

end

end Furthest.Machine
