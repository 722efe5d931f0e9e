import Furthest.Proofs.Parallel.Behaviour

/-!
# Grammars side by side

Two grammars are twins under a difference if they have the same form but for labels and wrappers
around their parts (`Rules.Twin`): where labels may differ, one side may have a new label around a
part, and in any case one side may trace a part, or have an object where the other one has what the
object's rule says.  Their callbacks come to the same, and choose objects that are related in turn.

If related objects have rules that are twins, twins lead to results that are the same up to the
difference (`Rules.parallel_denote`).  The proof is by induction on the depth of the left run, and
within a depth on how the grammars are twins.  The right run may go deeper.
-/

namespace Furthest

open Difference Filter

variable {φ : Type}

/-- Two values that are the same, and one to keep to. -/
def Kept (V : Value φ → Prop) (v v' : Value φ) : Prop := v = v' ∧ V v

theorem Kept.swap {V : Value φ → Prop} {v v' : Value φ} (h : Kept V v v') : Kept V v' v :=
  ⟨h.1.symm, h.1 ▸ h.2⟩

/-- Two values that choose related objects, if they choose any. -/
structure Chosen (T : Ref → Ref → Prop) (v v' : Value φ) : Prop where
  forth {r : Ref} : v = .parser r → ∃ r', v' = .parser r' ∧ T r r'
  back {r' : Ref} : v' = .parser r' → ∃ r, v = .parser r ∧ T r r'

theorem Chosen.swap {T : Ref → Ref → Prop} {v v' : Value φ} (h : Chosen T v v') :
    Chosen (fun r r' => T r' r) v' v :=
  ⟨h.back, h.forth⟩

namespace Rules

variable [FunctionText φ] (R : Rules φ) (V : Value φ → Prop) (D : Difference)
  (T : Ref → Ref → Prop)

/-- Two callbacks come to related values of a value in an environment. -/
def AlikeCallbacks (Q : Value φ → Value φ → Prop) (f f' : Callback φ) : Prop :=
  ∀ budget v env, V v → V env →
    Alike Q (f.run (R.hosts budget).call v env) (f'.run (R.hosts budget).call v env)

/-- Two tests come to the same of a character in an environment. -/
def AlikeTests (test test' : Test φ) : Prop :=
  ∀ budget c env, V env →
    Alike Eq (test.run (R.hosts budget).call c env) (test'.run (R.hosts budget).call c env)

/-- Two functions come to related values of an environment. -/
def AlikeFunctions (Q : Value φ → Value φ → Prop) (f f' : Value φ) : Prop :=
  ∀ budget env, V env → Alike Q ((R.hosts budget).call f [env]) ((R.hosts budget).call f' [env])

mutual

/-- Two grammars of the same form but for labels and wrappers. -/
inductive Twin : Grammar φ → Grammar φ → Prop where
  | object {r r' : Ref} : T r r' → Twin (.object r) (.object r')
  | deferred {d d' : DeferralRef} :
    T (R.target d) (R.target d') → Twin (.deferred d) (.deferred d')
  | succeed {v : Value φ} : V v → Twin (.succeed v) (.succeed v)
  | fail {label label' : String} : (D.sameLabels → label = label') →
    Twin (.fail label) (.fail label')
  | offset : D.Unmoved → Twin .offset .offset
  | position : D.Unmoved → Twin .position .position
  | eof : Twin .eof .eof
  | anyChar : Twin .anyChar .anyChar
  | rest : Twin .rest .rest
  | string (literal : String) : Twin (.string literal) (.string literal)
  | regex (p : Pattern) (group : GroupName) (label : String) : D.Unmoved →
    Twin (.regex p group label) (.regex p group label)
  | satisfy {test test' : Test φ} (label : String) : R.AlikeTests V test test' →
    Twin (.satisfy test label) (.satisfy test' label)
  | takeWhile {test test' : Test φ} : R.AlikeTests V test test' →
    Twin (.takeWhile test) (.takeWhile test')
  | seq {ps ps' : List (Grammar φ)} : TwinAll ps ps' → Twin (.seq ps) (.seq ps')
  | alt {p p' : Grammar φ} {ps ps' : List (Grammar φ)} : Twin p p' → TwinAll ps ps' →
    Twin (.alt p ps) (.alt p' ps')
  | times {p p' : Grammar φ} (min max : Limit) : Twin p p' →
    Twin (.times p min max) (.times p' min max)
  | mapEnv {p p' : Grammar φ} {f f' : Callback φ} : Twin p p' →
    R.AlikeCallbacks V (Kept V) f f' → Twin (.mapEnv p f) (.mapEnv p' f')
  | chainEnv {p p' : Grammar φ} {f f' : Callback φ} : Twin p p' →
    R.AlikeCallbacks V (Chosen T) f f' → Twin (.chainEnv p f) (.chainEnv p' f')
  | relabel {p p' : Grammar φ} {label label' : String} : Twin p p' →
    (D.sameLabels → label = label') → Twin (.relabel p label) (.relabel p' label')
  | relabel_left {p p' : Grammar φ} (label : String) : Twin p p' → ¬D.sameLabels →
    Twin (.relabel p label) p'
  | relabel_right {p p' : Grammar φ} (label : String) : Twin p p' → ¬D.sameLabels →
    Twin p (.relabel p' label)
  | except {p p' q q' : Grammar φ} : Twin p p' → Twin q q' → Twin (.except p q) (.except p' q')
  | lookAhead {p p' : Grammar φ} : Twin p p' → Twin (.lookAhead p) (.lookAhead p')
  | trace_left {p p' : Grammar φ} (label : Value φ) : Twin p p' → Twin (.trace p label) p'
  | trace_right {p p' : Grammar φ} (label : Value φ) : Twin p p' → Twin p (.trace p' label)
  | subEnv {p p' : Grammar φ} {f f' : Value φ} : Twin p p' →
    R.AlikeFunctions V (Kept V) f f' → Twin (.subEnv p f) (.subEnv p' f')
  | fromEnv {f f' : Value φ} : R.AlikeFunctions V (Chosen T) f f' →
    Twin (.fromEnv f) (.fromEnv f')
  | unfold_left {r : Ref} {p' : Grammar φ} : Twin (R.rule r) p' → Twin (.object r) p'
  | unfold_right {p : Grammar φ} {r' : Ref} : Twin p (R.rule r') → Twin p (.object r')

/-- As many grammars on both sides, each twins. -/
inductive TwinAll : List (Grammar φ) → List (Grammar φ) → Prop where
  | nil : TwinAll [] []
  | cons {p p' : Grammar φ} {ps ps' : List (Grammar φ)} : Twin p p' → TwinAll ps ps' →
    TwinAll (p :: ps) (p' :: ps')

end

variable {R V D T} {text : Input}

mutual

/-- Twins are twins from either side. -/
theorem Twin.swap {g g' : Grammar φ} :
    R.Twin V D T g g' → R.Twin V D.swap (fun r r' => T r' r) g' g
  | .object h => .object h
  | .deferred h => .deferred h
  | .succeed h => .succeed h
  | .fail h => .fail fun hs => (h hs).symm
  | .offset h => .offset h.symm
  | .position h => .position h.symm
  | .eof => .eof
  | .anyChar => .anyChar
  | .rest => .rest
  | .string literal => .string literal
  | .regex p group label h => .regex p group label h.symm
  | .satisfy label h => .satisfy label fun b c env henv => (h b c env henv).swap fun _ _ => Eq.symm
  | .takeWhile h => .takeWhile fun b c env henv => (h b c env henv).swap fun _ _ => Eq.symm
  | .seq h => .seq (TwinAll.swap h)
  | .alt h hs => .alt (Twin.swap h) (TwinAll.swap hs)
  | .times min max h => .times min max (Twin.swap h)
  | .mapEnv h hf => .mapEnv (Twin.swap h) fun b v env hv henv =>
    (hf b v env hv henv).swap fun _ _ => Kept.swap
  | .chainEnv h hf => .chainEnv (Twin.swap h) fun b v env hv henv =>
    (hf b v env hv henv).swap fun _ _ => Chosen.swap
  | .relabel h hl => .relabel (Twin.swap h) fun hs => (hl hs).symm
  | .relabel_left label h hl => .relabel_right label (Twin.swap h) hl
  | .relabel_right label h hl => .relabel_left label (Twin.swap h) hl
  | .except hp hq => .except (Twin.swap hp) (Twin.swap hq)
  | .lookAhead h => .lookAhead (Twin.swap h)
  | .trace_left label h => .trace_right label (Twin.swap h)
  | .trace_right label h => .trace_left label (Twin.swap h)
  | .subEnv h hf => .subEnv (Twin.swap h) fun b env henv =>
    (hf b env henv).swap fun _ _ => Kept.swap
  | .fromEnv hf => .fromEnv fun b env henv => (hf b env henv).swap fun _ _ => Chosen.swap
  | .unfold_left h => .unfold_right (Twin.swap h)
  | .unfold_right h => .unfold_left (Twin.swap h)

theorem TwinAll.swap {ps ps' : List (Grammar φ)} :
    R.TwinAll V D T ps ps' → R.TwinAll V D.swap (fun r r' => T r' r) ps' ps
  | .nil => .nil
  | .cons h hs => .cons (Twin.swap h) (TwinAll.swap hs)

end

/-! ## Twins are parallel -/

section

variable {budget n : Nat}

/-- What an object's rule comes to, the object comes to one depth later. -/
theorem comes_object {r : Ref} {s : Input} {i : Nat} {env : Value φ} {result : Result (Value φ)}
    (h : Comes ((R.rule r).denote (R.hosts budget) s i env) result) :
    Comes ((R.hosts budget).object r s i env) result := by
  refine eventually_succ ?_
  filter_upwards [h] with n hn
  rw [← hn, R.denote_hosts]
  rfl

theorem parallel_object_right {p : Within φ} {r' : Ref}
    (h : D.Parallel V text p ((R.rule r').denote (R.hosts budget))) :
    D.Parallel V text p ((R.hosts budget).object r') := by
  intro i j env hp henv result hresult
  obtain ⟨result', hcomes, hr⟩ := h i j env hp henv result hresult
  exact ⟨result', comes_object hcomes, hr⟩

theorem parallel_object_left {r : Ref} {q : Throughout φ}
    (h : ∀ m < n, D.Parallel V text ((R.rule r).denote (R.hostAt budget m)) q) :
    D.Parallel V text ((R.hostAt budget n).object r) q := by
  cases n with
  | zero => exact fun _ _ _ _ _ => .throw _
  | succ m => exact h m (Nat.lt_succ_self m)

/-- A test that was passed up to a depth leads to a test that comes to the same. -/
theorem leads_test {test test' : Test φ} (h : R.AlikeTests V test test') (c : Char) {env : Value φ}
    (henv : V env) :
    Leads Eq (test.run (R.hostAt budget n).call c env) (test'.run (R.hosts budget).call c env) :=
  fun _ hp => (h budget c env henv).forth (comes_test hp)

theorem leads_callback {Q : Value φ → Value φ → Prop} {f f' : Callback φ}
    (h : R.AlikeCallbacks V Q f f') {v env : Value φ} (hv : V v) (henv : V env) :
    Leads Q (f.run (R.hostAt budget n).call v env) (f'.run (R.hosts budget).call v env) :=
  fun _ hu => (h budget v env hv henv).forth (comes_callback hu)

theorem leads_function {Q : Value φ → Value φ → Prop} {f f' : Value φ}
    (h : R.AlikeFunctions V Q f f') {env : Value φ} (henv : V env) :
    Leads Q ((R.hostAt budget n).call f [env]) ((R.hosts budget).call f' [env]) :=
  fun _ hu => (h budget env henv).forth (comes_call hu)

/-- Related objects are run where related objects are chosen. -/
theorem leads_chosen {P : Within φ → Throughout φ → Prop} {complaint complaint' : Value φ → Fault φ}
    (hT : ∀ r r', T r r' → P ((R.hostAt budget n).object r) ((R.hosts budget).object r'))
    {x : Except (Halt φ) (Value φ)} {y : ReaderT Nat (Except (Halt φ)) (Value φ)}
    (h : Leads (Chosen T) x y) :
    Leads P (x >>= (R.hostAt budget n).chosen complaint)
      (y >>= (R.hosts budget).chosen complaint') := by
  refine h.bind fun v v' hv => ?_
  cases v with
  | parser r =>
    obtain ⟨r', rfl, hr⟩ := hv.forth rfl
    exact .pure (hT r r' hr)
  | _ => exact .throw _

variable (hV : Domain V)
  (hobject : ∀ r r', T r r' →
    D.Parallel V text ((R.hostAt budget n).object r) ((R.hosts budget).object r'))
  (hbelow : ∀ m < n, ∀ g g', R.Twin V D T g g' →
    D.Parallel V text (g.denote (R.hostAt budget m)) (g'.denote (R.hosts budget)))

include hV hobject hbelow

set_option linter.unusedSectionVars false in
mutual

/-- Twins are parallel up to a depth, if related objects are and twins are below that depth. -/
theorem parallel_denote_of_below {g g' : Grammar φ} : R.Twin V D T g g' →
    D.Parallel V text (g.denote (R.hostAt budget n)) (g'.denote (R.hosts budget))
  | .object h => hobject _ _ h
  | .deferred h => hobject _ _ h
  | .succeed h => parallel_leaf fun _ _ hp => .success hp h
  | .fail hl => parallel_leaf fun _ _ hp => .failure hp hV.null hl
  | .offset hD => parallel_leaf fun i j hp => by
      obtain rfl := hD.place_iff.1 hp
      exact .success hp (hV.nat i)
  | .position hD => parallel_leaf fun i j hp => by
      obtain rfl := hD.place_iff.1 hp
      rw [← hD.text_eq text]
      exact .success hp (hV.position _)
  | .eof => parallel_leaf fun _ _ => results_eof hV
  | .anyChar => parallel_leaf fun _ _ => results_anyChar hV
  | .rest => parallel_leaf fun _ _ => results_rest hV
  | .string literal => parallel_leaf fun _ _ => results_string hV literal
  | .regex p group label hD => parallel_regex hV hD p group label
  | .satisfy label ht => parallel_satisfy hV (fun c _ henv => leads_test ht c henv) label
  | .takeWhile ht => parallel_takeWhile hV fun c => leads_test ht c hV.null
  | .seq hs => parallel_seq hV (parallel_denoteAll_of_below hs)
  | .alt h hs => parallel_alt (parallel_denote_of_below h) (parallel_denoteAll_of_below hs)
  | .times min max h => parallel_times hV (parallel_denote_of_below h) min max budget
  | .mapEnv h hf => parallel_mapEnv (parallel_denote_of_below h) fun _ _ hv henv =>
      leads_callback hf hv henv
  | .chainEnv h hf => parallel_chainEnv (parallel_denote_of_below h) fun _ _ hv henv =>
      leads_chosen hobject (leads_callback hf hv henv)
  | .relabel h hl => parallel_relabel hV (parallel_denote_of_below h) hl
  | .relabel_left label h hl => parallel_relabel_left (parallel_denote_of_below h) hl label
  | .relabel_right label h hl => parallel_relabel_right (parallel_denote_of_below h) hl label
  | .except hp hq => parallel_except hV (parallel_denote_of_below hp) (parallel_denote_of_below hq)
      fun _ => .pure rfl
  | .lookAhead h => parallel_lookAhead (parallel_denote_of_below h)
  | .trace_left label h => parallel_trace_left (parallel_denote_of_below h) label fun _ => rfl
  | .trace_right label h => parallel_trace_right (parallel_denote_of_below h) label fun _ => rfl
  | .subEnv h hf => parallel_subEnv (parallel_denote_of_below h) fun _ henv =>
      leads_function hf henv
  | .fromEnv hf => parallel_fromEnv fun _ henv => leads_chosen hobject (leads_function hf henv)
  | .unfold_left h => parallel_object_left fun m hm => hbelow m hm _ _ h
  | .unfold_right h => parallel_object_right (parallel_denote_of_below h)

theorem parallel_denoteAll_of_below {ps ps' : List (Grammar φ)} : R.TwinAll V D T ps ps' →
    List.Forall₂ (D.Parallel V text) (Grammar.denoteAll (R.hostAt budget n) ps)
      (Grammar.denoteAll (R.hosts budget) ps')
  | .nil => .nil
  | .cons h hs => .cons (parallel_denote_of_below h) (parallel_denoteAll_of_below hs)

end

end

/-- Twins are parallel if related objects have twins as their rules. -/
theorem parallel_denote (hV : Domain V) (hT : ∀ r r', T r r' → R.Twin V D T (R.rule r) (R.rule r'))
    {budget : Nat} (n : Nat) {g g' : Grammar φ} (h : R.Twin V D T g g') :
    D.Parallel V text (g.denote (R.hostAt budget n)) (g'.denote (R.hosts budget)) := by
  induction n using Nat.strong_induction_on generalizing g g' with
  | _ n ih =>
    refine parallel_denote_of_below hV (fun r r' hr => ?_) (fun m hm _ _ h => ih m hm h) h
    exact parallel_object_left fun m hm => parallel_object_right (ih m hm (hT r r' hr))

variable (text) in
/-- What the rules give for an object, they give for a related object in the same place, up to the
difference. -/
theorem gives_of_twin (hV : Domain V)
    (hT : ∀ r r', T r r' → R.Twin V D T (R.rule r) (R.rule r')) {r r' : Ref} (hr : T r r')
    {i j : Nat} (hp : D.Place i j) {env : Value φ} (henv : V env) {result : Result (Value φ)}
    (h : R.Gives r (D.leftText text) i env (.ok result)) :
    ∃ result', R.Gives r' (D.rightText text) j env (.ok result') ∧ D.Results V result result' := by
  obtain ⟨budget, depth, hrun⟩ := h
  obtain ⟨result', hcomes, hresult⟩ :=
    parallel_denote hV hT depth (.object hr) i j env hp henv result hrun
  exact ⟨result', ⟨budget, hcomes.exists⟩, hresult⟩

end Rules

end Furthest
