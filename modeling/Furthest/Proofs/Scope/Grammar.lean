import Furthest.Proofs.Parallel.Grammar
import Furthest.Proofs.Scope.Between

/-!
# Grammars in two environments

`Rules.Pushed` says of two grammars that the one does in its environment what the other one does in
its own, where the two environments are related in a given way.  Both have the same form.  What
reads the environment comes to the same in both: callbacks, tests, and the functions that choose an
object, which may be another one on either side.  An environment may be derived on one side only, or
on both sides and in different ways; inside, the two environments are related in a way of their own.
In equal environments every grammar does the same as itself.

For an environment that is derived from another one this tells how the derivation is pushed through
a grammar, down to what reads the environment.  If objects that are related have rules that are
pushed, pushed grammars come to the same results (`Rules.gives_of_pushed`).
-/

namespace Furthest

open Filter

variable {φ : Type}

/-- A grammar without parts that looks at no environment. -/
def Grammar.Blind : Grammar φ → Prop
  | .succeed _ | .fail _ | .offset | .position | .eof | .anyChar | .rest | .string _ | .regex ..
  | .takeWhile _ => True
  | _ => False

theorem Grammar.Blind.inEnv_denote {m : Type → Type} [Monad m] [MonadExceptOf (Halt φ) m]
    {g : Grammar φ} (h : g.Blind) (host : Host m φ) (x : Value φ) :
    Behaviour.inEnv x (g.denote host) = g.denote host := by
  cases g <;> first | exact h.elim | rfl

namespace Rules

variable [FunctionText φ] (R : Rules φ)

/-- Two callbacks come to related values of a value, each in its environment. -/
def CallbacksMeet (F Q : Value φ → Value φ → Prop) (f f' : Callback φ) : Prop :=
  ∀ budget v x e, F x e →
    Alike Q (f.run (R.hosts budget).call v x) (f'.run (R.hosts budget).call v e)

/-- Two tests come to the same of a character, each in its environment. -/
def TestsMeet (F : Value φ → Value φ → Prop) (test test' : Test φ) : Prop :=
  ∀ budget c x e, F x e →
    Alike Eq (test.run (R.hosts budget).call c x) (test'.run (R.hosts budget).call c e)

/-- Two functions come to related values, each of its environment. -/
def FunctionsMeet (F Q : Value φ → Value φ → Prop) (f f' : Value φ) : Prop :=
  ∀ budget x e, F x e → Alike Q ((R.hosts budget).call f [x]) ((R.hosts budget).call f' [e])

/-- A function gives an environment for another one. -/
def Derives (f x e : Value φ) : Prop := ∀ budget, Comes ((R.hosts budget).call f [x]) e

variable (T : (Value φ → Value φ → Prop) → Ref → Ref → Prop)

mutual

/-- Two grammars that do the same in two environments. -/
inductive Pushed : (Value φ → Value φ → Prop) → Grammar φ → Grammar φ → Prop where
  /-- In equal environments there is nothing to push. -/
  | same {F : Value φ → Value φ → Prop} (p : Grammar φ) : (∀ x e, F x e → x = e) → Pushed F p p
  | blind {F : Value φ → Value φ → Prop} {p : Grammar φ} : p.Blind → Pushed F p p
  | object {F : Value φ → Value φ → Prop} {r r' : Ref} :
    T F r r' → Pushed F (.object r) (.object r')
  | deferred {F : Value φ → Value φ → Prop} {d d' : DeferralRef} :
    T F (R.target d) (R.target d') → Pushed F (.deferred d) (.deferred d')
  | satisfy {F : Value φ → Value φ → Prop} {test test' : Test φ} (label : String) :
    R.TestsMeet F test test' → Pushed F (.satisfy test label) (.satisfy test' label)
  | seq {F : Value φ → Value φ → Prop} {ps ps' : List (Grammar φ)} :
    PushedAll F ps ps' → Pushed F (.seq ps) (.seq ps')
  | alt {F : Value φ → Value φ → Prop} {p p' : Grammar φ} {ps ps' : List (Grammar φ)} :
    Pushed F p p' → PushedAll F ps ps' → Pushed F (.alt p ps) (.alt p' ps')
  | times {F : Value φ → Value φ → Prop} {p p' : Grammar φ} (min max : Limit) :
    Pushed F p p' → Pushed F (.times p min max) (.times p' min max)
  | mapEnv {F : Value φ → Value φ → Prop} {p p' : Grammar φ} {f f' : Callback φ} :
    Pushed F p p' → R.CallbacksMeet F Eq f f' → Pushed F (.mapEnv p f) (.mapEnv p' f')
  | chainEnv {F : Value φ → Value φ → Prop} {p p' : Grammar φ} {f f' : Callback φ} :
    Pushed F p p' → R.CallbacksMeet F (Chosen (T F)) f f' →
      Pushed F (.chainEnv p f) (.chainEnv p' f')
  | relabel {F : Value φ → Value φ → Prop} {p p' : Grammar φ} (label : String) :
    Pushed F p p' → Pushed F (.relabel p label) (.relabel p' label)
  | except {F : Value φ → Value φ → Prop} {p p' q q' : Grammar φ} :
    Pushed F p p' → Pushed F q q' → Pushed F (.except p q) (.except p' q')
  | lookAhead {F : Value φ → Value φ → Prop} {p p' : Grammar φ} :
    Pushed F p p' → Pushed F (.lookAhead p) (.lookAhead p')
  | trace {F : Value φ → Value φ → Prop} {p p' : Grammar φ} (label : Value φ) :
    Pushed F p p' → Pushed F (.trace p label) (.trace p' label)
  | fromEnv {F : Value φ → Value φ → Prop} {f f' : Value φ} :
    R.FunctionsMeet F (Chosen (T F)) f f' → Pushed F (.fromEnv f) (.fromEnv f')
  /-- Both sides derive environments, which are related in a way of their own. -/
  | subEnv {F G : Value φ → Value φ → Prop} {p p' : Grammar φ} {f f' : Value φ} :
    Pushed G p p' → R.FunctionsMeet F G f f' → Pushed F (.subEnv p f) (.subEnv p' f')
  /-- The left side derives an environment, and the right side's readers make up for it. -/
  | subEnv_left {F G : Value φ → Value φ → Prop} {p p' : Grammar φ} {f : Value φ} :
    Pushed G p p' → (∀ x e, F x e → ∃ x', R.Derives f x x' ∧ G x' e) → Pushed F (.subEnv p f) p'
  | subEnv_right {F G : Value φ → Value φ → Prop} {p p' : Grammar φ} {f' : Value φ} :
    Pushed G p p' → (∀ x e, F x e → ∃ e', R.Derives f' e e' ∧ G x e') → Pushed F p (.subEnv p' f')
  /-- An object does what its rule says. -/
  | unfold_left {F : Value φ → Value φ → Prop} {r : Ref} {p' : Grammar φ} :
    Pushed F (R.rule r) p' → Pushed F (.object r) p'
  | unfold_right {F : Value φ → Value φ → Prop} {p : Grammar φ} {r' : Ref} :
    Pushed F p (R.rule r') → Pushed F p (.object r')

/-- As many grammars on both sides, each pushed. -/
inductive PushedAll : (Value φ → Value φ → Prop) → List (Grammar φ) → List (Grammar φ) → Prop where
  | nil {F : Value φ → Value φ → Prop} : PushedAll F [] []
  | cons {F : Value φ → Value φ → Prop} {p p' : Grammar φ} {ps ps' : List (Grammar φ)} :
    Pushed F p p' → PushedAll F ps ps' → PushedAll F (p :: ps) (p' :: ps')

end

variable {R T} {F : Value φ → Value φ → Prop}

mutual

/-- Pushed grammars are pushed from either side. -/
theorem Pushed.swap {F : Value φ → Value φ → Prop} {g g' : Grammar φ} : R.Pushed T F g g' →
    R.Pushed (fun G r r' => T (fun x e => G e x) r' r) (fun x e => F e x) g' g
  | .same p h => .same p fun x e hF => (h e x hF).symm
  | .blind h => .blind h
  | .object h => .object h
  | .deferred h => .deferred h
  | .satisfy label h => .satisfy label fun b c x e hF => (h b c e x hF).swap fun _ _ => Eq.symm
  | .seq h => .seq (PushedAll.swap h)
  | .alt h hs => .alt (Pushed.swap h) (PushedAll.swap hs)
  | .times min max h => .times min max (Pushed.swap h)
  | .mapEnv h hf => .mapEnv (Pushed.swap h) fun b v x e hF =>
    (hf b v e x hF).swap fun _ _ => Eq.symm
  | .chainEnv h hf => .chainEnv (Pushed.swap h) fun b v x e hF =>
    (hf b v e x hF).swap fun _ _ => Chosen.swap
  | .relabel label h => .relabel label (Pushed.swap h)
  | .except h h' => .except (Pushed.swap h) (Pushed.swap h')
  | .lookAhead h => .lookAhead (Pushed.swap h)
  | .trace label h => .trace label (Pushed.swap h)
  | .fromEnv hf => .fromEnv fun b x e hF => (hf b e x hF).swap fun _ _ => Chosen.swap
  | .subEnv h hf => .subEnv (Pushed.swap h) fun b x e hF => (hf b e x hF).swap fun _ _ => id
  | .subEnv_left h hf => .subEnv_right (Pushed.swap h) fun x e hF => hf e x hF
  | .subEnv_right h hf => .subEnv_left (Pushed.swap h) fun x e hF => hf e x hF
  | .unfold_left h => .unfold_right (Pushed.swap h)
  | .unfold_right h => .unfold_left (Pushed.swap h)

theorem PushedAll.swap {F : Value φ → Value φ → Prop} {ps ps' : List (Grammar φ)} :
    R.PushedAll T F ps ps' →
      R.PushedAll (fun G r r' => T (fun x e => G e x) r' r) (fun x e => F e x) ps' ps
  | .nil => .nil
  | .cons h hs => .cons (Pushed.swap h) (PushedAll.swap hs)

end

/-! ## Equal environments -/

section

variable (R) (budget n : Nat)

theorem leading_run (r : Ref) :
    (leading φ).Like () ((R.hostAt budget n).object r) ((R.hosts budget).object r) := by
  rintro _ - s i env _ rfl result hresult
  refine ⟨result, ?_, Likeness.results_same.2 rfl⟩
  filter_upwards [eventually_ge_atTop n] with n' hn
  exact R.run_mono (le_refl budget) hn (o := .ok result) hresult

/-- Runs up to a depth lead to the same runs within large enough depths. -/
theorem leading_hosts : (leading φ).Hosts () (R.hostAt budget n) (R.hosts budget) where
  object := by
    rintro _ - r _ rfl
    exact R.leading_run budget n r
  deferred := by
    rintro _ - d _ rfl
    exact R.leading_run budget n (R.target d)
  call := R.calls_leading budget n
  describe := by
    rintro _ - v _ rfl
    exact .pure rfl
  log _ _ _ _ := .pure trivial
  times _ _ _ hp min max := Pairing.like_times hp min max budget

theorem leading_denote (g : Grammar φ) :
    (leading φ).Like () (g.denote (R.hostAt budget n)) (g.denote (R.hosts budget)) :=
  Pairing.like_denote (R.leading_hosts budget n) (Grammar.like_same g)

theorem between_of_eq (hF : ∀ x e, F x e → x = e) (g : Grammar φ) :
    Between F (g.denote (R.hostAt budget n)) (g.denote (R.hosts budget)) := by
  refine between_iff.2 fun x e h s i => ?_
  obtain rfl := hF x e h
  exact (R.leading_denote budget n g () (le_refl _) s i x x rfl).mono fun _ _ =>
    Likeness.results_same.1

end

/-! ## Pushed grammars come to the same results -/

section

variable {budget n : Nat}

theorem between_object_right {p : Within φ} {r' : Ref}
    (h : Between F p ((R.rule r').denote (R.hosts budget))) :
    Between F p ((R.hosts budget).object r') :=
  between_iff.2 fun x e hF s i result hresult => by
    obtain ⟨_, hcomes, rfl⟩ := h.leads hF s i result hresult
    exact ⟨result, comes_object hcomes, rfl⟩

theorem between_object_left {r : Ref} {q : Throughout φ}
    (h : ∀ m < n, Between F ((R.rule r).denote (R.hostAt budget m)) q) :
    Between F ((R.hostAt budget n).object r) q := by
  cases n with
  | zero => exact between_iff.2 fun _ _ _ _ _ => .throw _
  | succ m => exact h m (Nat.lt_succ_self m)

theorem leads_callbacksMeet {Q : Value φ → Value φ → Prop} {f f' : Callback φ}
    (h : R.CallbacksMeet F Q f f') (v : Value φ) {x e : Value φ} (hF : F x e) :
    Leads Q (f.run (R.hostAt budget n).call v x) (f'.run (R.hosts budget).call v e) :=
  fun _ hu => (h budget v x e hF).forth (comes_callback hu)

theorem leads_functionsMeet {Q : Value φ → Value φ → Prop} {f f' : Value φ}
    (h : R.FunctionsMeet F Q f f') {x e : Value φ} (hF : F x e) :
    Leads Q ((R.hostAt budget n).call f [x]) ((R.hosts budget).call f' [e]) :=
  fun _ hu => (h budget x e hF).forth (comes_call hu)

variable (hobject : ∀ F r r', T F r r' →
    Between F ((R.hostAt budget n).object r) ((R.hosts budget).object r'))
  (hbelow : ∀ m < n, ∀ F g g', R.Pushed T F g g' →
    Between F (g.denote (R.hostAt budget m)) (g'.denote (R.hosts budget)))

include hobject hbelow

set_option linter.unusedSectionVars false in
mutual

/-- Pushed grammars agree up to a depth, if related objects do and pushed grammars do below that
depth. -/
theorem between_denote_of_below {F : Value φ → Value φ → Prop} {g g' : Grammar φ} :
    R.Pushed T F g g' → Between F (g.denote (R.hostAt budget n)) (g'.denote (R.hosts budget))
  | .same p hF => R.between_of_eq budget n hF p
  | .blind h => between_of_blind (h.inEnv_denote _) (h.inEnv_denote _) (R.leading_denote budget n _)
  | .object h => hobject _ _ _ h
  | .deferred h => hobject _ _ _ h
  | .satisfy label ht => between_satisfy (fun c x e hF _ hp =>
      (ht budget c x e hF).forth (comes_test hp)) label
  | .seq hs => between_seq (between_denoteAll_of_below hs)
  | .alt h hs => between_alt (between_denote_of_below h) (between_denoteAll_of_below hs)
  | .times min max h => between_times (between_denote_of_below h) min max budget
  | .mapEnv h hf => between_mapEnv (between_denote_of_below h) fun v _ _ hF =>
      leads_callbacksMeet hf v hF
  | .chainEnv h hf => between_chainEnv (between_denote_of_below h) fun v _ _ hF =>
      leads_chosen (hobject _) (leads_callbacksMeet hf v hF)
  | .relabel label h => between_relabel (between_denote_of_below h) label
  | .except h h' => between_except (between_denote_of_below h) (between_denote_of_below h')
      fun _ => .pure rfl
  | .lookAhead h => between_lookAhead (between_denote_of_below h)
  | .trace label h => between_trace (between_denote_of_below h) label fun _ _ => .pure trivial
  | .fromEnv hf => between_fromEnv fun _ _ hF =>
      leads_chosen (hobject _) (leads_functionsMeet hf hF)
  | .subEnv h hf => between_subEnv (between_denote_of_below h) fun _ _ hF =>
      leads_functionsMeet hf hF
  | .subEnv_left h hf => between_subEnv_left (between_denote_of_below h) fun x e hF u hu => by
      obtain ⟨x', hx', hG⟩ := hf x e hF
      obtain rfl := (comes_call hu).unique (hx' budget)
      exact ⟨e, comes_pure e, hG⟩
  | .subEnv_right h hf => between_subEnv_right (between_denote_of_below h) fun x e hF u hu => by
      obtain ⟨e', he', hG⟩ := hf x e hF
      cases hu
      exact ⟨e', he' budget, hG⟩
  | .unfold_left h => between_object_left fun m hm => hbelow m hm _ _ _ h
  | .unfold_right h => between_object_right (between_denote_of_below h)

theorem between_denoteAll_of_below {F : Value φ → Value φ → Prop} {ps ps' : List (Grammar φ)} :
    R.PushedAll T F ps ps' → List.Forall₂ (Between F) (Grammar.denoteAll (R.hostAt budget n) ps)
      (Grammar.denoteAll (R.hosts budget) ps')
  | .nil => .nil
  | .cons h hs => .cons (between_denote_of_below h) (between_denoteAll_of_below hs)

end

end

/-- Pushed grammars come to the same results if related objects have rules that are pushed. -/
theorem between_denote (hT : ∀ F r r', T F r r' → R.Pushed T F (R.rule r) (R.rule r'))
    {budget : Nat} (n : Nat) {F : Value φ → Value φ → Prop} {g g' : Grammar φ}
    (h : R.Pushed T F g g') :
    Between F (g.denote (R.hostAt budget n)) (g'.denote (R.hosts budget)) := by
  induction n using Nat.strong_induction_on generalizing F g g' with
  | _ n ih =>
    refine between_denote_of_below (fun F r r' hr => ?_) (fun m hm _ _ _ h => ih m hm h) h
    exact between_object_left fun m hm => between_object_right (ih m hm (hT F r r' hr))

/-- What the rules give for an object, they give for an object that does the same in a related
environment. -/
theorem gives_of_pushed (hT : ∀ F r r', T F r r' → R.Pushed T F (R.rule r) (R.rule r'))
    {r r' : Ref} (h : R.Pushed T F (.object r) (.object r')) {x e : Value φ} (hF : F x e)
    {s : Input} {i : Nat} {result : Result (Value φ)} (hresult : R.Gives r s i x (.ok result)) :
    R.Gives r' s i e (.ok result) := by
  obtain ⟨budget, depth, hrun⟩ := hresult
  obtain ⟨_, hcomes, rfl⟩ := (between_denote hT depth h).leads hF s i result hrun
  exact ⟨budget, hcomes.exists⟩

end Rules

end Furthest
