import Furthest.Proofs.Scope.Grammar

/-!
# Grammars that no environment reaches

In a sealed grammar (`Rules.Sealed`) nothing reads the environment, or whatever reads it lies below
an environment that is always the same one.  A sealed grammar is pushed to itself, whatever two
environments it is run in (`Rules.pushed_of_sealed`).
-/

namespace Furthest

variable {φ : Type}

/-- A callback that is not given the environment. -/
def Callback.Blind : Callback φ → Prop
  | .valueAndEnv _ => False
  | _ => True

/-- A test that is not given the environment. -/
def Test.Blind : Test φ → Prop
  | .valueAndEnv _ => False
  | _ => True

section

variable {m : Type → Type} [Monad m] (call : Value φ → List (Value φ) → m (Value φ))

theorem Callback.Blind.run_eq {f : Callback φ} (h : f.Blind) (v x e : Value φ) :
    f.run call v x = f.run call v e := by
  fun_cases Callback.run call f v x with
  | case2 => exact h.elim
  | _ => simp_all only [Callback.run]

theorem Test.Blind.run_eq {test : Test φ} (h : test.Blind) (c : Char) (x e : Value φ) :
    test.run call c x = test.run call c e := by
  cases test with
  | valueAndEnv f => exact h.elim
  | _ => rfl

end

namespace Rules

variable [FunctionText φ] (R : Rules φ)

/-- Whatever object a callback chooses has a property. -/
def ChoosesIn (C : Ref → Prop) (f : Callback φ) : Prop :=
  ∀ budget v env r, Comes (f.run (R.hosts budget).call v env) (.parser r) → C r

variable (C : Ref → Prop)

mutual

/-- A grammar where everything that reads the environment lies below an environment that is always
the same one.  The objects that it refers to or chooses have a property in turn. -/
inductive Sealed : Grammar φ → Prop where
  | blind {p : Grammar φ} : p.Blind → Sealed p
  | object {r : Ref} : C r → Sealed (.object r)
  | deferred {d : DeferralRef} : C (R.target d) → Sealed (.deferred d)
  | satisfy {test : Test φ} (label : String) : test.Blind → Sealed (.satisfy test label)
  | seq {ps : List (Grammar φ)} : SealedAll ps → Sealed (.seq ps)
  | alt {p : Grammar φ} {ps : List (Grammar φ)} : Sealed p → SealedAll ps → Sealed (.alt p ps)
  | times {p : Grammar φ} (min max : Limit) : Sealed p → Sealed (.times p min max)
  | mapEnv {p : Grammar φ} {f : Callback φ} : Sealed p → f.Blind → Sealed (.mapEnv p f)
  | chainEnv {p : Grammar φ} {f : Callback φ} : Sealed p → f.Blind → R.ChoosesIn C f →
    Sealed (.chainEnv p f)
  | relabel {p : Grammar φ} (label : String) : Sealed p → Sealed (.relabel p label)
  | except {p q : Grammar φ} : Sealed p → Sealed q → Sealed (.except p q)
  | lookAhead {p : Grammar φ} : Sealed p → Sealed (.lookAhead p)
  | trace {p : Grammar φ} (label : Value φ) : Sealed p → Sealed (.trace p label)
  | subEnv {p : Grammar φ} {f : Value φ} : Sealed p → (∀ x, ∃ e, R.Derives f x e) →
    Sealed (.subEnv p f)
  /-- Below an environment that is always the same one there may be anything. -/
  | constant (p : Grammar φ) {f c : Value φ} : (∀ x, R.Derives f x c) → Sealed (.subEnv p f)

/-- Several grammars, each sealed. -/
inductive SealedAll : List (Grammar φ) → Prop where
  | nil : SealedAll []
  | cons {p : Grammar φ} {ps : List (Grammar φ)} : Sealed p → SealedAll ps → SealedAll (p :: ps)

end

variable {R C} {F : Value φ → Value φ → Prop}

/-! ## Sealed grammars do the same in any two environments -/

/-- An object with a property, the same on both sides, in any two environments. -/
def Itself (C : Ref → Prop) (_ : Value φ → Value φ → Prop) (r r' : Ref) : Prop := r = r' ∧ C r

theorem testsMeet_of_blind {test : Test φ} (h : test.Blind) : R.TestsMeet F test test := by
  intro budget c x e _
  rw [h.run_eq (R.hosts budget).call c x e]
  exact alike_refl fun _ _ => rfl

theorem callbacksMeet_of_blind {Q : Value φ → Value φ → Prop} {f : Callback φ} (h : f.Blind)
    (hQ : ∀ budget v e u, Comes (f.run (R.hosts budget).call v e) u → Q u u) :
    R.CallbacksMeet F Q f f := by
  intro budget v x e _
  rw [h.run_eq (R.hosts budget).call v x e]
  exact alike_refl (hQ budget v e)

theorem ChoosesIn.chosen {f : Callback φ} (h : R.ChoosesIn C f) (budget : Nat) (v e u : Value φ)
    (hu : Comes (f.run (R.hosts budget).call v e) u) : Chosen (Itself (φ := φ) C F) u u where
  forth {r} hr := ⟨r, hr, rfl, h budget v e r (hr ▸ hu)⟩
  back {r} hr := ⟨r, hr, rfl, h budget v e r (hr ▸ hu)⟩

/-- A function that gives an environment for every one gives some environment for each of two. -/
theorem functionsMeet_of_total {f : Value φ} (h : ∀ x, ∃ e, R.Derives f x e) :
    R.FunctionsMeet F (fun _ _ => True) f f := by
  intro budget x e _
  obtain ⟨x', hx⟩ := h x
  obtain ⟨e', he⟩ := h e
  exact alike_of_comes (hx budget) (he budget) trivial

theorem functionsMeet_of_constant {f c : Value φ} (h : ∀ x, R.Derives f x c) :
    R.FunctionsMeet F Eq f f :=
  fun budget x e _ => alike_of_comes (h x budget) (h e budget) rfl

mutual

/-- A sealed grammar does the same in any two environments. -/
theorem pushed_of_sealed {F : Value φ → Value φ → Prop} {g : Grammar φ} :
    R.Sealed C g → R.Pushed (Itself C) F g g
  | .blind h => .blind h
  | .object h => .object ⟨rfl, h⟩
  | .deferred h => .deferred ⟨rfl, h⟩
  | .satisfy label h => .satisfy label (testsMeet_of_blind h)
  | .seq hs => .seq (pushedAll_of_sealed hs)
  | .alt h hs => .alt (pushed_of_sealed h) (pushedAll_of_sealed hs)
  | .times min max h => .times min max (pushed_of_sealed h)
  | .mapEnv h hf => .mapEnv (pushed_of_sealed h) (callbacksMeet_of_blind hf fun _ _ _ _ _ => rfl)
  | .chainEnv h hf hC =>
    .chainEnv (pushed_of_sealed h) (callbacksMeet_of_blind hf fun b v e u => hC.chosen b v e u)
  | .relabel label h => .relabel label (pushed_of_sealed h)
  | .except h h' => .except (pushed_of_sealed h) (pushed_of_sealed h')
  | .lookAhead h => .lookAhead (pushed_of_sealed h)
  | .trace label h => .trace label (pushed_of_sealed h)
  | .subEnv h hf => .subEnv (pushed_of_sealed h) (functionsMeet_of_total hf)
  | .constant p hc => .subEnv (.same p fun _ _ => id) (functionsMeet_of_constant hc)

theorem pushedAll_of_sealed {F : Value φ → Value φ → Prop} {ps : List (Grammar φ)} :
    R.SealedAll C ps → R.PushedAll (Itself C) F ps ps
  | .nil => .nil
  | .cons h hs => .cons (pushed_of_sealed h) (pushedAll_of_sealed hs)

end

end Rules

end Furthest
