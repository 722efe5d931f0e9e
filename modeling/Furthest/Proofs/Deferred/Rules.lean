import Furthest.Proofs.Deferred.Agreement
import Furthest.Machine.Run
import Furthest.Proofs.Pairing.Depth

/-!
# Systems of rules

`Rules` give every parser object of a system once and for all, also those that functions make while
it runs: nothing is deferred, bound or made any more.  A deferred parser does at once what its
target does, and functions have no effect.  `Rules.run` runs an object up to a depth.
-/

namespace Furthest

variable {φ : Type}

/-- What each parser object does, what each deferred parser stands for, and what functions give. -/
structure Rules (φ : Type) where
  rule : Ref → Grammar φ
  /-- The object that the function of a deferred parser makes. -/
  target : DeferralRef → Ref
  names : Ref → Option String
  apply : φ → List (Value φ) → Except (Fault φ) (Value φ)
  /-- A custom parser's function answers with results. -/
  answers {r : Ref} {f : φ} {args : List (Value φ)} {v : Value φ} :
    rule r = .custom (.function f) → apply f args = .ok v → ∃ result, v = .result result
  /-- The bonds under which functions may go together. -/
  admits : Bond φ → Prop
  admits_insert {B : Bond φ} {r r' : Ref} :
    admits B → B.objects r = none → admits (B.insert r r')

/-- The text, the offset and the environment on which a parser object is called. -/
def Value.start? : List (Value φ) → Option (String × Nat × Value φ)
  | [.text s] => some (s, 0, .null)
  | [.text s, .number (.int i)] => some (s, i.toNat, .null)
  | [.text s, .number (.int i), env] => some (s, i.toNat, env)
  | _ => none

/-- Calls on alike arguments start alike. -/
theorem Value.start?_like {B : Bond φ} {args args' : List (Value φ)}
    (h : List.Forall₂ (Value.Like B) args args') :
    (∃ s i env env', Value.start? args = some (s, i, env) ∧
      Value.start? args' = some (s, i, env') ∧ Value.Like B env env') ∨
    Value.start? args = none ∧ Value.start? args' = none := by
  cases h with
  | nil => exact Or.inr ⟨rfl, rfl⟩
  | cons hs hargs =>
    cases hs with
    | text s =>
      cases hargs with
      | nil => exact Or.inl ⟨s, 0, _, _, rfl, rfl, .null⟩
      | cons hi hargs =>
        cases hi with
        | number i =>
          cases i with
          | int i =>
            cases hargs with
            | nil => exact Or.inl ⟨s, i.toNat, _, _, rfl, rfl, .null⟩
            | cons henv hargs =>
              cases hargs with
              | nil => exact Or.inl ⟨s, i.toNat, _, _, rfl, rfl, henv⟩
              | cons _ _ => exact Or.inr ⟨rfl, rfl⟩
          | _ => exact Or.inr ⟨rfl, rfl⟩
        | _ => exact Or.inr ⟨rfl, rfl⟩
    | _ => exact Or.inr ⟨rfl, rfl⟩

namespace Rules

variable (R : Rules φ)

/-- Calls a value: a function, or a parser object on a text. -/
def callValue (run : Ref → Behaviour (Except (Halt φ)) φ) (v : Value φ) (args : List (Value φ)) :
    Except (Halt φ) (Value φ) :=
  match v with
  | .function f => settled (R.apply f args)
  | .parser r =>
    match Value.start? args with
    | some (s, i, env) => .result <$> run r s.toList i env
    | none => throw (.fault (.notCallable v))
  | v => throw (.fault (.notCallable v))

/-- Whatever a custom parser's function answers is a result. -/
theorem result_of_custom {r : Ref} {f : Value φ} (hr : R.rule r = .custom f)
    (run : Ref → Behaviour (Except (Halt φ)) φ) {args : List (Value φ)} {v : Value φ}
    (h : R.callValue run f args = .ok v) : ∃ result, v = .result result := by
  unfold callValue at h
  split at h
  · next f =>
    cases hf : R.apply f args with
    | ok v' =>
      rw [hf] at h
      obtain ⟨result, rfl⟩ := R.answers hr hf
      exact ⟨result, (Except.ok.inj h).symm⟩
    | error e =>
      rw [hf] at h
      cases h
  · next r =>
    split at h
    · next text i env _ =>
      cases hrun : run r text.toList i env with
      | ok result =>
        rw [hrun] at h
        exact ⟨result, (Except.ok.inj h).symm⟩
      | error e =>
        rw [hrun] at h
        cases h
    · cases h
  · cases h

section

variable [FunctionText φ]

/-- What grammars need, where `run` runs parser objects. -/
def host (run : Ref → Behaviour (Except (Halt φ)) φ) (budget : Nat) :
    Host (Except (Halt φ)) φ where
  object := run
  deferred d := run (R.target d)
  call := R.callValue run
  describe v := pure (v.describe R.names)
  log _ := pure ⟨⟩
  budget := budget

/-- Runs a parser object up to a depth. -/
def run (budget : Nat) : (depth : Nat) → Ref → Behaviour (Except (Halt φ)) φ
  | 0, _, _, _, _ => throw .exhausted
  | depth + 1, r, s, i, env => (R.rule r).denote (R.host (run budget depth) budget) s i env

/-- The hosts of all depths. -/
def hosts (budget : Nat) : Host (ReaderT Nat (Except (Halt φ))) φ :=
  Host.family (fun n => R.host (R.run budget n) budget) budget

/-- One depth later an object does what its rule says. -/
theorem run_eq_delayed (budget : Nat) (r : Ref) (s : Input) (i : Nat) (env : Value φ) :
    (fun n => R.run budget n r s i env) =
      delayed φ fun n => (R.rule r).denote (R.host (R.run budget n) budget) s i env := by
  funext n
  cases n <;> rfl

theorem denote_hosts (budget : Nat) (g : Grammar φ) (s : Input) (i : Nat) (env : Value φ)
    (n : Nat) : g.denote (R.hosts budget) s i env n =
      g.denote (R.host (R.run budget n) budget) s i env := by
  have hthrow : ∀ {α β : Type} (f : α → β) (h : Halt φ),
      f <$> (throw h : Except (Halt φ) α) = throw h := fun _ _ => rfl
  have hbudget : ∀ n, (R.host (R.run budget n) budget).budget = budget := fun _ => rfl
  exact Grammar.denote_family hthrow hbudget g s i env n

theorem result_run (budget : Nat) (r : Ref) (s : Input) (i : Nat) (env : Value φ) :
    (fun n => Value.result <$> R.run budget n r s i env) = delayed φ fun n =>
      .result <$> (R.rule r).denote (R.host (R.run budget n) budget) s i env := by
  funext n
  cases n <;> rfl

/-! ### What parsers that hand a call on come to -/

theorem result_denote_custom (budget depth : Nat) {r : Ref} {f : Value φ}
    (hr : R.rule r = .custom f) (text : String) (i : Nat) (env : Value φ) :
    .result <$> (R.rule r).denote (R.host (R.run budget depth) budget) text.toList i env =
      R.callValue (R.run budget depth) f [.text text, .nat i, env] := by
  rw [hr]
  show Value.result <$> (R.callValue (R.run budget depth) f _ >>= Host.resultOf) = _
  rw [String.ofList_toList]
  cases h : R.callValue (R.run budget depth) f [.text text, .nat i, env] with
  | error e => rfl
  | ok v =>
    obtain ⟨result, rfl⟩ := R.result_of_custom hr _ h
    rfl

theorem result_denote_subEnv (budget depth : Nat) (r : Ref) (derive : Value φ) (s : Input) (i : Nat)
    (env : Value φ) :
    .result <$> (Grammar.subEnv (.object r) derive).denote (R.host (R.run budget depth) budget) s i
        env =
      R.callValue (R.run budget depth) derive [env] >>= fun inner =>
        Value.result <$> R.run budget depth r s i inner :=
  map_bind _ _ _

theorem result_denote_fromEnv (budget depth : Nat) (lookup : Value φ) (s : Input) (i : Nat)
    (env : Value φ) :
    .result <$> (Grammar.fromEnv lookup).denote (R.host (R.run budget depth) budget) s i env =
      R.callValue (R.run budget depth) lookup [env] >>= fun v => match v with
        | .parser r => Value.result <$> R.run budget depth r s i env
        | v => throw (.fault (.notFound v lookup)) := by
  show Value.result <$> ((R.callValue (R.run budget depth) lookup [env] >>= fun v =>
    (R.host (R.run budget depth) budget).chosen (.notFound · lookup) v) >>= fun p => p s i env) = _
  rw [bind_assoc, map_bind]
  refine bind_congr fun v => ?_
  cases v <;> rfl

end

end Rules

namespace Machine

section

variable {α : Type} {w : World φ} {d : DeferralRef}

theorem useDeferred_of_null (h : (w.deferral d).target = .null) (t : Tools φ)
    (use : Value φ → Machine φ α) :
    useDeferred t use d w = (t.call (w.deferral d).thunk [] >>= fun made =>
      adopt use d (w.deferral d).self made) w := by
  have hget : (get : Machine φ (World φ)) w = settledIn (.ok w) w := rfl
  unfold useDeferred
  rw [bind_of_settledIn_ok _ hget]
  simp only [h]

/-- What was made is used. -/
theorem useDeferred_of_made {v : Value φ} (h : (w.deferral d).target = v) (hv : v ≠ .null)
    (t : Tools φ) (use : Value φ → Machine φ α) : useDeferred t use d w = use v w := by
  have hget : (get : Machine φ (World φ)) w = settledIn (.ok w) w := rfl
  unfold useDeferred
  rw [bind_of_settledIn_ok _ hget]
  simp only [h]

theorem runDeferred_of_resolved {r : Ref} (h : (w.deferral d).target = .parser r) (t : Tools φ)
    (s : Input) (i : Nat) (env : Value φ) : runDeferred t d s i env w = t.run r s i env w :=
  useDeferred_of_made h nofun t _

end

variable [FunctionText φ]

/-- A parser object is called on a text. -/
theorem callValue_object (apply : Tools φ → φ → List (Value φ) → Machine φ (Value φ))
    (t : Tools φ) (r : Ref) (args : List (Value φ)) :
    callValue apply t (.parser r) args =
      match Value.start? args with
      | some (s, i, env) => invoke t r s i env
      | none => fault (.notCallable (.parser r)) := by
  fun_cases Value.start? args with
  | case1 | case2 | case3 => rfl
  | case4 h₁ h₂ h₃ =>
    unfold callValue
    split <;> simp_all

/-- The hosts of all depths. -/
def hosts (apply : Tools φ → φ → List (Value φ) → Machine φ (Value φ)) (budget : Nat) :
    Host (ReaderT Nat (Machine φ)) φ :=
  Host.family (fun n => host (tools apply budget n)) budget

theorem budget_tools (apply : Tools φ → φ → List (Value φ) → Machine φ (Value φ))
    (budget depth : Nat) : (tools apply budget depth).budget = budget := by
  cases depth <;> rfl

theorem denote_hosts (apply : Tools φ → φ → List (Value φ) → Machine φ (Value φ))
    (budget : Nat) (g : Grammar φ) (s : Input) (i : Nat) (env : Value φ) (n : Nat) :
    g.denote (hosts apply budget) s i env n = g.denote (host (tools apply budget n)) s i env := by
  have hthrow : ∀ {α β : Type} (f : α → β) (h : Halt φ),
      f <$> (throw h : Machine φ α) = throw h := fun _ _ => rfl
  exact Grammar.denote_family hthrow (budget_tools apply budget) g s i env n

end Machine

end Furthest
