import Mathlib.Data.List.Forall2
import Mathlib.Order.CompleteBooleanAlgebra
import Mathlib.Order.CompletePartialOrder
import Furthest.Grammar.Denotation

/-!
# Pairs of computations

Two computations in two monads are paired when they do the same up to a correspondence of values.
The correspondence may grow while they run: a `Likeness` gives one for every stage of an order, and
a `Pairing` says what it means that, from a stage on, two computations come to related outcomes.  It
has a rule for each way in which behaviours are put together from computations.

Equality is a likeness of one stage (`Likeness.same`).
-/

namespace Furthest

variable {φ S : Type}

/-! ## Related data -/

/-- Two results tell the same and their values are related. -/
structure Result.Like (R : Value φ → Value φ → Prop) (r r' : Result (Value φ)) : Prop where
  toReport_eq : r.toReport = r'.toReport
  status_eq : r.status = r'.status
  index_eq : r.index = r'.index
  value_like : R r.value r'.value

/-- Two faults have the same cause and concern related values. -/
inductive Fault.Like (R : Value φ → Value φ → Prop) : Fault φ → Fault φ → Prop where
  | unfit (asker : String) (wanted : Requirement) {v v' : Value φ} :
    R v v' → Like R (.unfit asker wanted v) (.unfit asker wanted v')
  | noAlternatives : Like R .noAlternatives .noAlternatives
  | badBounds (min max : Number) : Like R (.badBounds min max) (.badBounds min max)
  | notOperator {v v' : Value φ} : R v v' → Like R (.notOperator v) (.notOperator v')
  | notFound {v v' w w' : Value φ} :
    R v v' → R w w' → Like R (.notFound v w) (.notFound v' w')
  | notCallable {v v' : Value φ} : R v v' → Like R (.notCallable v) (.notCallable v')
  | notIterable {v v' : Value φ} : R v v' → Like R (.notIterable v) (.notIterable v')
  | noSuchGroup : Like R .noSuchGroup .noSuchGroup
  | boundTooLarge : Like R .boundTooLarge .boundTooLarge
  | noField {v v' : Value φ} (field : String) :
    R v v' → Like R (.noField v field) (.noField v' field)
  | mismatch (report : Report) (text : String) :
    Like R (.mismatch report text) (.mismatch report text)
  | raised (kind : FaultKind) (message : String) :
    Like R (.raised kind message) (.raised kind message)

/-- Two runs halt for the same reason. -/
inductive Halt.Like (R : Value φ → Value φ → Prop) : Halt φ → Halt φ → Prop where
  | fault {e e' : Fault φ} : Fault.Like R e e' → Like R (.fault e) (.fault e')
  | exhausted : Like R .exhausted .exhausted

/-- Two entries of the log tell the same of related values. -/
inductive LogEntry.Like (R : Value φ → Value φ → Prop) : LogEntry φ → LogEntry φ → Prop where
  | parsing (length : Nat) {r r' : Ref} :
    R (.parser r) (.parser r') → Like R (.parsing length r) (.parsing length r')
  | parseFailed (report : Report) : Like R (.parseFailed report) (.parseFailed report)
  | trying {label label' : Value φ} (i : Nat) (text : String) :
    R label label' → Like R (.trying label i text) (.trying label' i text)
  | matched {label label' v v' : Value φ} (i j : Nat) :
    R label label' → R v v' → Like R (.matched label i j v) (.matched label' i j v')
  | failed {label label' : Value φ} (report : Report) :
    R label label' → Like R (.failed label report) (.failed label' report)

theorem Fault.Like.eq {e e' : Fault φ} (h : e.Like Eq e') : e = e' := by
  cases h <;> simp_all

theorem Halt.Like.eq {h h' : Halt φ} (hh : h.Like Eq h') : h = h' := by
  cases hh with
  | fault he => rw [he.eq]
  | exhausted => rfl

theorem LogEntry.Like.eq {entry entry' : LogEntry φ} (h : entry.Like Eq entry') :
    entry = entry' := by
  cases h with
  | parsing _ h =>
    cases h
    rfl
  | parseFailed => rfl
  | trying _ _ h | failed _ h =>
    cases h
    rfl
  | matched _ _ h h' =>
    cases h
    cases h'
    rfl

namespace Result.Like

variable {R : Value φ → Value φ → Prop} {r r' b b' : Result (Value φ)}

theorem mono {R' : Value φ → Value φ → Prop} (h : r.Like R r') (hR : ∀ v v', R v v' → R' v v') :
    r.Like R' r' :=
  ⟨h.toReport_eq, h.status_eq, h.index_eq, hR _ _ h.value_like⟩

theorem refl (hR : ∀ v, R v v) (r : Result (Value φ)) : r.Like R r := ⟨rfl, rfl, rfl, hR r.value⟩

theorem merge (h : r.Like R r') (hb : b.Like R b') : (r.merge b).Like R (r'.merge b') :=
  ⟨by simp only [Result.toReport_merge, h.toReport_eq, hb.toReport_eq], h.status_eq, h.index_eq,
    h.value_like⟩

theorem mergeWith (h : r.Like R r') {best best' : Option (Result (Value φ))}
    (hb : Option.Rel (Result.Like R) best best') :
    (r.mergeWith best).Like R (r'.mergeWith best') := by
  cases hb with
  | none => exact h
  | some hb => exact h.merge hb

theorem success (i : Nat) {v v' : Value φ} (h : R v v') :
    (Result.success i v).Like R (Result.success i v') :=
  ⟨rfl, rfl, rfl, h⟩

theorem failure (i : Nat) (label : String) (h : R .null .null) :
    (Result.failure i label : Result (Value φ)).Like R (Result.failure i label) :=
  ⟨rfl, rfl, rfl, h⟩

end Result.Like

/-! ## Likenesses -/

variable [Preorder S]

/-- A correspondence of values, parser objects and deferred parsers for every stage. -/
structure Likeness (S φ : Type) [Preorder S] where
  values : S → Value φ → Value φ → Prop
  objects : S → Ref → Ref → Prop
  deferrals : S → DeferralRef → DeferralRef → Prop
  /-- What is related stays related. -/
  values_mono {s s' : S} {v v' : Value φ} : s ≤ s' → values s v v' → values s' v v'
  objects_mono {s s' : S} {r r' : Ref} : s ≤ s' → objects s r r' → objects s' r r'
  deferrals_mono {s s' : S} {d d' : DeferralRef} :
    s ≤ s' → deferrals s d d' → deferrals s' d d'
  null (s : S) : values s .null .null
  text (s : S) (t : String) : values s (.text t) (.text t)
  nat (s : S) (n : Nat) : values s (.nat n) (.nat n)
  position (s : S) (p : Position) : values s (.position p) (.position p)
  mark {s : S} {a a' v v' b b' : Value φ} : values s a a' → values s v v' → values s b b' →
    values s (.mark a v b) (.mark a' v' b')
  list {s : S} {vs vs' : List (Value φ)} :
    List.Forall₂ (values s) vs vs' → values s (.list vs) (.list vs')
  parser {s : S} {r r' : Ref} : objects s r r' → values s (.parser r) (.parser r')
  /-- A list is related to lists only. -/
  list_or {s : S} {v v' : Value φ} : values s v v' →
    (∃ vs vs', v = .list vs ∧ v' = .list vs' ∧ List.Forall₂ (values s) vs vs') ∨
      (∀ vs, v ≠ .list vs) ∧ ∀ vs, v' ≠ .list vs
  /-- A parser is related to parsers only. -/
  parser_or {s : S} {v v' : Value φ} : values s v v' →
    (∃ r r', v = .parser r ∧ v' = .parser r' ∧ objects s r r') ∨
      (∀ r, v ≠ .parser r) ∧ ∀ r, v' ≠ .parser r
  /-- A result is related to results only. -/
  result_or {s : S} {v v' : Value φ} : values s v v' →
    (∃ r r', v = .result r ∧ v' = .result r' ∧ r.Like (values s) r') ∨
      (∀ r, v ≠ .result r) ∧ ∀ r, v' ≠ .result r
  truthy_eq {s : S} {v v' : Value φ} : values s v v' → v.truthy = v'.truthy
  textOrEmpty_eq {s : S} {v v' : Value φ} : values s v v' → v.textOrEmpty = v'.textOrEmpty

namespace Likeness

/-- The results that are related at a stage. -/
def results (L : Likeness S φ) (s : S) : Result (Value φ) → Result (Value φ) → Prop :=
  Result.Like (L.values s)

/-- Equality. -/
def same (φ : Type) : Likeness Unit φ where
  values _ := Eq
  objects _ := Eq
  deferrals _ := Eq
  values_mono _ := id
  objects_mono _ := id
  deferrals_mono _ := id
  null _ := rfl
  text _ _ := rfl
  nat _ _ := rfl
  position _ _ := rfl
  mark := by rintro _ _ _ _ _ _ _ rfl rfl rfl; rfl
  list h := by rw [List.forall₂_eq_eq_eq] at h; rw [h]
  parser := by rintro _ _ _ rfl; rfl
  list_or := by
    rintro _ v _ rfl
    cases v with
    | list vs => exact Or.inl ⟨vs, vs, rfl, rfl, by rw [List.forall₂_eq_eq_eq]⟩
    | _ => exact Or.inr ⟨nofun, nofun⟩
  parser_or := by
    rintro _ v _ rfl
    cases v with
    | parser r => exact Or.inl ⟨r, r, rfl, rfl, rfl⟩
    | _ => exact Or.inr ⟨nofun, nofun⟩
  result_or := by
    rintro _ v _ rfl
    cases v with
    | result r => exact Or.inl ⟨r, r, rfl, rfl, .refl (fun _ => rfl) r⟩
    | _ => exact Or.inr ⟨nofun, nofun⟩
  truthy_eq := by rintro _ _ _ rfl; rfl
  textOrEmpty_eq := by rintro _ _ _ rfl; rfl

theorem results_same {s : Unit} {r r' : Result (Value φ)} :
    (same φ).results s r r' ↔ r = r' := by
  constructor
  · intro h
    obtain ⟨report, status, index, value⟩ := r
    obtain ⟨report', status', index', value'⟩ := r'
    obtain ⟨rfl, rfl, rfl, rfl⟩ := h
    rfl
  · rintro rfl
    exact .refl (fun _ => rfl) r

end Likeness

/-! ## Pairings -/

/-- What it means that, from a stage on, two computations come to related outcomes. -/
structure Pairing (L : Likeness S φ) (m₁ m₂ : Type → Type) [Monad m₁] [MonadExceptOf (Halt φ) m₁]
    [Monad m₂] [MonadExceptOf (Halt φ) m₂] where
  Holds {α β : Type} : S → (S → α → β → Prop) → m₁ α → m₂ β → Prop
  protected pure {α β : Type} {s : S} {Q : S → α → β → Prop} {a : α} {b : β} :
    Q s a b → Holds s Q (pure a) (pure b)
  protected bind {α β α' β' : Type} {s : S} {Q : S → α → β → Prop} {R : S → α' → β' → Prop} {x : m₁ α}
    {y : m₂ β} {f : α → m₁ α'} {g : β → m₂ β'} : Holds s Q x y →
    (∀ s' a b, s ≤ s' → Q s' a b → Holds s' R (f a) (g b)) → Holds s R (x >>= f) (y >>= g)
  protected throw {α β : Type} {s : S} {Q : S → α → β → Prop} {h h' : Halt φ} :
    h.Like (L.values s) h' → Holds s Q (throw h) (throw h')

end Furthest
