import Furthest.Proofs.OrderedChoice.Exact
import Furthest.Proofs.Parallel.Grammar

/-!
# Runs side by side

What holds of the results that the rules give for two objects holds of the results of their runs on
the machine, as far as a user can tell results apart (`Machine.yields_of_gives`).  The two objects may
be in two worlds that model the same rules, each in an environment of its own.
-/

namespace Furthest

variable {φ : Type} [FunctionText φ] {R : Rules φ}
  {B : Bond φ} {w : World φ}

/-- A change to results that looks at no value. -/
def LooksAtNoValue (F : Result (Value φ) → Result (Value φ)) : Prop :=
  ∀ (Q : Value φ → Value φ → Prop) r r', r.Like Q r' → (F r).Like Q (F r')

omit [FunctionText φ] in
theorem looksAtNoValue_id : LooksAtNoValue (φ := φ) id := fun _ _ _ h => h

theorem Stated.map {F : Result (Value φ) → Result (Value φ)} (hF : LooksAtNoValue F)
    {result result' : Result (Value φ)} (h : Stated R B w (.ok result) (.ok result')) :
    Stated R B w (.ok (F result)) (.ok (F result')) := by
  obtain ⟨B', hB, hw, hr⟩ := h
  cases hr with
  | ok hr => exact ⟨B', hB, hw, .ok (hF _ _ _ hr)⟩

namespace Machine

variable {apply : Tools φ → φ → List (Value φ) → Machine φ (Value φ)} {B₁ B₂ : Bond φ}
  {w₁ w₂ : World φ} {r₁ r₂ r r' : Ref} {env₁ env₂ env env' : Value φ} {s s' : Input} {i j : Nat}

/-- A run ends, it ends in results only, and these have a property. -/
structure Yields (apply : Tools φ → φ → List (Value φ) → Machine φ (Value φ)) (r : Ref) (s : Input)
    (i : Nat) (env : Value φ) (w : World φ) (P : Result (Value φ) → World φ → Prop) : Prop where
  ends : ∃ o w', ComesTo apply r s i env w o w'
  result {o : Except (Fault φ) (Result (Value φ))} {w' : World φ} :
    ComesTo apply r s i env w o w' → ∃ result, o = .ok result ∧ P result w'

theorem Yields.and {P Q : Result (Value φ) → World φ → Prop} {condition : Prop}
    (h : Yields apply r s i env w₁ P) (h' : condition → Yields apply r s i env w₁ Q) :
    Yields apply r s i env w₁ fun result w' => P result w' ∧ (condition → Q result w') := by
  refine ⟨h.ends, fun ho => ?_⟩
  obtain ⟨result, rfl, hP⟩ := h.result ho
  refine ⟨result, rfl, hP, fun hc => ?_⟩
  obtain ⟨_, ⟨⟩, hQ⟩ := (h' hc).result ho
  exact hQ

/-- If whatever the rules give for one object they give for another one, up to some change, then
where a run of the one comes to a result a run of the other one yields the same up to that
change. -/
theorem yields_of_gives (hpure : ∀ budget, PureFunctions apply budget R)
    (hw₁ : Faithful R B₁ w₁) (hw₂ : Faithful R B₂ w₂) (hr₁ : B₁.objects r₁ = some r)
    (hr₂ : B₂.objects r₂ = some r') (henv₁ : Value.Like B₁ env₁ env)
    (henv₂ : Value.Like B₂ env₂ env') {F F' : Result (Value φ) → Result (Value φ)}
    (hF : LooksAtNoValue F) (hF' : LooksAtNoValue F')
    (h : ∀ result, R.Gives r s i env (.ok result) →
      ∃ result', R.Gives r' s' j env' (.ok result') ∧ F result = F' result')
    {result : Result (Value φ)} {w₁' : World φ}
    (hrun : ComesTo apply r₁ s i env₁ w₁ (.ok result) w₁') :
    Yields apply r₂ s' j env₂ w₂ fun result' w₂' =>
      SameOutcome w₁'.names w₂'.names (.ok (F result)) (.ok (F' result')) := by
  obtain ⟨_, hgives, hstated⟩ := hrun.stated hpure (le_refl B₁) hw₁ hr₁ henv₁
  obtain ⟨given, rfl⟩ := hstated.ok_right
  obtain ⟨given', hgives', heq⟩ := h given hgives
  refine ⟨?_, fun {o w₂'} hrun' => ?_⟩
  · obtain ⟨o, w₂', hrun', -⟩ := comesTo_of_gives hgives' hpure (le_refl B₂) hw₂ hr₂ henv₂
    exact ⟨o, w₂', hrun'⟩
  · obtain ⟨o', hgives₂, hstated'⟩ := hrun'.stated hpure (le_refl B₂) hw₂ hr₂ henv₂
    obtain rfl := hgives₂.unique hgives'
    obtain ⟨result', rfl⟩ := hstated'.ok_left
    have hleft := hstated.map hF
    rw [heq] at hleft
    exact ⟨result', rfl, hleft.same (hstated'.map hF')⟩

end Machine

end Furthest
