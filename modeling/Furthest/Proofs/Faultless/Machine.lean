import Furthest.Machine.Run
import Furthest.Proofs.Faultless.Grammar

/-!
# Deferred parsers that do not fault

A deferred parser is total from a state on if it was made into an object that serves the
environment, or if its function makes such an object (`Machine.DeferralTotal`).  That object may then
take the place of the object that the parser was made with, before and after it is used.  A total
deferred parser does not fault (`Machine.finishes_useDeferred`, `Machine.serves_runDeferred`).
-/

namespace Furthest.Machine

open Setting Behaviour

variable {φ : Type} {t : Tools φ} {K : Setting φ (World φ)}
  {S : World φ → Ref → Value φ → Prop}

/-! ## Deferred parsers -/

/-- A deferred parser `d` that was made with the object `self` and has come to the object `r`: the
state after `self` was rebound to what `r` does. -/
def adopted (w : World φ) (d : DeferralRef) (self r : Ref) : World φ :=
  (w.resolve d (.parser r)).rebind self ((w.resolve d (.parser r)).cell r).behaviour

variable (t K S)

/-- From a state on, a deferred parser has been made into an object that serves the environment, or
its function makes one. -/
def DeferralTotal (w : World φ) (d : DeferralRef) (env : Value φ) : Prop :=
  ∀ w', K.reach w w' → match (w'.deferral d).target with
    | .null => K.Finishes (t.call (w'.deferral d).thunk []) w' fun made w'' =>
        ∃ r, made = .parser r ∧
          K.reach w'' (adopted w'' d (w'.deferral d).self r) ∧
          S (adopted w'' d (w'.deferral d).self r) r env ∧
          ∀ w₃, K.reach (adopted w'' d (w'.deferral d).self r) w₃ →
            K.reach w₃ (w₃.rebind (w'.deferral d).self (w₃.cell r).behaviour)
    | .parser r => S w' r env
    | _ => False

/-- What serves in a state. -/
def serving : Serving φ (World φ) := ⟨S, DeferralTotal t K S⟩

variable {t K S}

theorem adopt_object {α : Type} (use : Value φ → Machine φ α) (d : DeferralRef) (self r : Ref)
    (w : World φ) :
    adopt use d self (.parser r) w = (do
      let answer ← use (.parser r)
      replace self r
      return answer) (adopted w d self r) := rfl

/-- A total deferred parser is used as an object that serves the environment. -/
theorem finishes_useDeferred {α : Type} {use : Value φ → Machine φ α} {Q : α → Prop}
    {d : DeferralRef} {env : Value φ} {w : World φ}
    (huse : ∀ w r, S w r env → K.Finishes (use (.parser r)) w fun a _ => Q a)
    (h : DeferralTotal t K S w d env) : K.Finishes (useDeferred t use d) w fun a _ => Q a := by
  have hd := h w (K.reach_refl w)
  have hget : K.Finishes (get : Machine φ (World φ)) w fun w₁ w₂ => w = w₁ ∧ w = w₂ :=
    ⟨K.reach_refl w, rfl, rfl⟩
  refine hget.bind ?_
  rintro _ _ - - ⟨rfl, rfl⟩
  dsimp only
  cases htarget : (w.deferral d).target with
  | null =>
    rw [htarget] at hd
    refine hd.bind fun made w₁ _ _ hmade => ?_
    obtain ⟨r, rfl, hreach, hserves, hkeep⟩ := hmade
    refine Finishes.of_apply (adopt_object use d _ r w₁) hreach ?_
    refine (huse _ r hserves).bind fun a w₂ _ hw₂ ha => ?_
    exact ⟨hkeep w₂ hw₂, ha⟩
  | parser r =>
    rw [htarget] at hd
    exact huse w r hd
  | _ =>
    rw [htarget] at hd
    exact hd.elim

theorem serves_runDeferred
    (hS : ∀ {w r env}, S w r env → K.Serves (t.run r) env w) {d : DeferralRef} {env : Value φ}
    {w : World φ} (h : DeferralTotal t K S w d env) : K.Serves (runDeferred t d) env w :=
  fun _ hw s i hi => finishes_useDeferred
    (fun w' _ hr => hS hr w' (K.reach_refl w') s i hi) fun w'' hw' => h w'' (K.reach_trans hw hw')

end Furthest.Machine
