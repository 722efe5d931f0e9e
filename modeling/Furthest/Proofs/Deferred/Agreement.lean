import Mathlib.Order.Filter.AtTopBot.Basic
import Furthest.Proofs.Deferred.Bond
import Furthest.Proofs.Returns

/-!
# Agreement of two systems

A computation on the machine and one of a system without state are both given as families, one
member for each depth that a run may have.  They agree at a depth if whatever the one has settled by
then, the other settles in the same way at every depth from some point on: with related outcomes,
under a bond that has only grown.  The machine keeps to worlds that are good for the bond.

`agreement` shows that agreement goes through all ways in which behaviours are put together.
-/

namespace Furthest

open Filter

variable {φ α β : Type}

/-- The end of a run on the machine that was not cut short. -/
def settledIn (o : Except (Fault φ) α) (w : World φ) : EStateM.Result (Halt φ) (World φ) α :=
  match o with
  | .ok a => .ok a w
  | .error e => .error (.fault e) w

/-- The end of a run without state that was not cut short. -/
def settled (o : Except (Fault φ) α) : Except (Halt φ) α :=
  match o with
  | .ok a => .ok a
  | .error e => .error (.fault e)

/-- Two runs come to related values or are stopped by faults with the same cause. -/
inductive Related (B : Bond φ) (Q : α → β → Prop) :
    Except (Fault φ) α → Except (Fault φ) β → Prop where
  | ok {a : α} {b : β} : Q a b → Related B Q (.ok a) (.ok b)
  | error {e e' : Fault φ} : Fault.Like (Value.Like B) e e' → Related B Q (.error e) (.error e')

/-- What the machine comes to from `w` is what the system without state comes to. -/
structure Agrees (Good : Bond φ → World φ → Prop) (k : Nat) (B : Bond φ)
    (Q : Bond φ → α → β → Prop) (x : Nat → Machine φ α) (y : Nat → Except (Halt φ) β)
    (w : World φ) : Prop where
  forth {o : Except (Fault φ) α} {w' : World φ} : x k w = settledIn o w' →
    ∃ B' o', B ≤ B' ∧ Good B' w' ∧ Related B' (Q B') o o' ∧ ∀ᶠ n in atTop, y n = settled o'
  back {o' : Except (Fault φ) β} : y k = settled o' →
    ∃ B' o w', B ≤ B' ∧ Good B' w' ∧ Related B' (Q B') o o' ∧ ∀ᶠ n in atTop, x n w = settledIn o w'

/-! ## Steps one after another -/

theorem settledIn_inj {o o' : Except (Fault φ) α} {w w' : World φ}
    (h : settledIn o w = settledIn o' w') : o = o' ∧ w = w' := by
  cases o <;> cases o' <;> cases h <;> exact ⟨rfl, rfl⟩

theorem settled_inj {o o' : Except (Fault φ) α} (h : settled o = settled o') : o = o' := by
  cases o <;> cases o' <;> cases h <;> rfl

/-- A run in two steps was settled by both steps or by a fault in the first one. -/
theorem bind_eq_settledIn {x : Machine φ α} {f : α → Machine φ β} {w w'' : World φ}
    {o : Except (Fault φ) β} (h : (x >>= f) w = settledIn o w'') :
    (∃ a w', x w = settledIn (.ok a) w' ∧ f a w' = settledIn o w'') ∨
      ∃ e, o = .error e ∧ x w = settledIn (.error e) w'' := by
  rw [bind_apply] at h
  cases hx : x w with
  | ok a w' =>
    rw [hx] at h
    exact Or.inl ⟨a, w', rfl, h⟩
  | error e w' =>
    rw [hx] at h
    cases o with
    | ok b => cases h
    | error e' =>
      cases h
      exact Or.inr ⟨e', rfl, rfl⟩

theorem bind_of_settledIn_ok {x : Machine φ α} (f : α → Machine φ β) {w w' : World φ} {a : α}
    (h : x w = settledIn (.ok a) w') : (x >>= f) w = f a w' := by
  rw [bind_apply, h]
  rfl

theorem bind_of_settledIn_error {x : Machine φ α} (f : α → Machine φ β) {w w' : World φ}
    {e : Fault φ} (h : x w = settledIn (.error e) w') :
    (x >>= f) w = settledIn (.error e) w' := by
  rw [bind_apply, h]
  rfl

theorem bind_eq_settled {x : Except (Halt φ) α} {f : α → Except (Halt φ) β}
    {o : Except (Fault φ) β} (h : x >>= f = settled o) :
    (∃ a, x = settled (.ok a) ∧ f a = settled o) ∨
      ∃ e, o = .error e ∧ x = settled (.error e) := by
  cases x with
  | ok a => exact Or.inl ⟨a, rfl, h⟩
  | error e =>
    cases o with
    | ok b => cases h
    | error e' =>
      cases h
      exact Or.inr ⟨e', rfl, rfl⟩

variable {Good : Bond φ → World φ → Prop} {k : Nat} {B : Bond φ}

theorem Agrees.pure {Q : Bond φ → α → β → Prop} {a : α} {b : β} {w : World φ} (hw : Good B w)
    (h : Q B a b) : Agrees Good k B Q (fun _ => pure a) (fun _ => pure b) w where
  forth hx := by
    obtain ⟨rfl, rfl⟩ := settledIn_inj (o := .ok a) hx
    exact ⟨B, .ok b, le_refl B, hw, .ok h, .of_forall fun _ => rfl⟩
  back hy := by
    obtain rfl := settled_inj (o := .ok b) hy
    exact ⟨B, .ok a, w, le_refl B, hw, .ok h, .of_forall fun _ => rfl⟩

theorem Agrees.bind {α' β' : Type} {Q : Bond φ → α → β → Prop} {R : Bond φ → α' → β' → Prop}
    {x : Nat → Machine φ α} {y : Nat → Except (Halt φ) β} {f : Nat → α → Machine φ α'}
    {g : Nat → β → Except (Halt φ) β'} {w : World φ} (hxy : Agrees Good k B Q x y w)
    (hfg : ∀ B', B ≤ B' → ∀ a b w', Good B' w' → Q B' a b →
      Agrees Good k B' R (fun n => f n a) (fun n => g n b) w') :
    Agrees Good k B R (fun n => x n >>= f n) (fun n => y n >>= g n) w where
  forth h := by
    rcases bind_eq_settledIn h with ⟨a, w₁, hx, hf⟩ | ⟨e, rfl, hx⟩
    · obtain ⟨B₁, _, hB₁, hw₁, ⟨hQ⟩, hy⟩ := hxy.forth hx
      obtain ⟨B₂, o', hB₂, hw₂, ho, hg⟩ := (hfg B₁ hB₁ _ _ w₁ hw₁ hQ).forth hf
      refine ⟨B₂, o', hB₁.trans hB₂, hw₂, ho, ?_⟩
      filter_upwards [hy, hg] with n hy hg
      rw [hy]
      exact hg
    · obtain ⟨B₁, _, hB₁, hw₁, _ | he, hy⟩ := hxy.forth hx
      refine ⟨B₁, _, hB₁, hw₁, .error he, ?_⟩
      filter_upwards [hy] with n hy
      rw [hy]
      rfl
  back h := by
    rcases bind_eq_settled h with ⟨b, hy, hg⟩ | ⟨e, rfl, hy⟩
    · obtain ⟨B₁, _, w₁, hB₁, hw₁, ⟨hQ⟩, hx⟩ := hxy.back hy
      obtain ⟨B₂, o, w₂, hB₂, hw₂, ho, hf⟩ := (hfg B₁ hB₁ _ _ w₁ hw₁ hQ).back hg
      refine ⟨B₂, o, w₂, hB₁.trans hB₂, hw₂, ho, ?_⟩
      filter_upwards [hx, hf] with n hx hf
      rw [bind_of_settledIn_ok (f n) hx]
      exact hf
    · obtain ⟨B₁, _, w₁, hB₁, hw₁, _ | he, hx⟩ := hxy.back hy
      refine ⟨B₁, _, w₁, hB₁, hw₁, .error he, ?_⟩
      filter_upwards [hx] with n hx
      exact bind_of_settledIn_error (f n) hx

/-- A run that comes to one end at every depth at which it is not cut short, and is not from some
depth on. -/
structure SettlesIn (x : Nat → Machine φ α) (w : World φ) (o : Except (Fault φ) α)
    (w' : World φ) : Prop where
  unique {n : Nat} {o₁ : Except (Fault φ) α} {w₁ : World φ} :
    x n w = settledIn o₁ w₁ → o₁ = o ∧ w₁ = w'
  late : ∀ᶠ n in atTop, x n w = settledIn o w'

section

variable {Q : Bond φ → α → β → Prop} {x x' : Nat → Machine φ α} {y : Nat → Except (Halt φ) β}
  {w w' : World φ} {B' : Bond φ}

theorem Agrees.of_settlesIn {o : Except (Fault φ) α} {o' : Except (Fault φ) β}
    (hx : SettlesIn x w o w') (hB : B ≤ B') (hw' : Good B' w') (ho : Related B' (Q B') o o') :
    Agrees Good k B Q x (fun _ => settled o') w where
  forth h := by
    obtain ⟨rfl, rfl⟩ := hx.unique h
    exact ⟨B', o', hB, hw', ho, .of_forall fun _ => rfl⟩
  back h := by
    obtain rfl := settled_inj h
    exact ⟨B', o, w', hB, hw', ho, hx.late⟩

/-- A first step that comes to one end, under a larger bond. -/
theorem Agrees.bind_settlesIn {γ : Type} {z : Nat → Machine φ γ} {c : γ}
    {f : Nat → γ → Machine φ α} (hz : SettlesIn z w (.ok c) w') (hB : B ≤ B')
    (h : Agrees Good k B' Q (fun n => f n c) y w') :
    Agrees Good k B Q (fun n => z n >>= f n) y w where
  forth hx := by
    rcases bind_eq_settledIn hx with ⟨c', w₁, hc, hf⟩ | ⟨e, -, he⟩
    · obtain ⟨hc', rfl⟩ := hz.unique hc
      obtain rfl := Except.ok.inj hc'
      obtain ⟨B₂, o', hB₂, hrest⟩ := h.forth hf
      exact ⟨B₂, o', hB.trans hB₂, hrest⟩
    · cases (hz.unique he).1
  back hy := by
    obtain ⟨B₂, o, w₂, hB₂, hw₂, ho, hx⟩ := h.back hy
    refine ⟨B₂, o, w₂, hB.trans hB₂, hw₂, ho, ?_⟩
    filter_upwards [hz.late, hx] with n hn hx
    rw [bind_of_settledIn_ok (f n) hn]
    exact hx

/-- A step that the machine takes at every depth. -/
theorem Agrees.step (h : Agrees Good k B Q x' y w') (hall : ∀ n, x n w = x' n w') :
    Agrees Good k B Q x y w where
  forth hx := h.forth ((hall k).symm.trans hx)
  back hy := by
    obtain ⟨B₂, o, w₂, hB₂, hw₂, ho, hx⟩ := h.back hy
    refine ⟨B₂, o, w₂, hB₂, hw₂, ho, ?_⟩
    filter_upwards [hx] with n hx
    rw [hall n, hx]

end

/-! ## One depth later -/

/-- A family that goes as another one at the next smaller depth, and is cut short at depth 0. -/
def delayed (φ : Type) {m : Type → Type} [MonadExceptOf (Halt φ) m] (x : Nat → m α) : Nat → m α
  | 0 => throw (Halt.exhausted : Halt φ)
  | n + 1 => x n

theorem eventually_succ {p : Nat → Prop} (h : ∀ᶠ n in atTop, p (n + 1)) :
    ∀ᶠ n in atTop, p n := by
  rw [← map_add_atTop_eq_nat 1]
  exact h

theorem delayed_eq_settledIn {x : Nat → Machine φ α} {w w' : World φ} {o : Except (Fault φ) α}
    (h : delayed φ x k w = settledIn o w') : ∃ j, k = j + 1 ∧ x j w = settledIn o w' := by
  cases k with
  | zero => cases o <;> cases h
  | succ j => exact ⟨j, rfl, h⟩

theorem delayed_eq_settled {y : Nat → Except (Halt φ) α} {o : Except (Fault φ) α}
    (h : delayed φ y k = settled o) : ∃ j, k = j + 1 ∧ y j = settled o := by
  cases k with
  | zero => cases o <;> cases h
  | succ j => exact ⟨j, rfl, h⟩

section

variable {Q : Bond φ → α → β → Prop} {x : Nat → Machine φ α} {y : Nat → Except (Halt φ) β}
  {w : World φ}

theorem Agrees.delayed (h : ∀ j, j < k → Agrees Good j B Q x y w) :
    Agrees Good k B Q (Furthest.delayed φ x) (Furthest.delayed φ y) w where
  forth hx := by
    obtain ⟨j, rfl, hx⟩ := delayed_eq_settledIn hx
    obtain ⟨B', o', hB, hw', ho, hy⟩ := (h j (Nat.lt_succ_self j)).forth hx
    exact ⟨B', o', hB, hw', ho, eventually_succ hy⟩
  back hy := by
    obtain ⟨j, rfl, hy⟩ := delayed_eq_settled hy
    obtain ⟨B', o, w', hB, hw', ho, hx⟩ := (h j (Nat.lt_succ_self j)).back hy
    exact ⟨B', o, w', hB, hw', ho, eventually_succ hx⟩

theorem Agrees.delayed_left (h : ∀ j, j ≤ k → Agrees Good j B Q x y w) :
    Agrees Good k B Q (Furthest.delayed φ x) y w where
  forth hx := by
    obtain ⟨j, rfl, hx⟩ := delayed_eq_settledIn hx
    exact (h j (Nat.le_succ j)).forth hx
  back hy := by
    obtain ⟨B', o, w', hB, hw', ho, hx⟩ := (h k (Nat.le_refl k)).back hy
    exact ⟨B', o, w', hB, hw', ho, eventually_succ hx⟩

theorem Agrees.delayed_right (h : ∀ j, j ≤ k → Agrees Good j B Q x y w) :
    Agrees Good k B Q x (Furthest.delayed φ y) w where
  forth hx := by
    obtain ⟨B', o', hB, hw', ho, hy⟩ := (h k (Nat.le_refl k)).forth hx
    exact ⟨B', o', hB, hw', ho, eventually_succ hy⟩
  back hy := by
    obtain ⟨j, rfl, hy⟩ := delayed_eq_settled hy
    exact (h j (Nat.le_succ j)).back hy

end

/-- Two families agree from every good world. -/
def agreement (Good : Bond φ → World φ → Prop) (k : Nat) :
    Pairing (Bond.likeness φ) (ReaderT Nat (Machine φ)) (ReaderT Nat (Except (Halt φ))) where
  Holds B Q x y := ∀ w, Good B w → Agrees Good k B Q x y w
  pure h _ hw := Agrees.pure hw h
  bind hxy hfg w hw := (hxy w hw).bind (f := fun n a => _) (g := fun n b => _)
    fun B' hB a b w' hw' hQ => hfg B' a b hB hQ w' hw'
  throw h w hw := by
    cases h with
    | fault he =>
      refine ⟨fun hx => ?_, fun hy => ?_⟩
      · obtain ⟨rfl, rfl⟩ := settledIn_inj (o := .error _) hx
        exact ⟨_, .error _, le_refl _, hw, .error he, .of_forall fun _ => rfl⟩
      · obtain rfl := settled_inj (o := .error _) hy
        exact ⟨_, .error _, w, le_refl _, hw, .error he, .of_forall fun _ => rfl⟩
    | exhausted =>
      refine ⟨fun {o _} hx => ?_, fun {o'} hy => ?_⟩
      · cases o <;> cases hx
      · cases o' <;> cases hy

end Furthest
