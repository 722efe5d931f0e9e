import Furthest.Machine.World

/-!
# What a computation returns

`Returns x s Q` says that whenever the computation `x`, started in state `s`, comes to a value, this
value and the new state satisfy `Q`.  It promises nothing of a computation that halts.  The rules
follow how computations are put together: `returns_pure`, `Returns.bind`, `returns_throw`.  What
holds of all that can come back decides whether two ways to go on are the same computation
(`bind_congr_returns`).
-/

namespace Furthest

variable {ε σ α β : Type}

/-- Whenever `x` returns from the state `s`, its value and the new state satisfy `Q`. -/
def Returns (x : EStateM ε σ α) (s : σ) (Q : α → σ → Prop) : Prop :=
  ∀ a s', x s = .ok a s' → Q a s'

theorem returns_pure {a : α} {s : σ} {Q : α → σ → Prop} (h : Q a s) :
    Returns (pure a : EStateM ε σ α) s Q := by
  rintro b s' ⟨⟩
  exact h

theorem returns_throw {e : ε} {s : σ} {Q : α → σ → Prop} :
    Returns (throw e : EStateM ε σ α) s Q := by
  rintro b s' ⟨⟩

theorem returns_get {s : σ} {Q : σ → σ → Prop} (h : Q s s) :
    Returns (get : EStateM ε σ σ) s Q := by
  rintro b s' ⟨⟩
  exact h

theorem returns_modify {g : σ → σ} {s : σ} {Q : PUnit → σ → Prop} (h : Q ⟨⟩ (g s)) :
    Returns (modify g : EStateM ε σ PUnit) s Q := by
  rintro b s' ⟨⟩
  exact h

theorem returns_any (x : EStateM ε σ α) (s : σ) : Returns x s fun _ _ => True :=
  fun _ _ _ => trivial

theorem bind_apply (x : EStateM ε σ α) (f : α → EStateM ε σ β) (s : σ) :
    (x >>= f) s = match x s with
      | .ok a s' => f a s'
      | .error e s' => .error e s' := rfl

/-- How a computation in two steps has returned. -/
theorem bind_eq_ok {x : EStateM ε σ α} {f : α → EStateM ε σ β} {s : σ} {b : β} {s'' : σ}
    (h : (x >>= f) s = .ok b s'') : ∃ a s', x s = .ok a s' ∧ f a s' = .ok b s'' := by
  rw [bind_apply] at h
  cases hx : x s with
  | ok a s' =>
    rw [hx] at h
    exact ⟨a, s', rfl, h⟩
  | error e s' =>
    rw [hx] at h
    cases h

namespace Returns

variable {x : EStateM ε σ α} {f : α → EStateM ε σ β} {s : σ} {P Q : α → σ → Prop}
  {R : β → σ → Prop}

theorem mono (h : Returns x s P) (hPQ : ∀ a s', P a s' → Q a s') : Returns x s Q :=
  fun a s' hx => hPQ a s' (h a s' hx)

theorem bind (hx : Returns x s Q) (hf : ∀ a s', Q a s' → Returns (f a) s' R) :
    Returns (x >>= f) s R := by
  intro b s'' h
  obtain ⟨a, s', hxa, hfa⟩ := bind_eq_ok h
  exact hf a s' (hx a s' hxa) b s'' hfa

theorem map {g : α → β} (h : Returns x s fun a s' => R (g a) s') : Returns (g <$> x) s R := by
  rw [map_eq_pure_bind]
  exact h.bind fun _ _ ha => returns_pure ha

end Returns

/-- Two ways to go on agree if they do so on whatever can come back. -/
theorem bind_congr_returns {x : EStateM ε σ α} {f g : α → EStateM ε σ β} {s : σ}
    {Q : α → σ → Prop} (hx : Returns x s Q) (h : ∀ a s', Q a s' → f a s' = g a s') :
    (x >>= f) s = (x >>= g) s := by
  rw [bind_apply, bind_apply]
  cases hs : x s with
  | ok a s' => exact h a s' (hx a s' hs)
  | error e s' => rfl

/-- Going on with a computation that gives back what it is given changes nothing. -/
theorem bind_eq_self {x : EStateM ε σ α} {f : α → EStateM ε σ α} {s : σ} {Q : α → σ → Prop}
    (hx : Returns x s Q) (h : ∀ a s', Q a s' → f a s' = .ok a s') : (x >>= f) s = x s :=
  (bind_congr_returns hx h).trans (congrFun (bind_pure x) s)

end Furthest
