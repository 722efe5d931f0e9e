import Mathlib.Order.Filter.AtTopBot.Basic
import Furthest.Proofs.Deferred.Gives

/-!
# One run leads to another

A run within a depth leads to runs within all large enough depths (`Leads`): whatever the first one
answers, these answer something related.  The second run is given as a family with one member for
each depth, and may go deeper than the first one where it goes through more objects.
-/

namespace Furthest

open Filter

variable {φ α β α' β' : Type}

/-- Within all large enough depths a computation comes to a value. -/
def Comes (y : ReaderT Nat (Except (Halt φ)) β) (b : β) : Prop := ∀ᶠ n in atTop, y n = .ok b

/-- Whatever the one computation comes to, the other one comes to something related. -/
def Leads (Q : α → β → Prop) (x : Except (Halt φ) α) (y : ReaderT Nat (Except (Halt φ)) β) : Prop :=
  ∀ a, x = .ok a → ∃ b, Comes y b ∧ Q a b

theorem comes_pure (b : β) : Comes (φ := φ) (pure b) b := .of_forall fun _ => rfl

theorem Comes.bind {y : ReaderT Nat (Except (Halt φ)) β} {b : β} (hy : Comes y b)
    {g : β → ReaderT Nat (Except (Halt φ)) β'} {b' : β'} (hg : Comes (g b) b') :
    Comes (y >>= g) b' := by
  filter_upwards [hy, hg] with n hn hn'
  show (y n >>= fun b => g b n) = _
  rw [hn]
  exact hn'

theorem Comes.unique {y : ReaderT Nat (Except (Halt φ)) β} {b b' : β} (h : Comes y b)
    (h' : Comes y b') : b = b' := by
  obtain ⟨n, hn, hn'⟩ := (h.and h').exists
  exact Except.ok.inj (hn.symm.trans hn')

/-- Two computations come to related values, if they come to any. -/
structure Alike (Q : α → β → Prop) (x : ReaderT Nat (Except (Halt φ)) α)
    (y : ReaderT Nat (Except (Halt φ)) β) : Prop where
  forth {a : α} : Comes x a → ∃ b, Comes y b ∧ Q a b
  back {b : β} : Comes y b → ∃ a, Comes x a ∧ Q a b

/-- A computation is alike to itself, as far as what it comes to is related to itself. -/
theorem alike_refl {Q : α → α → Prop} {x : ReaderT Nat (Except (Halt φ)) α}
    (h : ∀ a, Comes x a → Q a a) : Alike Q x x :=
  ⟨fun ha => ⟨_, ha, h _ ha⟩, fun ha => ⟨_, ha, h _ ha⟩⟩

/-- Two computations that come to related values. -/
theorem alike_of_comes {Q : α → β → Prop} {x : ReaderT Nat (Except (Halt φ)) α}
    {y : ReaderT Nat (Except (Halt φ)) β} {a : α} {b : β} (hx : Comes x a) (hy : Comes y b)
    (h : Q a b) : Alike Q x y :=
  ⟨fun ha => ⟨b, hy, hx.unique ha ▸ h⟩, fun hb => ⟨a, hx, hy.unique hb ▸ h⟩⟩

theorem Alike.swap {Q : α → β → Prop} {Q' : β → α → Prop} (hQ : ∀ a b, Q a b → Q' b a)
    {x : ReaderT Nat (Except (Halt φ)) α} {y : ReaderT Nat (Except (Halt φ)) β}
    (h : Alike Q x y) : Alike Q' y x where
  forth hb := (h.back hb).imp fun a ha => ⟨ha.1, hQ a _ ha.2⟩
  back ha := (h.forth ha).imp fun b hb => ⟨hb.1, hQ _ b hb.2⟩

namespace Leads

variable {Q : α → β → Prop} {Q' : α' → β' → Prop} {x : Except (Halt φ) α}
  {y : ReaderT Nat (Except (Halt φ)) β}

theorem mono {R : α → β → Prop} (h : Leads Q x y) (hQ : ∀ a b, Q a b → R a b) : Leads R x y :=
  fun a ha => (h a ha).imp fun b hb => ⟨hb.1, hQ a b hb.2⟩

theorem pure {a : α} {b : β} (h : Q a b) : Leads (φ := φ) Q (pure a) (pure b) := by
  rintro _ ⟨⟩
  exact ⟨b, comes_pure b, h⟩

theorem throw (h : Halt φ) : Leads Q (throw h) y := by
  intro a ha
  cases ha

theorem bind (hxy : Leads Q x y) {f : α → Except (Halt φ) α'}
    {g : β → ReaderT Nat (Except (Halt φ)) β'} (hfg : ∀ a b, Q a b → Leads Q' (f a) (g b)) :
    Leads Q' (x >>= f) (y >>= g) := by
  intro a' h
  cases x with
  | error e => cases h
  | ok a =>
    obtain ⟨b, hy, hQ⟩ := hxy a rfl
    obtain ⟨b', hg, hQ'⟩ := hfg a b hQ a' h
    exact ⟨b', hy.bind hg, hQ'⟩

/-- A last step on the left side only. -/
theorem then_left (hxy : Leads Q x y) {f : α → Except (Halt φ) α'} {R : α' → β → Prop}
    (hf : ∀ a b, Q a b → Leads R (f a) (Pure.pure b)) : Leads R (x >>= f) y := by
  rw [← bind_pure y]
  exact hxy.bind hf

/-- A last step on the right side only. -/
theorem then_right (hxy : Leads Q x y) {g : β → ReaderT Nat (Except (Halt φ)) β'}
    {R : α → β' → Prop} (hg : ∀ a b, Q a b → Leads R (Pure.pure a) (g b)) :
    Leads R x (y >>= g) := by
  rw [← bind_pure x]
  exact hxy.bind hg

theorem ite {b b' : Bool} (hb : b = b') {x₁ x₂ : Except (Halt φ) α}
    {y₁ y₂ : ReaderT Nat (Except (Halt φ)) β} (h₁ : b = true → Leads Q x₁ y₁)
    (h₂ : b = false → Leads Q x₂ y₂) :
    Leads Q (if b then x₁ else x₂) (if b' then y₁ else y₂) := by
  subst hb
  cases b with
  | true => exact h₁ rfl
  | false => exact h₂ rfl

end Leads

/-- Leading to equal values, as a pairing. -/
def leading (φ : Type) : Pairing (Likeness.same φ) (Except (Halt φ)) (ReaderT Nat (Except (Halt φ)))
    where
  Holds _ Q x y := Leads (Q ()) x y
  pure := Leads.pure
  bind hxy hfg := Leads.bind hxy fun a b => hfg () a b (le_refl _)
  throw _ := Leads.throw _

namespace Rules

variable [FunctionText φ] (R : Rules φ) (budget : Nat)

/-- What grammars need, up to a depth. -/
def hostAt (n : Nat) : Host (Except (Halt φ)) φ := R.host (R.run budget n) budget

/-- A call up to a depth leads to the same call within large enough depths. -/
theorem calls_leading (n : Nat) :
    (leading φ).Calls () (R.hostAt budget n).call (R.hosts budget).call := by
  rintro _ - v _ args args' rfl hargs u hu
  rw [(List.forall₂_eq_eq_eq ▸ hargs : args = args')] at hu
  refine ⟨u, ?_, rfl⟩
  filter_upwards [eventually_ge_atTop n] with n' hn
  have hcall := (R.hosts_mono (le_refl budget) hn).call () (le_refl _) v v args' args' rfl
    (List.forall₂_same.2 fun _ _ => rfl)
  obtain ⟨_, hu', rfl⟩ := hcall.1 u hu
  exact hu'

variable {R budget}

theorem comes_callback {n : Nat} {f : Callback φ} {v env u : Value φ}
    (h : f.run (R.hostAt budget n).call v env = .ok u) :
    Comes (f.run (R.hosts budget).call v env) u := by
  obtain ⟨_, hu, rfl⟩ := Pairing.holds_callback (R.calls_leading budget n)
    (Grammar.likeSame_callback f) rfl rfl u h
  exact hu

theorem comes_test {n : Nat} {test : Test φ} {c : Char} {env : Value φ} {passes : Bool}
    (h : test.run (R.hostAt budget n).call c env = .ok passes) :
    Comes (test.run (R.hosts budget).call c env) passes := by
  obtain ⟨_, hp, rfl⟩ := Pairing.holds_test (R.calls_leading budget n)
    (Grammar.likeSame_test test) c rfl passes h
  exact hp

theorem comes_call {n : Nat} {f : Value φ} {args : List (Value φ)} {u : Value φ}
    (h : (R.hostAt budget n).call f args = .ok u) : Comes ((R.hosts budget).call f args) u := by
  obtain ⟨_, hu, rfl⟩ := R.calls_leading budget n () (le_refl _) f f args args rfl
    (List.forall₂_same.2 fun _ _ => rfl) u h
  exact hu

end Rules

end Furthest
