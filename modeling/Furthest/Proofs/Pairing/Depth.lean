import Furthest.Proofs.Pairing.Grammar

/-!
# Families of computations

A family has one computation for each depth that a run may have.  The behaviour of a grammar in a
family of hosts is, at each depth, its behaviour in the host of that depth
(`Grammar.denote_family`).
-/

namespace Furthest

variable {m : Type → Type} [Monad m] {φ : Type} [MonadExceptOf (Halt φ) m]

/-- The hosts of all depths as one. -/
def Host.family (hosts : Nat → Host m φ) (budget : Nat) : Host (ReaderT Nat m) φ where
  object r s i env n := (hosts n).object r s i env
  deferred d s i env n := (hosts n).deferred d s i env
  call f args n := (hosts n).call f args
  describe v n := (hosts n).describe v
  log entry n := (hosts n).log entry
  budget := budget

variable [LawfulMonad m]

/-- A family does at a depth what a computation does: both are what some computation of pairs does,
seen from either side. -/
def atDepth (hthrow : ∀ {α β : Type} (f : α → β) (h : Halt φ), f <$> (throw h : m α) = throw h)
    (n : Nat) : Pairing (Likeness.same φ) (ReaderT Nat m) m where
  Holds {α β} _ Q x y := ∃ z : m {p : α × β // Q () p.1 p.2},
    (fun p => p.1.1) <$> z = x n ∧ (fun p => p.1.2) <$> z = y
  pure {_ _ _ _ a b} h := ⟨Pure.pure ⟨(a, b), h⟩, map_pure _ _, map_pure _ _⟩
  bind {_ _ _ _ _ Q R x y f g} := by
    rintro ⟨z, hx, hy⟩ hfg
    have hstep : ∀ p : {p : _ × _ // Q () p.1 p.2}, ∃ z' : m {p : _ × _ // R () p.1 p.2},
        (fun p => p.1.1) <$> z' = f p.1.1 n ∧ (fun p => p.1.2) <$> z' = g p.1.2 :=
      fun p => hfg () p.1.1 p.1.2 (le_refl _) p.2
    choose next hf hg using hstep
    refine ⟨z >>= next, ?_, ?_⟩
    · show _ = x n >>= fun a => f a n
      rw [map_bind, ← hx, bind_map_left]
      exact bind_congr hf
    · rw [map_bind, ← hy, bind_map_left]
      exact bind_congr hg
  throw {α β s Q h h'} hh := by
    obtain rfl : h = h' := hh.eq
    exact ⟨MonadExcept.throw h, hthrow _ h, hthrow _ h⟩

variable {hthrow : ∀ {α β : Type} (f : α → β) (h : Halt φ), f <$> (throw h : m α) = throw h}
  {n : Nat}

theorem atDepth_of_eq {α : Type} {Q : Unit → α → α → Prop} (hQ : ∀ a, Q () a a)
    {x : ReaderT Nat m α} {y : m α} (h : x n = y) : (atDepth hthrow n).Holds () Q x y := by
  refine ⟨(fun a => ⟨(a, a), hQ a⟩) <$> y, ?_, ?_⟩
  · rw [h, ← comp_map]
    exact id_map y
  · rw [← comp_map]
    exact id_map y

variable (hthrow) in
theorem hosts_family {hosts : Nat → Host m φ} {budget : Nat} (hb : (hosts n).budget = budget) :
    (atDepth hthrow n).Hosts () (Host.family hosts budget) (hosts n) where
  object := by
    rintro _ - r _ rfl _ - s i env _ rfl
    exact atDepth_of_eq (.refl fun _ => rfl) rfl
  deferred := by
    rintro _ - d _ rfl _ - s i env _ rfl
    exact atDepth_of_eq (.refl fun _ => rfl) rfl
  call := by
    rintro _ - f _ args args' rfl hargs
    rw [(List.forall₂_eq_eq_eq ▸ hargs : args = args')]
    exact atDepth_of_eq (fun _ => rfl) rfl
  describe := by
    rintro _ - v _ rfl
    exact atDepth_of_eq (fun _ => rfl) rfl
  log := by
    rintro _ - entry entry' he
    obtain rfl := he.eq
    exact atDepth_of_eq (fun _ => trivial) rfl
  times hs _ _ hp := Pairing.like_times_of_eq hb.symm hs hp

/-- At each depth a grammar does in a family of hosts what it does in the host of that depth. -/
theorem Grammar.denote_family
    (hthrow : ∀ {α β : Type} (f : α → β) (h : Halt φ), f <$> (throw h : m α) = throw h)
    {hosts : Nat → Host m φ} {budget : Nat} (hb : ∀ n, (hosts n).budget = budget) (g : Grammar φ)
    (s : Input) (i : Nat) (env : Value φ) (n : Nat) :
    g.denote (Host.family hosts budget) s i env n = g.denote (hosts n) s i env := by
  obtain ⟨z, hx, hy⟩ := Pairing.like_denote (hosts_family hthrow (hb n))
    (Grammar.like_same g) () (le_refl _) s i env env rfl
  rw [← hx, ← hy]
  refine congrArg (· <$> z) (funext fun p => ?_)
  exact Likeness.results_same.1 p.2

end Furthest
