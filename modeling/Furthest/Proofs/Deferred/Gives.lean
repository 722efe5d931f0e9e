import Furthest.Proofs.Deferred.Rules

/-!
# What rules give

Whatever a system of rules has settled within some bounds it settles in the same way within all
greater ones (`Rules.run_mono`), so it gives at most one outcome (`Rules.Gives.unique`).
-/

namespace Furthest

variable {φ : Type}

/-- Whatever the one computation has settled, the other one settles in the same way. -/
def settledBelow (φ : Type) : Pairing (Likeness.same φ) (Except (Halt φ)) (Except (Halt φ)) where
  Holds _ Q x y := (∀ a, x = .ok a → ∃ b, y = .ok b ∧ Q () a b) ∧
    ∀ e, x = .error (.fault e) → y = .error (.fault e)
  pure {_ _ _ _ a b} h := by
    refine ⟨fun a' ha => ⟨b, rfl, ?_⟩, nofun⟩
    obtain rfl : a = a' := Except.ok.inj ha
    exact h
  bind {_ _ _ _ _ _ _ x y f g} := by
    rintro ⟨hok, herror⟩ hfg
    cases x with
    | ok a =>
      obtain ⟨b, rfl, hQ⟩ := hok a rfl
      exact hfg () a b (le_refl _) hQ
    | error h =>
      refine ⟨nofun, fun e he => ?_⟩
      obtain rfl : h = .fault e := Except.error.inj he
      rw [herror e rfl]
      rfl
  throw {_ _ _ _ h h'} hh := by
    obtain rfl : h = h' := hh.eq
    exact ⟨nofun, fun _ he => congrArg Except.error (Except.error.inj he)⟩

theorem settledBelow_refl {α : Type} {Q : Unit → α → α → Prop} (hQ : ∀ a, Q () a a)
    (x : Except (Halt φ) α) : (settledBelow φ).Holds () Q x x :=
  ⟨fun a ha => ⟨a, ha, hQ a⟩, fun _ he => he⟩

theorem eq_settled_of_settledBelow {α : Type} {x y : Except (Halt φ) α} {o : Except (Fault φ) α}
    (h : (settledBelow φ).Holds () (fun _ => Eq) x y) (hx : x = settled o) : y = settled o := by
  cases o with
  | ok a =>
    obtain ⟨_, hy, rfl⟩ := h.1 a hx
    exact hy
  | error e => exact h.2 e hx

theorem settled_of_like {p q : Behaviour (Except (Halt φ)) φ} (h : (settledBelow φ).Like () p q)
    {s : Input} {i : Nat} {env : Value φ} {o : Except (Fault φ) (Result (Value φ))}
    (hp : p s i env = settled o) : q s i env = settled o := by
  have hrun := h () (le_refl _) s i env env rfl
  refine eq_settled_of_settledBelow ⟨fun a ha => ?_, hrun.2⟩ hp
  obtain ⟨b, hb, hab⟩ := hrun.1 a ha
  exact ⟨b, hb, Likeness.results_same.1 hab⟩

/-! ## Repetitions that may go on for longer -/

section

variable {p q : Behaviour (Except (Halt φ)) φ} {n n' : Nat}

theorem goesOn_spent_left (next : Behaviour.Repeat (Except (Halt φ)) φ) :
    (settledBelow φ).GoesOn () Behaviour.spent next :=
  fun _ _ _ _ _ _ _ _ _ => ⟨nofun, nofun⟩

theorem goesOn_mandatory_le (text : Input) (env : Value φ) (hp : (settledBelow φ).Like () p q)
    (h : n ≤ n') :
    (settledBelow φ).GoesOn () (Behaviour.mandatory p text env Behaviour.spent n)
      (Behaviour.mandatory q text env Behaviour.spent n') := by
  induction n generalizing n' with
  | zero => exact goesOn_spent_left _
  | succ n ih =>
    obtain ⟨n', rfl⟩ := Nat.exists_eq_add_of_le' (Nat.le_trans (Nat.le_add_left 1 n) h)
    exact Pairing.goesOn_mandatory_succ text rfl hp (ih (Nat.le_of_succ_le_succ h))

theorem goesOn_optional_le (max : Limit) (text : Input) (env : Value φ)
    (hp : (settledBelow φ).Like () p q) (h : n ≤ n') :
    (settledBelow φ).GoesOn () (Behaviour.optional p max text env Behaviour.spent n)
      (Behaviour.optional q max text env Behaviour.spent n') := by
  induction n generalizing n' with
  | zero => exact goesOn_spent_left _
  | succ n ih =>
    obtain ⟨n', rfl⟩ := Nat.exists_eq_add_of_le' (Nat.le_trans (Nat.le_add_left 1 n) h)
    exact Pairing.goesOn_optional_succ max text rfl hp (ih (Nat.le_of_succ_le_succ h))

theorem like_times_le (hp : (settledBelow φ).Like () p q) (min max : Limit) (h : n ≤ n') :
    (settledBelow φ).Like () (Behaviour.times p min max n) (Behaviour.times q min max n') := by
  rintro _ - text i env _ rfl
  cases min with
  | infinite => exact Pairing.holds_start (goesOn_mandatory_le text env hp h) i
  | finite least =>
    cases max with
    | infinite =>
      have hgo := goesOn_optional_le .infinite text env hp h
      exact Pairing.holds_start (Pairing.goesOn_mandatory text rfl hp hgo least) i
    | finite most =>
      exact Pairing.like_times hp (.finite least) (.finite most) n' () (le_refl _) text i env env rfl

end

/-! ## Runs within greater bounds -/

namespace Rules

variable (R : Rules φ) {budget budget' : Nat}

theorem settledBelow_callValue {run run' : Ref → Behaviour (Except (Halt φ)) φ}
    (h : ∀ r, (settledBelow φ).Like () (run r) (run' r)) (v : Value φ) (args : List (Value φ)) :
    (settledBelow φ).Holds () (fun _ => Eq) (R.callValue run v args) (R.callValue run' v args) := by
  unfold callValue
  split
  · exact settledBelow_refl (fun _ => rfl) _
  · split
    · simp only [map_eq_pure_bind]
      refine (settledBelow φ).bind (h _ () (le_refl _) _ _ _ _ rfl) fun _ r r' _ hr => ?_
      obtain rfl := Likeness.results_same.1 hr
      exact (settledBelow φ).pure rfl
    · exact settledBelow_refl (fun _ => rfl) _
  · exact settledBelow_refl (fun _ => rfl) _

variable [FunctionText φ]

theorem settledBelow_host {run run' : Ref → Behaviour (Except (Halt φ)) φ}
    (h : ∀ r, (settledBelow φ).Like () (run r) (run' r)) (hb : budget ≤ budget') :
    (settledBelow φ).Hosts () (R.host run budget) (R.host run' budget') where
  object := by
    rintro _ - r _ rfl
    exact h r
  deferred := by
    rintro _ - d _ rfl
    exact h (R.target d)
  call := by
    rintro _ - v _ args args' rfl hargs
    rw [(List.forall₂_eq_eq_eq ▸ hargs : args = args')]
    exact R.settledBelow_callValue h v args'
  describe := by
    rintro _ - v _ rfl
    exact (settledBelow φ).pure rfl
  log _ _ _ _ := (settledBelow φ).pure trivial
  times _ _ _ hp min max := like_times_le hp min max hb

theorem settledBelow_run {n n' : Nat} (hb : budget ≤ budget') (hn : n ≤ n') (r : Ref) :
    (settledBelow φ).Like () (R.run budget n r) (R.run budget' n' r) := by
  induction n generalizing n' r with
  | zero =>
    intro _ _ s i env env' _
    exact ⟨nofun, nofun⟩
  | succ n ih =>
    obtain ⟨n', rfl⟩ := Nat.exists_eq_add_of_le' (Nat.le_trans (Nat.le_add_left 1 n) hn)
    have hhost := R.settledBelow_host (fun r => ih (Nat.le_of_succ_le_succ hn) r) hb
    exact Pairing.like_denote hhost (Grammar.like_same (R.rule r))

/-- What lies outside of grammars does not depend on the bounds, as far as it is settled. -/
theorem hosts_mono {n n' : Nat} (hb : budget ≤ budget') (hn : n ≤ n') :
    (settledBelow φ).Hosts () (R.host (R.run budget n) budget)
      (R.host (R.run budget' n') budget') :=
  R.settledBelow_host (fun r => R.settledBelow_run hb hn r) hb

/-- What is settled within some bounds is settled within all greater ones. -/
theorem run_mono {n n' : Nat} (hb : budget ≤ budget') (hn : n ≤ n') {r : Ref} {s : Input} {i : Nat}
    {env : Value φ} {o : Except (Fault φ) (Result (Value φ))}
    (h : R.run budget n r s i env = settled o) : R.run budget' n' r s i env = settled o :=
  settled_of_like (R.settledBelow_run hb hn r) h

/-- The rules give an outcome for an object if running it comes to that outcome within some
bounds. -/
def Gives (r : Ref) (s : Input) (i : Nat) (env : Value φ)
    (o : Except (Fault φ) (Result (Value φ))) : Prop :=
  ∃ budget depth, R.run budget depth r s i env = settled o

variable {R} in
/-- Rules give one outcome at most. -/
theorem Gives.unique {r : Ref} {s : Input} {i : Nat} {env : Value φ}
    {o o' : Except (Fault φ) (Result (Value φ))} (h : R.Gives r s i env o)
    (h' : R.Gives r s i env o') : o = o' := by
  obtain ⟨b, n, hn⟩ := h
  obtain ⟨b', n', hn'⟩ := h'
  have hleft := R.run_mono (Nat.le_max_left b b') (Nat.le_max_left n n') hn
  have hright := R.run_mono (Nat.le_max_right b b') (Nat.le_max_right n n') hn'
  exact settled_inj (hleft.symm.trans hright)

end Rules

end Furthest
