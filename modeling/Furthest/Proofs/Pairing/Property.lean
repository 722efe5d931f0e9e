import Furthest.Machine.Run
import Furthest.Proofs.Closed
import Furthest.Proofs.Pairing.Grammar

/-!
# Properties of runs

A closed property of computations that halting has holds of what a grammar does, if it holds of what
a host does for it (`Closed.denote`).  On the machine it is enough that it holds of what the tools
run and call: calls of values, parser objects among them, and parses follow (`Closed.callValue`,
`Closed.parse`).
-/

namespace Furthest

variable {m : Type → Type} [Monad m] {φ : Type}

/-- The property holds of whatever the host does. -/
structure Host.Each (K : (α : Type) → m α → Prop) (h : Host m φ) : Prop where
  object (r : Ref) (s : Input) (i : Nat) (env : Value φ) : K _ (h.object r s i env)
  deferred (d : DeferralRef) (s : Input) (i : Nat) (env : Value φ) : K _ (h.deferred d s i env)
  call (f : Value φ) (args : List (Value φ)) : K _ (h.call f args)
  describe (v : Value φ) : K _ (h.describe v)
  log (entry : LogEntry φ) : K _ (h.log entry)

namespace Closed

variable {K : (α : Type) → m α → Prop}

theorem map [LawfulMonad m] (hK : Closed K) {α β : Type} {x : m α} (hx : K _ x) (f : α → β) :
    K _ (f <$> x) := by
  rw [map_eq_pure_bind]
  exact hK.bind hx fun a => hK.pure (f a)

variable [LawfulMonad m] [MonadExceptOf (Halt φ) m]

/-- Two computations do the same and have the property: both are what some computation of pairs with
the property does, seen from either side. -/
def pairing (hK : Closed K) (hthrow : ∀ {α : Type} (h : Halt φ), K α (throw h))
    (hmap : ∀ {α β : Type} (f : α → β) (h : Halt φ), f <$> (throw h : m α) = throw h) :
    Pairing (Likeness.same φ) m m where
  Holds {α β} _ Q x y := ∃ z : m {p : α × β // Q () p.1 p.2}, K _ z ∧
    (fun p => p.1.1) <$> z = x ∧ (fun p => p.1.2) <$> z = y
  pure {_ _ _ _ a b} h := ⟨Pure.pure ⟨(a, b), h⟩, hK.pure _, map_pure _ _, map_pure _ _⟩
  bind {_ _ _ _ _ Q R x y f g} := by
    rintro ⟨z, hz, hx, hy⟩ hfg
    have hstep : ∀ p : {p : _ × _ // Q () p.1 p.2}, ∃ z' : m {p : _ × _ // R () p.1 p.2}, K _ z' ∧
        (fun p => p.1.1) <$> z' = f p.1.1 ∧ (fun p => p.1.2) <$> z' = g p.1.2 :=
      fun p => hfg () p.1.1 p.1.2 (le_refl _) p.2
    choose next hnext hf hg using hstep
    refine ⟨z >>= next, hK.bind hz hnext, ?_, ?_⟩
    · rw [map_bind, ← hx, bind_map_left]
      exact bind_congr hf
    · rw [map_bind, ← hy, bind_map_left]
      exact bind_congr hg
  throw {α β s Q h h'} hh := by
    obtain rfl : h = h' := hh.eq
    exact ⟨MonadExcept.throw h, hthrow h, hmap _ h, hmap _ h⟩

variable {hthrow : ∀ {α : Type} (h : Halt φ), K α (throw h)}
  {hmap : ∀ {α β : Type} (f : α → β) (h : Halt φ), f <$> (throw h : m α) = throw h}

theorem holds (hK : Closed K) {α : Type} {x : m α} (hx : K _ x) {Q : Unit → α → α → Prop}
    (hQ : ∀ a, Q () a a) : (hK.pairing hthrow hmap).Holds () Q x x := by
  refine ⟨(fun a => ⟨(a, a), hQ a⟩) <$> x, hK.map hx _, ?_, ?_⟩ <;>
  · rw [← comp_map]
    exact id_map x

theorem hosts (hK : Closed K) {h : Host m φ} (hh : h.Each K) :
    (hK.pairing hthrow hmap).Hosts () h h where
  object := by
    rintro _ - r _ rfl _ - s i env _ rfl
    exact hK.holds (hh.object r s i env) fun _ => Likeness.results_same.2 rfl
  deferred := by
    rintro _ - d _ rfl _ - s i env _ rfl
    exact hK.holds (hh.deferred d s i env) fun _ => Likeness.results_same.2 rfl
  call := by
    rintro _ - f _ args args' rfl hargs
    rw [(List.forall₂_eq_eq_eq ▸ hargs : args = args')]
    exact hK.holds (hh.call f args') fun _ => rfl
  describe := by
    rintro _ - v _ rfl
    exact hK.holds (hh.describe v) fun _ => rfl
  log := by
    rintro _ - entry entry' he
    obtain rfl := he.eq
    exact hK.holds (hh.log entry) fun _ => trivial
  times hs _ _ := Pairing.like_times_of_eq rfl hs

/-- What holds of all that a host does holds of what a grammar does. -/
theorem denote (hK : Closed K) (hthrow : ∀ {α : Type} (h : Halt φ), K α (throw h))
    (hmap : ∀ {α β : Type} (f : α → β) (h : Halt φ), f <$> (throw h : m α) = throw h)
    {h : Host m φ} (hh : h.Each K) (g : Grammar φ) (s : Input) (i : Nat) (env : Value φ) :
    K _ (g.denote h s i env) := by
  have hosts : (hK.pairing hthrow hmap).Hosts () h h := hK.hosts hh
  obtain ⟨z, hz, hx, -⟩ := Pairing.like_denote hosts (Grammar.like_same g) () (le_refl _) s i env
    env rfl
  rw [← hx]
  exact hK.map hz _

end Closed

/-! ## The machine -/

namespace Closed

variable {K : (α : Type) → Machine φ α → Prop} {t : Tools φ}
  {apply : Tools φ → φ → List (Value φ) → Machine φ (Value φ)}

theorem resultOf (hK : Closed K) (hthrow : ∀ {α : Type} (h : Halt φ), K α (throw h))
    (v : Value φ) : K _ (Host.resultOf v : Machine φ (Result (Value φ))) := by
  cases v with
  | result r => exact hK.pure r
  | _ => exact hthrow _

theorem runTarget (hK : Closed K) (hthrow : ∀ {α : Type} (h : Halt φ), K α (throw h))
    (hrun : ∀ r s i env, K _ (t.run r s i env)) (hcall : ∀ v args, K _ (t.call v args)) (s : Input)
    (i : Nat) (env v : Value φ) : K _ (Machine.runTarget t s i env v) := by
  unfold Machine.runTarget
  split
  · exact hrun _ s i env
  · exact hK.bind (hcall _ _) (hK.resultOf hthrow)

variable [FunctionText φ]

/-- What may be called has the property if calls have it, and what grammars and deferred parsers do
with them. -/
theorem answer (hK : Closed K) (hthrow : ∀ {α : Type} (h : Halt φ), K α (throw h))
    (hcall : ∀ v args, K _ (t.call v args))
    (huse : ∀ d args, K _ (Machine.useDeferred t (fun v => t.call v args) d))
    (hdenote : ∀ (g : Grammar φ) s i env, K _ (g.denote (Machine.host t) s i env)) (text : String)
    (i : Nat) (env : Value φ) (g : Grammar φ) : K _ (Machine.answer t text i env g) := by
  unfold Machine.answer
  split
  · exact hcall _ _
  · exact hcall _ _
  · exact hK.bind (hcall _ _) fun inner => hcall _ _
  · refine hK.bind (hcall _ _) fun v => ?_
    split
    · exact hcall _ _
    · exact hthrow _
  · exact huse _ _
  · exact hK.bind (hdenote _ _ _ _) fun result => hK.pure (Value.result result)

theorem callValue (hK : Closed K) (hthrow : ∀ {α : Type} (h : Halt φ), K α (throw h))
    (hcell : ∀ r, K _ (Machine.cell r)) (hcall : ∀ v args, K _ (t.call v args))
    (huse : ∀ d args, K _ (Machine.useDeferred t (fun v => t.call v args) d))
    (hdenote : ∀ (g : Grammar φ) s i env, K _ (g.denote (Machine.host t) s i env))
    (happly : ∀ f args, K _ (apply t f args)) (v : Value φ) (args : List (Value φ)) :
    K _ (Machine.callValue apply t v args) := by
  have hinvoke : ∀ r text i env, K _ (Machine.invoke t r text i env) := fun r text i env =>
    hK.bind (hcell r) fun c => hK.answer hthrow hcall huse hdenote text i env c.behaviour
  unfold Machine.callValue
  split
  · exact happly _ _
  · exact hinvoke _ _ _ _
  · exact hinvoke _ _ _ _
  · exact hinvoke _ _ _ _
  · exact hthrow _

theorem parse (hK : Closed K) (hthrow : ∀ {α : Type} (h : Halt φ), K α (throw h))
    (hh : (Machine.host t).Each K) (r : Ref) (s : Input) (env : Value φ) :
    K _ ((Machine.host t).parse r s env) := by
  refine hK.bind (hh.log _) fun _ => ?_
  refine hK.bind (hK.denote hthrow (fun _ _ => rfl) hh _ s 0 env) fun result => ?_
  split
  · exact hK.pure _
  · exact hK.bind (hh.log _) fun _ => hK.pure _

end Closed

end Furthest
