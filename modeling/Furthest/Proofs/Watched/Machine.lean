import Furthest.Machine.Run
import Furthest.Proofs.Pairing.Grammar
import Furthest.Proofs.Returns
import Furthest.Proofs.Watched.Event

/-!
# Watched runs of parser objects

`Machine.watchedRun` runs a parser object as the machine does and notes the events on the way.  Such
a run does what the plain one does (`Machine.watchedRun_eq`): whenever the plain run
returns, the watched one returns the same in the same world.
-/

namespace Furthest

namespace Machine

variable {φ : Type} [FunctionText φ]

/-- Runs a deferred parser, where `run` runs parser objects and notes events. -/
def watchedDeferred (t : Tools φ) (run : Ref → Behaviour (Watched (Machine φ)) φ)
    (d : DeferralRef) : Behaviour (Watched (Machine φ)) φ := fun s i env => do
  let state := (← (get : Machine φ (World φ))).deferral d
  match state.target with
  | .null =>
    let made ← (t.call state.thunk [] : Machine φ (Value φ))
    (modify (·.resolve d made) : Machine φ PUnit)
    match made with
    | .parser r =>
      (replace state.self r : Machine φ PUnit)
      let result ← run r s i env
      (replace state.self r : Machine φ PUnit)
      return result
    | v => (fault (.unfit "lazy" .parser v) : Machine φ (Result (Value φ)))
  | .parser r => run r s i env
  | v =>
    Watched.observer.foreign
      (fun s i env => ((do
        Host.resultOf (← t.call v [.text (String.ofList s), .nat i, env])) :
          Machine φ (Result (Value φ))))
      s i env

/-- What grammars need in a watched run.  What functions do is not watched. -/
def watchedHost (t : Tools φ) (run : Ref → Behaviour (Watched (Machine φ)) φ) :
    Host (Watched (Machine φ)) φ where
  object := run
  deferred := watchedDeferred t run
  call f args := (t.call f args : Machine φ (Value φ))
  describe v := (describe v : Machine φ String)
  log entry := (log entry : Machine φ PUnit)
  budget := t.budget

/-- Runs a parser object and notes events. -/
def watchedRun (apply : Tools φ → φ → List (Value φ) → Machine φ (Value φ)) (budget : Nat) :
    (depth : Nat) → Ref → Behaviour (Watched (Machine φ)) φ
  | 0, _, _, _, _ => throw .exhausted
  | depth + 1, r, s, i, env => do
    let c ← (cell r : Machine φ (Cell φ))
    c.behaviour.denoteWith Watched.observer
      (watchedHost (tools apply budget depth) (watchedRun apply budget depth)) s i env

/-! ## A watched run does what the plain one does -/

/-- Whenever the plain computation returns, the watched one returns something related in the same
world, whatever was noted before. -/
def erasure (φ : Type) : Pairing (Likeness.same φ) (Watched (Machine φ)) (Machine φ) where
  Holds _ Q x y := ∀ es w b w', y w = .ok b w' → ∃ a es', x es w = .ok (a, es') w' ∧ Q () a b
  pure := by
    rintro _ _ _ _ a b hQ es w _ _ ⟨⟩
    exact ⟨a, es, rfl, hQ⟩
  bind := by
    intro _ _ _ _ _ _ _ x y f g hxy hfg es w b w' h
    obtain ⟨b₁, w₁, hy, hg⟩ := bind_eq_ok h
    obtain ⟨a₁, es₁, hx, hQ⟩ := hxy es w b₁ w₁ hy
    obtain ⟨a, es', hf, hR⟩ := hfg () a₁ b₁ (le_refl _) hQ es₁ w₁ b w' hg
    refine ⟨a, es', ?_, hR⟩
    show EStateM.bind (x es) (fun p => f p.1 p.2) w = _
    simp only [EStateM.bind, hx, hf]
  throw := by
    rintro _ _ _ _ _ _ _ es w _ _ ⟨⟩

omit [FunctionText φ] in
theorem erasure_lift {α : Type} (x : Machine φ α) :
    (erasure φ).Holds () (fun _ => Eq) (x : Watched (Machine φ) α) x := by
  intro es w b w' h
  refine ⟨b, es, ?_, rfl⟩
  show EStateM.bind x (fun a => pure (a, es)) w = _
  simp only [EStateM.bind, h]
  rfl

omit [FunctionText φ] in
theorem watchers_observer : (erasure φ).Watchers Watched.observer .blind := by
  refine ⟨?_, ?_⟩
  · intro _ label place p q hp s' hs text i env env' henv es w b w' h
    obtain ⟨a, es', hx, ha⟩ := hp s' hs text i env env' henv es w b w' h
    refine ⟨a, if a.status then es' else es' ++ [.failure ⟨label, place text i⟩], ?_, ha⟩
    show EStateM.bind (p text i env es) _ w = _
    simp only [EStateM.bind, hx]
    cases a.status <;> rfl
  · intro _ p q hp s' hs text i env env' henv es w b w' h
    exact hp s' hs text i env env' henv (es ++ [.foreign]) w b w' h

omit [FunctionText φ] in
theorem like_lift (q : Behaviour (Machine φ) φ) :
    (erasure φ).Like () (fun s i env => (q s i env : Watched (Machine φ) _)) q := by
  rintro _ - s i env _ rfl es w b w' h
  obtain ⟨_, es', hx, rfl⟩ := erasure_lift (q s i env) es w b w' h
  exact ⟨_, es', hx, Likeness.results_same.2 rfl⟩

/-- Two ways to run parser objects, of which one does what the other does and notes events. -/
def Watches (t : Tools φ) (run : Ref → Behaviour (Watched (Machine φ)) φ) : Prop :=
  ∀ r, (erasure φ).Like () (run r) (t.run r)

section

variable {t : Tools φ} {run : Ref → Behaviour (Watched (Machine φ)) φ}

omit [FunctionText φ] in
theorem like_watchedDeferred (hrun : Watches t run) (d : DeferralRef) :
    (erasure φ).Like () (watchedDeferred t run d) (runDeferred t d) := by
  intro _ hs s i env env' henv
  refine (erasure φ).bind (erasure_lift _) ?_
  rintro _ w _ - rfl
  dsimp only
  cases (w.deferral d).target with
  | null =>
    refine (erasure φ).bind (erasure_lift _) ?_
    rintro _ made _ - rfl
    refine (erasure φ).bind (erasure_lift _) fun _ _ _ _ _ => ?_
    cases made with
    | parser r =>
      refine (erasure φ).bind (erasure_lift _) fun _ _ _ _ _ => ?_
      refine (erasure φ).bind (hrun r () hs s i env env' henv) fun _ a b _ hab => ?_
      exact (erasure φ).bind (erasure_lift _) fun _ _ _ _ _ => (erasure φ).pure hab
    | _ => exact (erasure φ).throw (.fault (.unfit "lazy" .parser rfl))
  | parser r => exact hrun r () hs s i env env' henv
  | _ => exact watchers_observer.foreign (like_lift _) () hs s i env env' henv

theorem hosts_watchedHost (hrun : Watches t run) :
    (erasure φ).Hosts () (watchedHost t run) (host t) where
  object := by
    rintro _ - r _ rfl
    exact hrun r
  deferred := by
    rintro _ - d _ rfl
    exact like_watchedDeferred hrun d
  call := by
    rintro _ - f _ args args' rfl hargs
    rw [(List.forall₂_eq_eq_eq ▸ hargs : args = args')]
    exact erasure_lift _
  describe := by
    rintro _ - v _ rfl
    exact erasure_lift _
  log := by
    rintro _ - entry entry' he es w b w' h
    obtain rfl := he.eq
    obtain ⟨a, es', hx, -⟩ := erasure_lift (log entry) es w b w' h
    exact ⟨a, es', hx, trivial⟩
  times hs _ _ := Pairing.like_times_of_eq rfl hs

end

/-- A watched run does what the plain run does. -/
theorem watches_tools (apply : Tools φ → φ → List (Value φ) → Machine φ (Value φ))
    (budget depth : Nat) : Watches (tools apply budget depth) (watchedRun apply budget depth) := by
  induction depth with
  | zero => exact fun _ _ _ _ _ _ _ _ => (erasure φ).throw .exhausted
  | succ depth ih =>
    intro r _ hs s i env env' henv
    refine (erasure φ).bind (erasure_lift _) ?_
    rintro _ c _ - rfl
    rw [← Grammar.denoteWith_blind]
    exact Pairing.like_denoteWith watchers_observer (hosts_watchedHost ih)
      (Grammar.like_same c.behaviour) () hs s i env env' henv

/-- Whatever a plain run returns, the watched run returns too, in the same world. -/
theorem watchedRun_eq (apply : Tools φ → φ → List (Value φ) → Machine φ (Value φ))
    (budget depth : Nat) (r : Ref) (s : Input) (i : Nat) (env : Value φ) (w : World φ) :
    Returns ((tools apply budget depth).run r s i env) w fun result w' =>
      ∃ events, (watchedRun apply budget depth r s i env).run [] w = .ok (result, events) w' := by
  intro result w' h
  obtain ⟨_, events, hx, hresult⟩ :=
    watches_tools apply budget depth r () (le_refl _) s i env env rfl [] w result w' h
  obtain rfl := Likeness.results_same.1 hresult
  exact ⟨events, hx⟩

end Machine

end Furthest
