import Furthest.Proofs.Lists.Pairs

/-!
# Recursion over pairs

The recursive grammars of lists and chains try `op` and `p` as the loops do, but then go on by
themselves, where a loop collects the values for later.  One step of such a grammar is one step of a
loop (`alt_pair_eq_map_loop`), if what the grammar goes on with is what the loop does with the values
that it still collects.  This is a condition on one pair only (`Folds`), and then, by induction on what
is left of the text, every recursive grammar does with the values of the loop what the fold does
(`Folds.eq_map_loop`).  There is one as well (`Folds.exists_rest`).
-/

namespace Furthest

variable {φ σ : Type}

namespace Behaviour

variable {I : σ → Prop} {p q op : Behaviour (EStateM (Halt φ) σ) φ} {s : Input} {env : Value φ}
  {i n : Nat} {w : σ}

/-! ## One step -/

/-- What comes after a pair may be merged with it at once, or as the rest of a loop. -/
theorem success_merge_cons (h : Value φ → Value φ → Value φ) (o y : Result (Value φ))
    {l : Result (Value φ)} (hl : -1 ≤ l.furthest) (v : Value φ) :
    (Result.success l.index v).merge ((Result.paired h o y).cons l) =
      ((Result.success l.index v).merge l).merge (y.merge o) := by
  simp [Result.merge, Result.cons, Result.paired, Result.success, ← Report.join_assoc,
    Report.join_silent hl, Report.silent_join hl]

theorem chain_chain_eq_afterPair (go : Value φ → Value φ → Behaviour (EStateM (Halt φ) σ) φ) :
    chain op (fun f => pure (chain p fun y => pure (go f y))) s i env =
      afterPair op p s i env (fun o y =>
        (fun r : Result (Value φ) => r.merge (y.merge o)) <$> go o.value y.value s y.index env)
        pure := by
  rw [chain_apply, afterPair]
  refine bind_congr fun o => ?_
  split
  · rw [pure_bind, chain_apply, bind_assoc]
    refine bind_congr fun y => ?_
    split
    · simp only [pure_bind, bind_assoc, map_eq_pure_bind, Result.merge_assoc]
    · rw [pure_bind]
  · rfl

theorem orElse_succeed (s : Input) (i : Nat) (env v : Value φ) {r : Result (Value φ)}
    (hs : r.status = false) :
    orElse (σ := σ) s i env [succeed v] r = pure ((Result.success i v).merge r) := by
  rw [orElse, hs]
  rfl

theorem alt_chain_eq_afterPair (go : Value φ → Value φ → Behaviour (EStateM (Halt φ) σ) φ)
    (v : Value φ) :
    alt (chain op fun f => pure (chain p fun y => pure (go f y))) [succeed v] s i env =
      afterPair op p s i env (fun o y => go o.value y.value s y.index env >>= fun r =>
        orElse s i env [succeed v] (r.merge (y.merge o))) (orElse s i env [succeed v]) := by
  simp only [alt_apply, chain_chain_eq_afterPair, afterPair_bind, map_eq_pure_bind, bind_assoc,
    pure_bind]

/-- One step of a loop over pairs, with something done to the values in the end. -/
theorem map_loop_succ (hc : PairsConsume I op p) (h : Value φ → Value φ → Value φ) (n : Nat)
    (F : List (Value φ) → EStateM (Halt φ) σ (Value φ)) (hi : i ≤ s.length) (hw : I w) :
    map (loop (pairWith op p h) (n + 1)) (fun l => F l.items) s i env w =
      afterPair op p s i env (fun o y => loop (pairWith op p h) n s y.index env >>= fun l =>
          F (h o.value y.value :: l.value.items) >>= fun v =>
            pure ((Result.success l.index v).merge ((Result.paired h o y).cons l)))
        (fun r => F [] >>= fun v => pure ((Result.success i v).merge r)) w := by
  rw [map_apply, bind_apply, loop_pair_succ hc h n hi hw, ← bind_apply, afterPair_bind]
  refine congrFun (congrArg₂ (afterPair op p s i env) ?_ ?_) w
  · funext o y
    rw [map_eq_pure_bind, bind_assoc]
    rfl
  · funext r
    have hskipped : (r.skipped i).status = true := rfl
    rw [pure_bind, if_pos hskipped]
    exact bind_congr fun v => congrArg pure (Result.success_merge_success i i (.list []) v)

/-- A grammar that tries a pair and goes on from there, or else stops with a value, comes to what is
done with the values of a loop over pairs, if it goes on to that after a pair. -/
theorem alt_pair_eq_map_loop (hop : WellFormed I op) (hp : WellFormed I p)
    (hc : PairsConsume I op p) (h : Value φ → Value φ → Value φ)
    {go : Value φ → Value φ → Behaviour (EStateM (Halt φ) σ) φ}
    {F : List (Value φ) → EStateM (Halt φ) σ (Value φ)} {v : Value φ} (hF : F [] = pure v)
    (hi : i ≤ s.length) (hw : I w)
    (hgo : ∀ o y w', PairMatch op p s env i w o y w' →
      go o.value y.value s y.index env w' =
        map (loop (pairWith op p h) n) (fun l => F (h o.value y.value :: l.items))
          s y.index env w') :
    alt (chain op fun f => pure (chain p fun y => pure (go f y))) [succeed v] s i env w =
      map (loop (pairWith op p h) (n + 1)) (fun l => F l.items) s i env w := by
  rw [alt_chain_eq_afterPair, map_loop_succ hc h n F hi hw]
  refine afterPair_congr (fun o y w' hm => ?_) fun r hs => ?_
  · obtain ⟨hw', -, hwy⟩ := hm.wellFormed hop hp hi hw
    rw [bind_apply, hgo o y w' hm, ← bind_apply, map_apply, bind_assoc]
    refine bind_congr_returns (returns_loop hop hp h n hwy.index_le hw')
      fun l w'' ⟨_, hl, hfurthest⟩ => ?_
    simp only [hl, if_true, bind_assoc, pure_bind, success_merge_cons h o y hfurthest]
    rfl
  · rw [orElse_succeed s i env v hs, hF, pure_bind]

/-! ## The same from inside the text -/

/-- The two behaviours do the same from offsets inside the text and states with `I`. -/
def SameFrom (I : σ → Prop) (p q : Behaviour (EStateM (Halt φ) σ) φ) : Prop :=
  ∀ s i env w, i ≤ s.length → I w → p s i env w = q s i env w

/-- Chains go on alike if they do so after every match. -/
theorem chain_congr {f g : Value φ → Behaviour (EStateM (Halt φ) σ) φ}
    (h : ∀ r w', p s i env w = .ok r w' → r.status = true →
      f r.value s r.index env w' = g r.value s r.index env w') :
    chain p (fun x => pure (f x)) s i env w = chain p (fun x => pure (g x)) s i env w := by
  rw [chain_apply, chain_apply]
  refine bind_congr_returns (fun r w' hr => hr) fun r w' hr => ?_
  by_cases hs : r.status = true
  · rw [if_pos hs, if_pos hs, pure_bind, pure_bind, bind_apply, h r w' hr hs, ← bind_apply]
  · rw [if_neg hs, if_neg hs]

theorem map_congr {f : Value φ → EStateM (Halt φ) σ (Value φ)}
    (h : p s i env w = q s i env w) : map p f s i env w = map q f s i env w := by
  rw [map_apply, map_apply, bind_apply, h, ← bind_apply]

theorem map_congr_returns {Q : Result (Value φ) → σ → Prop}
    {f g : Value φ → EStateM (Halt φ) σ (Value φ)} (hp : Returns (p s i env) w Q)
    (h : ∀ r w', Q r w' → f r.value w' = g r.value w') :
    map p f s i env w = map p g s i env w := by
  rw [map_apply, map_apply]
  refine bind_congr_returns hp fun r w' hr => ?_
  by_cases hs : r.status = true
  · rw [if_pos hs, if_pos hs, bind_apply, h r w' hr, ← bind_apply]
  · rw [if_neg hs, if_neg hs]

theorem alt_chain_congr (hp : WellFormed I p) {f g : Value φ → Behaviour (EStateM (Halt φ) σ) φ}
    (h : ∀ x, SameFrom I (f x) (g x)) (ps : List (Behaviour (EStateM (Halt φ) σ) φ)) :
    SameFrom I (alt (chain p fun x => pure (f x)) ps) (alt (chain p fun x => pure (g x)) ps) := by
  intro s i env w hi hw
  have hchain : chain p (fun x => pure (f x)) s i env w = chain p (fun x => pure (g x)) s i env w :=
    chain_congr fun r w' hr _ =>
      have hwf := hp s i env w hi hw r w' hr
      h r.value s r.index env w' hwf.2.index_le hwf.1
  rw [alt_apply, alt_apply, bind_apply, hchain, ← bind_apply]

/-! ## All steps -/

/-- What is gone on with after a pair does what a fold does with the values of a loop over pairs, if
it does so further on. -/
structure Folds (I : σ → Prop) (V : Value φ → Prop) (op p : Behaviour (EStateM (Halt φ) σ) φ)
    (h : Value φ → Value φ → Value φ)
    (go : (Value φ → Behaviour (EStateM (Halt φ) σ) φ) → Value φ → Value φ → Value φ →
      Behaviour (EStateM (Halt φ) σ) φ)
    (base : Value φ → Value φ) (fold : Value φ → List (Value φ) → EStateM (Halt φ) σ (Value φ)) :
    Prop where
  stop (x : Value φ) : fold x [] = pure (base x)
  step {rest : Value φ → Behaviour (EStateM (Halt φ) σ) φ} {n : Nat} {x : Value φ} {s : Input}
    {i : Nat} {env : Value φ} {w : σ} {o y : Result (Value φ)} {w' : σ} :
    V x → i ≤ s.length → I w → PairMatch op p s env i w o y w' →
    (∀ x', V x' → rest x' s y.index env w' =
      map (loop (pairWith op p h) n) (fun l => fold x' l.items) s y.index env w') →
    go rest x o.value y.value s y.index env w' =
      map (loop (pairWith op p h) n) (fun l => fold x (h o.value y.value :: l.items))
        s y.index env w'

section

variable {V : Value φ → Prop} {h : Value φ → Value φ → Value φ}
  {go : (Value φ → Behaviour (EStateM (Halt φ) σ) φ) → Value φ → Value φ → Value φ →
    Behaviour (EStateM (Halt φ) σ) φ}
  {base : Value φ → Value φ} {fold : Value φ → List (Value φ) → EStateM (Halt φ) σ (Value φ)}

/-- Tries a pair and goes on from there, or else stops. -/
def pairOrStop (op p : Behaviour (EStateM (Halt φ) σ) φ)
    (go : (Value φ → Behaviour (EStateM (Halt φ) σ) φ) → Value φ → Value φ → Value φ →
      Behaviour (EStateM (Halt φ) σ) φ)
    (base : Value φ → Value φ) (rest : Value φ → Behaviour (EStateM (Halt φ) σ) φ) (x : Value φ) :
    Behaviour (EStateM (Halt φ) σ) φ :=
  alt (chain op fun f => pure (chain p fun y => pure (go rest x f y))) [succeed (base x)]

/-- A recursive grammar folds the values of a loop, by induction on what is left of the text. -/
theorem Folds.eq_map_loop (hfold : Folds I V op p h go base fold) (hop : WellFormed I op)
    (hp : WellFormed I p) (hc : PairsConsume I op p)
    {rest : Value φ → Behaviour (EStateM (Halt φ) σ) φ}
    (hrest : ∀ x, V x → SameFrom I (rest x) (pairOrStop op p go base rest x)) {x : Value φ}
    (hx : V x) (hi : i ≤ s.length) (hw : I w) (hn : s.length - i < n) :
    rest x s i env w = map (loop (pairWith op p h) n) (fun l => fold x l.items) s i env w := by
  induction n generalizing i w x with
  | zero => omega
  | succ n ih =>
    rw [hrest x hx s i env w hi hw]
    refine alt_pair_eq_map_loop hop hp hc h (hfold.stop x) hi hw fun o y w' hm => ?_
    obtain ⟨hw', -, hwy⟩ := hm.wellFormed hop hp hi hw
    have hlt := hc hi hw hm
    have hy := hwy.index_le
    exact hfold.step hx hi hw hm fun x' hx' => ih hx' hy hw' (by omega)

/-- There is a recursive grammar: what the folds of the loop do. -/
theorem Folds.exists_rest (hfold : Folds I V op p h go base fold) (hop : WellFormed I op)
    (hp : WellFormed I p) (hc : PairsConsume I op p) :
    ∃ rest, ∀ x, V x → SameFrom I (rest x) (pairOrStop op p go base rest x) := by
  refine ⟨fun x s i env => map (loop (pairWith op p h) (s.length - i + 1))
    (fun l => fold x l.items) s i env, fun x hx s i env w hi hw => Eq.symm ?_⟩
  refine alt_pair_eq_map_loop hop hp hc h (hfold.stop x) hi hw fun o y w' hm => ?_
  obtain ⟨hw', -, hwy⟩ := hm.wellFormed hop hp hi hw
  have hlt := hc hi hw hm
  have hy := hwy.index_le
  refine hfold.step hx hi hw hm fun x' _ => ?_
  have henough : s.length - y.index < s.length - i := by omega
  exact map_congr (loop_eq_loop hop hp hc h hy hw' (Nat.lt_succ_self _) henough)

end

end Behaviour

end Furthest
