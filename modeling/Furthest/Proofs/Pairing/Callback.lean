import Furthest.Proofs.Pairing.Basic

/-!
# Pairs of callbacks

Related callbacks take related values to related values, if calls of functions do
(`Pairing.holds_callback`).  Where a callback takes a list apart, what it is given on the other side
is a list of related items, or no list on either side.
-/

namespace Furthest

variable {φ S : Type} [Preorder S]

/-- Two callbacks of the same form with related values. -/
inductive Callback.Like (L : Likeness S φ) (s : S) : Callback φ → Callback φ → Prop where
  | value {f f' : Value φ} : L.values s f f' → Like L s (.value f) (.value f')
  | valueAndEnv {f f' : Value φ} : L.values s f f' → Like L s (.valueAndEnv f) (.valueAndEnv f')
  | spread {f f' : Value φ} : L.values s f f' → Like L s (.spread f) (.spread f')
  | constant {v v' : Value φ} : L.values s v v' → Like L s (.constant v) (.constant v')
  | item (k : Nat) : Like L s (.item k) (.item k)
  | singleton : Like L s .singleton .singleton
  | cons : Like L s .cons .cons
  | concat : Like L s .concat .concat
  | mark : Like L s .mark .mark
  | foldLeft : Like L s .foldLeft .foldLeft
  | foldRight : Like L s .foldRight .foldRight
  | surround : Like L s .surround .surround
  | infixOnce : Like L s .infixOnce .infixOnce

/-- Two tests of the same form with related values. -/
inductive Test.Like (L : Likeness S φ) (s : S) : Test φ → Test φ → Prop where
  | value {f f' : Value φ} : L.values s f f' → Like L s (.value f) (.value f')
  | valueAndEnv {f f' : Value φ} : L.values s f f' → Like L s (.valueAndEnv f) (.valueAndEnv f')
  | oneOf (cs : List Char) : Like L s (.oneOf cs) (.oneOf cs)
  | noneOf (cs : List Char) : Like L s (.noneOf cs) (.noneOf cs)
  | digit : Like L s .digit .digit
  | blank : Like L s .blank .blank
  | upper : Like L s .upper .upper
  | lower : Like L s .lower .lower
  | letter : Like L s .letter .letter
  | letterOrNumeral : Like L s .letterOrNumeral .letterOrNumeral

theorem Callback.Like.mono {L : Likeness S φ} {s s' : S} (hs : s ≤ s') {f f' : Callback φ}
    (h : f.Like L s f') : f.Like L s' f' := by
  cases h with
  | value h => exact .value (L.values_mono hs h)
  | valueAndEnv h => exact .valueAndEnv (L.values_mono hs h)
  | spread h => exact .spread (L.values_mono hs h)
  | constant h => exact .constant (L.values_mono hs h)
  | _ => constructor

theorem Test.Like.mono {L : Likeness S φ} {s s' : S} (hs : s ≤ s') {test test' : Test φ}
    (h : test.Like L s test') : test.Like L s' test' := by
  cases h with
  | value h => exact .value (L.values_mono hs h)
  | valueAndEnv h => exact .valueAndEnv (L.values_mono hs h)
  | _ => constructor

namespace Pairing

variable {L : Likeness S φ} {m₁ m₂ : Type → Type} [Monad m₁] [MonadExceptOf (Halt φ) m₁] [Monad m₂]
  [MonadExceptOf (Halt φ) m₂] {P : Pairing L m₁ m₂}
  {call : Value φ → List (Value φ) → m₁ (Value φ)}
  {call' : Value φ → List (Value φ) → m₂ (Value φ)} {s : S}

/-- From a stage on, calls of related values with related arguments come to related values. -/
def Calls (P : Pairing L m₁ m₂) (s : S) (call : Value φ → List (Value φ) → m₁ (Value φ))
    (call' : Value φ → List (Value φ) → m₂ (Value φ)) : Prop :=
  ∀ s', s ≤ s' → ∀ f f' args args', L.values s' f f' → List.Forall₂ (L.values s') args args' →
    P.Holds s' L.values (call f args) (call' f' args')

theorem Calls.mono {s' : S} (h : P.Calls s call call') (hs : s ≤ s') : P.Calls s' call call' :=
  fun s'' hs' => h s'' (hs.trans hs')

/-- Two related values are lists of two related items each, or neither is a list of two. -/
theorem pair_or {v v' : Value φ} (h : L.values s v v') :
    (∃ a b a' b', v = .list [a, b] ∧ v' = .list [a', b'] ∧ L.values s a a' ∧ L.values s b b') ∨
      (∀ a b, v ≠ .list [a, b]) ∧ ∀ a b, v' ≠ .list [a, b] := by
  rcases L.list_or h with ⟨vs, vs', rfl, rfl, hvs⟩ | ⟨hv, hv'⟩
  · rcases hvs with _ | ⟨ha, _ | ⟨hb, _ | ⟨hc, hvs⟩⟩⟩
    case cons.cons.nil => exact Or.inl ⟨_, _, _, _, rfl, rfl, ha, hb⟩
    all_goals exact Or.inr ⟨by simp, by simp⟩
  · exact Or.inr ⟨fun _ _ => hv _, fun _ _ => hv' _⟩

/-! ## Chains of operators -/

theorem foldPairsLeft_stop {m : Type → Type} [Monad m]
    (call : Value φ → List (Value φ) → m (Value φ)) (acc : Value φ) {p : Value φ}
    (hp : ∀ a b, p ≠ .list [a, b]) (pairs : List (Value φ)) :
    Value.foldPairsLeft call acc (p :: pairs) = pure acc := by
  unfold Value.foldPairsLeft
  split
  · rename_i heq
    exact absurd (List.cons.inj heq).1 (hp _ _)
  · rfl

theorem foldPairsRight_stop {m : Type → Type} [Monad m]
    (call : Value φ → List (Value φ) → m (Value φ)) (first : Value φ) {p : Value φ}
    (hp : ∀ a b, p ≠ .list [a, b]) (pairs : List (Value φ)) :
    Value.foldPairsRight call first (p :: pairs) = pure first := by
  unfold Value.foldPairsRight
  split
  · rename_i heq
    exact absurd (List.cons.inj heq).1 (hp _ _)
  · rfl

theorem holds_foldPairsLeft (hc : P.Calls s call call') {pairs pairs' : List (Value φ)} {s' : S}
    (hs : s ≤ s') {acc acc' : Value φ} (hacc : L.values s' acc acc')
    (hpairs : List.Forall₂ (L.values s') pairs pairs') :
    P.Holds s' L.values (Value.foldPairsLeft call acc pairs)
      (Value.foldPairsLeft call' acc' pairs') := by
  induction pairs generalizing pairs' s' acc acc' with
  | nil =>
    cases hpairs
    exact P.pure hacc
  | cons p pairs ih =>
    rcases hpairs with _ | ⟨hp, hps⟩
    rcases pair_or hp with ⟨op, v, op', v', rfl, rfl, hop, hv⟩ | ⟨hp, hp'⟩
    · refine P.bind (hc s' hs op op' _ _ hop (.cons hacc (.cons hv .nil))) fun s₂ a a' hs₂ ha => ?_
      exact ih (hs.trans hs₂) ha (hps.imp fun _ _ => L.values_mono hs₂)
    · rw [foldPairsLeft_stop _ _ hp, foldPairsLeft_stop _ _ hp']
      exact P.pure hacc

theorem holds_foldPairsRight (hc : P.Calls s call call') {pairs pairs' : List (Value φ)} {s' : S}
    (hs : s ≤ s') {first first' : Value φ} (hfirst : L.values s' first first')
    (hpairs : List.Forall₂ (L.values s') pairs pairs') :
    P.Holds s' L.values (Value.foldPairsRight call first pairs)
      (Value.foldPairsRight call' first' pairs') := by
  induction pairs generalizing pairs' s' first first' with
  | nil =>
    cases hpairs
    exact P.pure hfirst
  | cons p pairs ih =>
    rcases hpairs with _ | ⟨hp, hps⟩
    rcases pair_or hp with ⟨op, v, op', v', rfl, rfl, hop, hv⟩ | ⟨hp, hp'⟩
    · refine P.bind (ih hs hv hps) fun s₂ a a' hs₂ ha => ?_
      exact hc s₂ (hs.trans hs₂) op op' _ _ (L.values_mono hs₂ hop)
        (.cons (L.values_mono hs₂ hfirst) (.cons ha .nil))
    · rw [foldPairsRight_stop _ _ hp, foldPairsRight_stop _ _ hp']
      exact P.pure hfirst

/-- Two related values are lists of one related item each, or neither is a list of one. -/
theorem single_or {v v' : Value φ} (h : L.values s v v') :
    (∃ a a', v = .list [a] ∧ v' = .list [a'] ∧ L.values s a a') ∨
      (∀ a, v ≠ .list [a]) ∧ ∀ a, v' ≠ .list [a] := by
  rcases L.list_or h with ⟨vs, vs', rfl, rfl, hvs⟩ | ⟨hv, hv'⟩
  · rcases hvs with _ | ⟨ha, _ | ⟨hb, hvs⟩⟩
    case cons.nil => exact Or.inl ⟨_, _, rfl, rfl, ha⟩
    all_goals exact Or.inr ⟨by simp, by simp⟩
  · exact Or.inr ⟨fun _ => hv _, fun _ => hv' _⟩

theorem applyOptional_stop {m : Type → Type} [Monad m]
    (call : Value φ → List (Value φ) → m (Value φ)) {op : Value φ} (hop : ∀ a, op ≠ .list [a])
    (operand : Value φ) : Value.applyOptional call op operand = pure operand := by
  unfold Value.applyOptional
  split
  · exact absurd rfl (hop _)
  · rfl

theorem holds_applyOptional (hc : P.Calls s call call') {op op' v v' : Value φ}
    (hop : L.values s op op') (hv : L.values s v v') :
    P.Holds s L.values (Value.applyOptional call op v) (Value.applyOptional call' op' v') := by
  rcases single_or hop with ⟨f, f', rfl, rfl, hf⟩ | ⟨hop, hop'⟩
  · exact hc s (le_refl s) f f' _ _ hf (.cons hv .nil)
  · rw [applyOptional_stop _ hop, applyOptional_stop _ hop']
    exact P.pure hv

/-! ## Callbacks and tests -/

/-- A callback that takes a list apart leaves what is no list as it is. -/
theorem run_of_not_list {m : Type → Type} [Monad m]
    (call : Value φ → List (Value φ) → m (Value φ)) {v : Value φ} (hv : ∀ vs, v ≠ .list vs)
    (env : Value φ) {f : Callback φ}
    (hf : f = .concat ∨ f = .mark ∨ f = .surround ∨ (∃ k, f = .item k) ∨ ∃ g, f = .spread g) :
    f.run call v env = pure v := by
  cases v with
  | list vs => exact absurd rfl (hv vs)
  | _ => rcases hf with rfl | rfl | rfl | ⟨k, rfl⟩ | ⟨g, rfl⟩ <;> rfl

/-- A callback that takes a pair apart leaves what is no pair as it is. -/
theorem run_of_not_pair {m : Type → Type} [Monad m]
    (call : Value φ → List (Value φ) → m (Value φ)) {v : Value φ}
    (hv : ∀ a b, v ≠ .list [a, b]) (env : Value φ) {f : Callback φ}
    (hf : f = .cons ∨ f = .foldLeft ∨ f = .foldRight ∨ f = .infixOnce) :
    f.run call v env = pure v := by
  cases v with
  | list vs =>
    match vs with
    | [] | [_] => rcases hf with rfl | rfl | rfl | rfl <;> rfl
    | [a, b] => exact absurd rfl (hv a b)
    | _ :: _ :: _ :: _ =>
      rcases hf with rfl | rfl | rfl | rfl <;> unfold Callback.run <;> split <;>
        first | rfl | simp_all
  | _ => rcases hf with rfl | rfl | rfl | rfl <;> rfl

theorem run_of_second_not_list {m : Type → Type} [Monad m]
    (call : Value φ → List (Value φ) → m (Value φ)) (a : Value φ) {b : Value φ}
    (hb : ∀ vs, b ≠ .list vs) (env : Value φ) {f : Callback φ}
    (hf : f = .cons ∨ f = .foldLeft ∨ f = .foldRight) :
    f.run call (.list [a, b]) env = pure (.list [a, b]) := by
  cases b with
  | list vs => exact absurd rfl (hb vs)
  | _ => rcases hf with rfl | rfl | rfl <;> rfl

theorem run_infixOnce_of_not_pair {m : Type → Type} [Monad m]
    (call : Value φ → List (Value φ) → m (Value φ)) (a : Value φ) {b : Value φ}
    (hb : ∀ x y, b ≠ .list [x, y]) (env : Value φ) :
    Callback.infixOnce.run call (.list [a, b]) env = pure a := by
  cases b with
  | list vs =>
    match vs with
    | [] | [_] | _ :: _ :: _ :: _ => rfl
    | [x, y] => exact absurd rfl (hb x y)
  | _ => rfl

section

variable {v v' : Value φ} (hv : L.values s v v') (env env' : Value φ)

include hv

theorem holds_spread (hc : P.Calls s call call') {f f' : Value φ} (hf : L.values s f f') :
    P.Holds s L.values ((Callback.spread f).run call v env)
      ((Callback.spread f').run call' v' env') := by
  rcases L.list_or hv with ⟨vs, vs', rfl, rfl, hvs⟩ | ⟨hn, hn'⟩
  · exact hc s (le_refl s) f f' vs vs' hf hvs
  · rw [run_of_not_list call hn env (by simp), run_of_not_list call' hn' env' (by simp)]
    exact P.pure hv

theorem holds_item (k : Nat) :
    P.Holds s L.values ((Callback.item k).run call v env) ((Callback.item k).run call' v' env') := by
  rcases L.list_or hv with ⟨vs, vs', rfl, rfl, hvs⟩ | ⟨hn, hn'⟩
  · refine P.pure ?_
    clear hv
    induction hvs generalizing k with
    | nil => exact L.null s
    | cons ha _ ih =>
      cases k with
      | zero => exact ha
      | succ k => exact ih k
  · rw [run_of_not_list call hn env (by simp), run_of_not_list call' hn' env' (by simp)]
    exact P.pure hv

theorem holds_concat :
    P.Holds s L.values (Callback.concat.run call v env) (Callback.concat.run call' v' env') := by
  rcases L.list_or hv with ⟨vs, vs', rfl, rfl, hvs⟩ | ⟨hn, hn'⟩
  · have hmap : vs.map Value.textOrEmpty = vs'.map Value.textOrEmpty := by
      induction hvs with
      | nil => rfl
      | cons ha hvs ih => rw [List.map_cons, List.map_cons, L.textOrEmpty_eq ha, ih (L.list hvs)]
    refine P.pure ?_
    rw [hmap]
    exact L.text s _
  · rw [run_of_not_list call hn env (by simp), run_of_not_list call' hn' env' (by simp)]
    exact P.pure hv

theorem holds_mark :
    P.Holds s L.values (Callback.mark.run call v env) (Callback.mark.run call' v' env') := by
  rcases L.list_or hv with ⟨vs, vs', rfl, rfl, hvs⟩ | ⟨hn, hn'⟩
  · rcases hvs with _ | ⟨ha, _ | ⟨hb, _ | ⟨hd, _ | ⟨he, hvs⟩⟩⟩⟩
    case cons.cons.cons.nil => exact P.pure (L.mark ha hb hd)
    all_goals exact P.pure hv
  · rw [run_of_not_list call hn env (by simp), run_of_not_list call' hn' env' (by simp)]
    exact P.pure hv

theorem holds_cons :
    P.Holds s L.values (Callback.cons.run call v env) (Callback.cons.run call' v' env') := by
  rcases pair_or hv with ⟨a, b, a', b', rfl, rfl, ha, hb⟩ | ⟨hn, hn'⟩
  · rcases L.list_or hb with ⟨bs, bs', rfl, rfl, hbs⟩ | ⟨hn, hn'⟩
    · exact P.pure (L.list (.cons ha hbs))
    · rw [run_of_second_not_list call a hn env (by simp),
        run_of_second_not_list call' a' hn' env' (by simp)]
      exact P.pure hv
  · rw [run_of_not_pair call hn env (by simp), run_of_not_pair call' hn' env' (by simp)]
    exact P.pure hv

theorem holds_foldLeft (hc : P.Calls s call call') :
    P.Holds s L.values (Callback.foldLeft.run call v env)
      (Callback.foldLeft.run call' v' env') := by
  rcases pair_or hv with ⟨a, b, a', b', rfl, rfl, ha, hb⟩ | ⟨hn, hn'⟩
  · rcases L.list_or hb with ⟨bs, bs', rfl, rfl, hbs⟩ | ⟨hn, hn'⟩
    · exact holds_foldPairsLeft hc (le_refl s) ha hbs
    · rw [run_of_second_not_list call a hn env (by simp),
        run_of_second_not_list call' a' hn' env' (by simp)]
      exact P.pure hv
  · rw [run_of_not_pair call hn env (by simp), run_of_not_pair call' hn' env' (by simp)]
    exact P.pure hv

theorem holds_foldRight (hc : P.Calls s call call') :
    P.Holds s L.values (Callback.foldRight.run call v env)
      (Callback.foldRight.run call' v' env') := by
  rcases pair_or hv with ⟨a, b, a', b', rfl, rfl, ha, hb⟩ | ⟨hn, hn'⟩
  · rcases L.list_or hb with ⟨bs, bs', rfl, rfl, hbs⟩ | ⟨hn, hn'⟩
    · exact holds_foldPairsRight hc (le_refl s) ha hbs
    · rw [run_of_second_not_list call a hn env (by simp),
        run_of_second_not_list call' a' hn' env' (by simp)]
      exact P.pure hv
  · rw [run_of_not_pair call hn env (by simp), run_of_not_pair call' hn' env' (by simp)]
    exact P.pure hv

theorem holds_infixOnce (hc : P.Calls s call call') :
    P.Holds s L.values (Callback.infixOnce.run call v env)
      (Callback.infixOnce.run call' v' env') := by
  rcases pair_or hv with ⟨a, b, a', b', rfl, rfl, ha, hb⟩ | ⟨hn, hn'⟩
  · rcases pair_or hb with ⟨op, w, op', w', rfl, rfl, hop, hw⟩ | ⟨hn, hn'⟩
    · exact hc s (le_refl s) op op' _ _ hop (.cons ha (.cons hw .nil))
    · rw [run_infixOnce_of_not_pair call a hn env, run_infixOnce_of_not_pair call' a' hn' env']
      exact P.pure ha
  · rw [run_of_not_pair call hn env (by simp), run_of_not_pair call' hn' env' (by simp)]
    exact P.pure hv

theorem holds_surround (hc : P.Calls s call call') :
    P.Holds s L.values (Callback.surround.run call v env)
      (Callback.surround.run call' v' env') := by
  rcases L.list_or hv with ⟨vs, vs', rfl, rfl, hvs⟩ | ⟨hn, hn'⟩
  · rcases hvs with _ | ⟨ha, _ | ⟨hb, _ | ⟨hd, _ | ⟨he, hvs⟩⟩⟩⟩
    case cons.cons.cons.nil =>
      refine P.bind (holds_applyOptional hc ha hb) fun s₂ w w' hs₂ hw => ?_
      exact holds_applyOptional (hc.mono hs₂) (L.values_mono hs₂ hd) hw
    all_goals exact P.pure hv
  · rw [run_of_not_list call hn env (by simp), run_of_not_list call' hn' env' (by simp)]
    exact P.pure hv

end

/-- Related callbacks take related values to related values. -/
theorem holds_callback (hc : P.Calls s call call') {f f' : Callback φ}
    (hf : f.Like L s f') {v v' env env' : Value φ} (hv : L.values s v v')
    (henv : L.values s env env') :
    P.Holds s L.values (f.run call v env) (f'.run call' v' env') := by
  have now := le_refl s
  cases hf with
  | value hf => exact hc s now _ _ _ _ hf (.cons hv .nil)
  | valueAndEnv hf => exact hc s now _ _ _ _ hf (.cons hv (.cons henv .nil))
  | spread hf => exact holds_spread hv env env' hc hf
  | constant hw => exact P.pure hw
  | item k => exact holds_item hv env env' k
  | singleton => exact P.pure (L.list (.cons hv .nil))
  | cons => exact holds_cons hv env env'
  | concat => exact holds_concat hv env env'
  | mark => exact holds_mark hv env env'
  | foldLeft => exact holds_foldLeft hv env env' hc
  | foldRight => exact holds_foldRight hv env env' hc
  | surround => exact holds_surround hv env env' hc
  | infixOnce => exact holds_infixOnce hv env env' hc

/-- Related tests agree on a character. -/
theorem holds_test (hc : P.Calls s call call') {test test' : Test φ} (ht : test.Like L s test')
    (c : Char) {env env' : Value φ} (henv : L.values s env env') :
    P.Holds s (fun _ => Eq) (test.run call c env) (test'.run call' c env') := by
  have hchar := L.text s c.toString
  cases ht with
  | value hf =>
    refine P.bind (hc s (le_refl s) _ _ _ _ hf (.cons hchar .nil)) fun s₂ v v' _ hv => ?_
    exact P.pure (L.truthy_eq hv)
  | valueAndEnv hf =>
    refine P.bind (hc s (le_refl s) _ _ _ _ hf (.cons hchar (.cons henv .nil)))
      fun s₂ v v' _ hv => ?_
    exact P.pure (L.truthy_eq hv)
  | _ => exact P.pure rfl

end Pairing

end Furthest
