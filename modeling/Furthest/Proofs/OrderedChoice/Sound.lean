import Furthest.Proofs.OrderedChoice.Relation

/-!
# Whatever a run answers is a match

If a grammar answers with a result, it matches what the result says, without its diagnostics
(`Rules.matches_of_denote`).  The induction is on the depth of the run and, at each depth, on the grammar;
repetitions go by the number of matches that are left.
-/

namespace Furthest

variable {φ : Type}

theorem except_bind_eq_ok {ε α β : Type} {x : Except ε α} {f : α → Except ε β} {c : β}
    (h : x >>= f = .ok c) : ∃ a, x = .ok a ∧ f a = .ok c := by
  cases x with
  | error e => cases h
  | ok a => exact ⟨a, rfl, h⟩

namespace Result

variable {r : Result (Value φ)}

theorem erased_of_status (h : r.status = true) : r.erased = some (r.index, r.value) := by
  rw [erased, if_pos h]

theorem erased_of_not_status (h : r.status = false) : r.erased = none := by
  rw [erased, h, if_neg Bool.false_ne_true]

theorem erased_eq_some {i : Nat} {v : Value φ} :
    r.erased = some (i, v) ↔ r.status = true ∧ r.index = i ∧ r.value = v := by
  cases hs : r.status with
  | true => simp [erased_of_status hs]
  | false => simp [erased_of_not_status hs]

theorem erased_eq_none : r.erased = none ↔ r.status = false := by
  cases hs : r.status with
  | true => simp [erased_of_status hs]
  | false => simp [erased_of_not_status hs]

@[simp] theorem erased_success (i : Nat) (v : Value φ) : (success i v).erased = some (i, v) := rfl

@[simp] theorem erased_failure (i : Nat) (label : String) :
    (failure i label : Result (Value φ)).erased = none := rfl

@[simp] theorem erased_merge (r b : Result (Value φ)) : (r.merge b).erased = r.erased := rfl

@[simp] theorem erased_mergeWith (r : Result (Value φ)) (b : Option (Result (Value φ))) :
    (r.mergeWith b).erased = r.erased := by
  cases b <;> rfl

end Result

mutual

/-- The repetitions in a grammar have integer bounds below `2 ^ 1000`, or no upper bound. -/
def Grammar.Bounded : Grammar φ → Prop
  | .seq ps => Grammar.BoundedAll ps
  | .alt p ps => p.Bounded ∧ Grammar.BoundedAll ps
  | .times p min max => p.Bounded ∧ min ≠ .infinite ∧ ∀ most, max = .finite most → most < 2 ^ 1000
  | .mapEnv p _ | .chainEnv p _ | .relabel p _ | .lookAhead p | .trace p _ | .subEnv p _ => p.Bounded
  | .except p q => p.Bounded ∧ q.Bounded
  | _ => True

/-- All of several grammars are bounded. -/
def Grammar.BoundedAll : List (Grammar φ) → Prop
  | [] => True
  | p :: ps => p.Bounded ∧ Grammar.BoundedAll ps

end

theorem lt_boundCeiling {most : Nat} (h : most < 2 ^ 1000) : most < Behaviour.boundCeiling :=
  h.trans (by decide +kernel)

namespace Rules

variable [FunctionText φ] (R : Rules φ)

/-- Whatever a grammar answers within bounds, it matches. -/
def Sound (b : Nat × Nat) (s : Input) (g : Grammar φ) : Prop :=
  ∀ i env r, g.denote (R.within b) s i env = .ok r → R.Matches s g i env r.erased

variable {R} {b : Nat × Nat} {s : Input} {env : Value φ} {i : Nat} {r : Result (Value φ)}

/-! ## Sequences and alternatives -/

theorem threads_of_seqFrom {ps : List (Grammar φ)} (h : ∀ p ∈ ps, R.Sound b s p)
    {values : Array (Value φ)} {best : Option (Result (Value φ))}
    (hr : Behaviour.seqFrom s env (ps.map (Grammar.denote (R.within b))) i values best = .ok r) :
    ∃ o, R.Threads s ps i env o ∧
      r.erased = o.map fun x => (x.1, .list (values.toList ++ x.2)) := by
  induction ps generalizing i values best with
  | nil =>
    obtain rfl := Except.ok.inj hr
    exact ⟨some (i, []), .nil i env, by simp⟩
  | cons p ps ih =>
    obtain ⟨r₁, hp, hr⟩ := except_bind_eq_ok hr
    have hmatch := h p List.mem_cons_self i env r₁ hp
    cases hs : r₁.status with
    | false =>
      simp only [Result.status_mergeWith, hs, Bool.false_eq_true, if_false] at hr
      obtain rfl := Except.ok.inj hr
      rw [Result.erased_of_not_status hs] at hmatch
      exact ⟨none, .cons_none ps hmatch, by simp [Result.erased_of_not_status hs]⟩
    | true =>
      simp only [Result.status_mergeWith, hs, if_true, Result.index_mergeWith,
        Result.value_mergeWith] at hr
      obtain ⟨o, ho, hr⟩ := ih (fun q hq => h q (List.mem_cons_of_mem p hq)) hr
      rw [Result.erased_of_status hs] at hmatch
      refine ⟨_, .cons hmatch ho, ?_⟩
      rw [hr, Option.map_map]
      simp [Function.comp_def]

theorem sound_seq {ps : List (Grammar φ)} (h : ∀ p ∈ ps, R.Sound b s p) :
    R.Sound b s (.seq ps) := by
  intro i env r hr
  rw [Grammar.denote_seq] at hr
  obtain ⟨o, ho, hr⟩ := threads_of_seqFrom h hr
  rw [hr]
  exact .seq ho

theorem chooses_of_altFrom {ps : List (Grammar φ)} (h : ∀ p ∈ ps, R.Sound b s p)
    {best : Result (Value φ)} (hbest : best.status = false)
    (hr : Behaviour.altFrom s i env (ps.map (Grammar.denote (R.within b))) best = .ok r) :
    R.Chooses s ps i env r.erased := by
  induction ps generalizing best with
  | nil =>
    obtain rfl := Except.ok.inj hr
    rw [Result.erased_of_not_status hbest]
    exact .nil i env
  | cons p ps ih =>
    obtain ⟨r₁, hp, hr⟩ := except_bind_eq_ok hr
    have hmatch := h p List.mem_cons_self i env r₁ hp
    cases hs : r₁.status with
    | false =>
      simp only [Result.status_merge, hs, Bool.false_eq_true, if_false] at hr
      rw [Result.erased_of_not_status hs] at hmatch
      have hbest : (r₁.merge best).status = false := hs
      exact .later hmatch (ih (fun q hq => h q (List.mem_cons_of_mem p hq)) hbest hr)
    | true =>
      simp only [Result.status_merge, hs, if_true] at hr
      obtain rfl := Except.ok.inj hr
      rw [Result.erased_of_status hs] at hmatch
      rw [Result.erased_merge, Result.erased_of_status hs]
      exact .first ps hmatch

theorem sound_alt {p : Grammar φ} {ps : List (Grammar φ)} (hp : R.Sound b s p)
    (h : ∀ p ∈ ps, R.Sound b s p) : R.Sound b s (.alt p ps) := by
  intro i env r hr
  rw [Grammar.denote_alt] at hr
  obtain ⟨r₁, hr₁, hr⟩ := except_bind_eq_ok hr
  have hmatch := hp i env r₁ hr₁
  refine .alt ?_
  cases hs : r₁.status with
  | false =>
    simp only [hs, Bool.false_eq_true, if_false] at hr
    rw [Result.erased_of_not_status hs] at hmatch
    exact .later hmatch (chooses_of_altFrom h hs hr)
  | true =>
    simp only [hs, if_true] at hr
    obtain rfl := Except.ok.inj hr
    rw [Result.erased_of_status hs] at hmatch ⊢
    exact .first ps hmatch

/-! ## Repetition -/

section

variable {p : Grammar φ} {n : Nat} {values : Array (Value φ)}
  {best : Option (Result (Value φ))}

/-- The mandatory matches are there and the rest goes on after them, or one of them fails. -/
theorem requires_of_mandatory (hp : R.Sound b s p)
    {next : Behaviour.Repeat (Except (Halt φ)) φ}
    (hr : Behaviour.mandatory (p.denote (R.within b)) s env next n i values best = .ok r) :
    (∃ j vs values' best', R.Requires s p n i env (some (j, vs)) ∧
      values'.toList = values.toList ++ vs ∧ next j values' best' = .ok r) ∨
    R.Requires s p n i env none ∧ r.erased = none := by
  induction n generalizing i values best with
  | zero => exact Or.inl ⟨i, [], values, best, .zero p i env, (List.append_nil _).symm, hr⟩
  | succ n ih =>
    obtain ⟨r₁, hr₁, hr⟩ := except_bind_eq_ok hr
    have hmatch := hp i env r₁ hr₁
    cases hs : r₁.status with
    | false =>
      simp only [Result.status_mergeWith, hs, Bool.false_eq_true, if_false] at hr
      obtain rfl := Except.ok.inj hr
      rw [Result.erased_of_not_status hs] at hmatch
      exact Or.inr ⟨.succ_none n hmatch, by simp [Result.erased_of_not_status hs]⟩
    | true =>
      simp only [Result.status_mergeWith, hs, if_true, Result.index_mergeWith,
        Result.value_mergeWith] at hr
      rw [Result.erased_of_status hs] at hmatch
      rcases ih hr with ⟨j, vs, values', best', hreq, hvalues, hnext⟩ | ⟨hreq, hr⟩
      · refine Or.inl ⟨j, _, values', best', .succ hmatch hreq, ?_, hnext⟩
        rw [hvalues, Array.toList_push, List.append_assoc]
        rfl
      · exact Or.inr ⟨.succ hmatch hreq, hr⟩

theorem greedy_of_optional (hp : R.Sound b s p) {most : Nat} (hmost : most < 2 ^ 1000)
    (hr : Behaviour.optional (p.denote (R.within b)) (.finite most) s env Behaviour.finish n i values
      best = .ok r) :
    ∃ k vs, R.Greedy s p (.finite n) i env k vs ∧
      r.erased = some (k, .list (values.toList ++ vs)) := by
  induction n generalizing i values best with
  | zero =>
    obtain rfl := Except.ok.inj hr
    exact ⟨i, [], .full p i env, by simp⟩
  | succ n ih =>
    obtain ⟨r₁, hr₁, hr⟩ := except_bind_eq_ok hr
    have hmatch := hp i env r₁ hr₁
    cases hs : r₁.status with
    | false =>
      simp only [Result.status_mergeWith, hs, Bool.false_eq_true, if_false] at hr
      obtain rfl := Except.ok.inj hr
      rw [Result.erased_of_not_status hs] at hmatch
      exact ⟨i, [], .stop _ hmatch, by simp⟩
    | true =>
      -- a bound below the ceiling is seen to be finite also where a match consumes nothing
      simp only [Result.status_mergeWith, hs, if_true, Result.index_mergeWith,
        Result.value_mergeWith, lt_boundCeiling hmost, ite_self] at hr
      rw [Result.erased_of_status hs] at hmatch
      obtain ⟨k, vs, hgreedy, hr⟩ := ih hr
      exact ⟨k, _, .more hmatch hgreedy, by simp [hr]⟩

theorem greedy_of_optional_infinite (hp : R.Sound b s p)
    (hr : Behaviour.optional (p.denote (R.within b)) .infinite s env Behaviour.spent n i values
      best = .ok r) :
    ∃ k vs, R.Greedy s p .infinite i env k vs ∧
      r.erased = some (k, .list (values.toList ++ vs)) := by
  induction n generalizing i values best with
  | zero => cases hr
  | succ n ih =>
    obtain ⟨r₁, hr₁, hr⟩ := except_bind_eq_ok hr
    have hmatch := hp i env r₁ hr₁
    cases hs : r₁.status with
    | false =>
      simp only [Result.status_mergeWith, hs, Bool.false_eq_true, if_false] at hr
      obtain rfl := Except.ok.inj hr
      rw [Result.erased_of_not_status hs] at hmatch
      exact ⟨i, [], .stop _ hmatch, by simp⟩
    | true =>
      simp only [Result.status_mergeWith, hs, if_true, Result.index_mergeWith,
        Result.value_mergeWith] at hr
      rw [Result.erased_of_status hs] at hmatch
      by_cases he : r₁.index = i
      · rw [if_pos he] at hr
        obtain rfl := Except.ok.inj hr
        rw [he] at hmatch
        exact ⟨i, _, .last hmatch, by simp⟩
      · rw [if_neg he] at hr
        obtain ⟨k, vs, hgreedy, hr⟩ := ih hr
        exact ⟨k, _, .again hmatch he hgreedy, by simp [hr]⟩

theorem sound_times (hp : R.Sound b s p) {min max : Limit} (hmin : min ≠ .infinite)
    (hmax : ∀ most, max = .finite most → most < 2 ^ 1000) : R.Sound b s (.times p min max) := by
  intro i env r hr
  cases min with
  | infinite => exact absurd rfl hmin
  | finite least =>
    rcases requires_of_mandatory hp hr with ⟨j, vs, values, best, hreq, hvalues, hnext⟩ | ⟨hreq, hr⟩
    · have hgreedy : ∃ k ws, R.Greedy s p (max.minus least) j env k ws ∧
          r.erased = some (k, .list (values.toList ++ ws)) := by
        cases max with
        | infinite => exact greedy_of_optional_infinite hp hnext
        | finite most => exact greedy_of_optional hp (hmax most rfl) hnext
      obtain ⟨k, ws, hgreedy, hr⟩ := hgreedy
      rw [hr, hvalues]
      exact .times hreq hgreedy
    · rw [hr]
      exact .times_none max hreq

end

/-! ## Values, continuations and environments -/

section

variable {p q : Grammar φ}

theorem sound_mapEnv (hp : R.Sound b s p) (f : Callback φ) : R.Sound b s (.mapEnv p f) := by
  intro i env r hr
  obtain ⟨r₁, hr₁, hr⟩ := except_bind_eq_ok hr
  have hmatch := hp i env r₁ hr₁
  cases hs : r₁.status with
  | false =>
    simp only [hs, Bool.false_eq_true, if_false] at hr
    obtain rfl := Except.ok.inj hr
    rw [Result.erased_of_not_status hs] at hmatch ⊢
    exact .mapEnv_none f hmatch
  | true =>
    simp only [hs, if_true] at hr
    obtain ⟨v, hv, hr⟩ := except_bind_eq_ok hr
    obtain rfl := Except.ok.inj hr
    rw [Result.erased_of_status hs] at hmatch
    exact .mapEnv hmatch ⟨b, hv⟩

omit [FunctionText φ] in
/-- Which object a chosen behaviour is that of. -/
theorem chosen_eq_ok {h : Host (Except (Halt φ)) φ} {complaint : Value φ → Fault φ} {v : Value φ}
    {next : Behaviour (Except (Halt φ)) φ} (hv : h.chosen complaint v = .ok next) :
    ∃ r, v = .parser r ∧ next = h.object r := by
  cases v with
  | parser r => exact ⟨r, rfl, (Except.ok.inj hv).symm⟩
  | _ => cases hv

theorem sound_chainEnv (hp : R.Sound b s p) (ho : ∀ r, R.Sound b s (.object r)) (f : Callback φ) :
    R.Sound b s (.chainEnv p f) := by
  intro i env r hr
  obtain ⟨r₁, hr₁, hr⟩ := except_bind_eq_ok hr
  have hmatch := hp i env r₁ hr₁
  cases hs : r₁.status with
  | false =>
    simp only [hs, Bool.false_eq_true, if_false] at hr
    obtain rfl := Except.ok.inj hr
    rw [Result.erased_of_not_status hs] at hmatch ⊢
    exact .chainEnv_none f hmatch
  | true =>
    simp only [hs, if_true] at hr
    obtain ⟨next, hnext, hr⟩ := except_bind_eq_ok hr
    obtain ⟨v, hv, hnext⟩ := except_bind_eq_ok hnext
    obtain ⟨r', rfl, rfl⟩ := chosen_eq_ok hnext
    obtain ⟨r₂, hr₂, hr⟩ := except_bind_eq_ok hr
    obtain rfl := Except.ok.inj hr
    rw [Result.erased_of_status hs] at hmatch
    exact .chainEnv hmatch ⟨b, hv⟩ (ho r' _ env r₂ hr₂)

theorem sound_relabel (hp : R.Sound b s p) (label : String) : R.Sound b s (.relabel p label) := by
  intro i env r hr
  obtain ⟨r₁, hr₁, hr⟩ := except_bind_eq_ok hr
  have hmatch := hp i env r₁ hr₁
  cases hs : r₁.status with
  | false =>
    simp only [hs, Bool.false_eq_true, if_false] at hr
    obtain rfl := Except.ok.inj hr
    rw [Result.erased_of_not_status hs] at hmatch
    exact .relabel label hmatch
  | true =>
    simp only [hs, if_true] at hr
    obtain rfl := Except.ok.inj hr
    exact .relabel label hmatch

theorem sound_except (hp : R.Sound b s p) (hq : R.Sound b s q) : R.Sound b s (.except p q) := by
  intro i env r hr
  obtain ⟨r₁, hr₁, hr⟩ := except_bind_eq_ok hr
  have hforbidden := hq i env r₁ hr₁
  cases hs : r₁.status with
  | true =>
    simp only [hs, if_true] at hr
    obtain ⟨text, -, hr⟩ := except_bind_eq_ok hr
    obtain rfl := Except.ok.inj hr
    rw [Result.erased_of_status hs] at hforbidden
    exact .except_none p hforbidden
  | false =>
    simp only [hs, Bool.false_eq_true, if_false] at hr
    rw [Result.erased_of_not_status hs] at hforbidden
    obtain ⟨r₂, hr₂, hr⟩ := except_bind_eq_ok hr
    have hallowed := hp i env r₂ hr₂
    cases hs₂ : r₂.status with
    | true =>
      simp only [hs₂, if_true] at hr
      obtain rfl := Except.ok.inj hr
      exact .except hforbidden hallowed
    | false =>
      simp only [hs₂, Bool.false_eq_true, if_false] at hr
      obtain rfl := Except.ok.inj hr
      rw [Result.erased_of_not_status hs₂] at hallowed
      exact .except hforbidden hallowed

theorem sound_lookAhead (hp : R.Sound b s p) : R.Sound b s (.lookAhead p) := by
  intro i env r hr
  obtain ⟨r₁, hr₁, hr⟩ := except_bind_eq_ok hr
  have hmatch := Matches.lookAhead (hp i env r₁ hr₁)
  cases hs : r₁.status with
  | false =>
    simp only [hs, Bool.false_eq_true, if_false] at hr
    obtain rfl := Except.ok.inj hr
    rw [Result.erased_of_not_status hs] at hmatch ⊢
    exact hmatch
  | true =>
    simp only [hs, if_true] at hr
    obtain rfl := Except.ok.inj hr
    rw [Result.erased_of_status hs] at hmatch
    exact hmatch

theorem sound_trace (hp : R.Sound b s p) (label : Value φ) : R.Sound b s (.trace p label) := by
  intro i env r hr
  obtain ⟨-, -, hr⟩ := except_bind_eq_ok hr
  obtain ⟨r₁, hr₁, hr⟩ := except_bind_eq_ok hr
  have hmatch := hp i env r₁ hr₁
  cases hs : r₁.status <;> simp only [hs] at hr <;> obtain ⟨-, -, hr⟩ := except_bind_eq_ok hr <;>
    obtain rfl := Except.ok.inj hr <;> exact .trace label hmatch

theorem sound_subEnv (hp : R.Sound b s p) (derive : Value φ) : R.Sound b s (.subEnv p derive) := by
  intro i env r hr
  obtain ⟨env', henv, hr⟩ := except_bind_eq_ok hr
  exact .subEnv ⟨b, henv⟩ (hp i env' r hr)

theorem sound_fromEnv (ho : ∀ r, R.Sound b s (.object r)) (lookup : Value φ) :
    R.Sound b s (.fromEnv lookup) := by
  intro i env r hr
  obtain ⟨next, hnext, hr⟩ := except_bind_eq_ok hr
  obtain ⟨v, hv, hnext⟩ := except_bind_eq_ok hnext
  obtain ⟨r', rfl, rfl⟩ := chosen_eq_ok hnext
  exact .fromEnv ⟨b, hv⟩ (ho r' i env r hr)

end

/-! ## Parsers without parts -/

theorem sound_custom (f : Value φ) : R.Sound b s (.custom f) := by
  intro i env r hr
  obtain ⟨v, hv, hr⟩ := except_bind_eq_ok hr
  cases v with
  | result r₁ =>
    obtain rfl := Except.ok.inj hr
    exact .custom ⟨b, hv⟩
  | _ => cases hr

theorem sound_eof : R.Sound b s .eof := by
  intro i env r hr
  obtain rfl := Except.ok.inj hr
  unfold Leaf.eof
  split
  · next h => exact .eof_none env h
  · next h => exact .eof env (Nat.le_of_not_lt h)

theorem sound_anyChar : R.Sound b s .anyChar := by
  intro i env r hr
  obtain rfl := Except.ok.inj hr
  unfold Leaf.anyChar
  split
  · next c h => exact .anyChar env h
  · next h => exact .anyChar_none env h

theorem sound_string (literal : String) : R.Sound b s (.string literal) := by
  intro i env r hr
  obtain rfl := Except.ok.inj hr
  unfold Leaf.string
  by_cases h : literal.toList <+: s.drop i ∧ i ≤ s.length
  · rw [if_pos (by simpa using h)]
    exact .string env h.1 h.2
  · rw [if_neg (by simpa using h)]
    exact .string_none env h

theorem sound_regex (p : Pattern) (group : GroupName) (label : String) :
    R.Sound b s (.regex p group label) := by
  intro i env r hr
  replace hr : Behaviour.regex p group label s i env = Except.ok r := hr
  unfold Behaviour.regex at hr
  split at hr
  · next h =>
    obtain rfl := Except.ok.inj hr
    exact .regex_none group label env h
  · next found h =>
    split at hr
    · cases hr
    · next number hn =>
      obtain rfl := Except.ok.inj hr
      exact .regex label env h hn

theorem sound_satisfy (test : Test φ) (label : String) : R.Sound b s (.satisfy test label) := by
  intro i env r hr
  replace hr : Behaviour.satisfy (test.run (R.within b).call) label s i env = Except.ok r := hr
  unfold Behaviour.satisfy at hr
  split at hr
  · next c h =>
    obtain ⟨passes, ht, hr⟩ := except_bind_eq_ok hr
    cases passes with
    | true =>
      obtain rfl := Except.ok.inj hr
      exact .satisfy label h ⟨b, ht⟩
    | false =>
      obtain rfl := Except.ok.inj hr
      exact .satisfy_false label h ⟨b, ht⟩
  · next h =>
    obtain rfl := Except.ok.inj hr
    exact .satisfy_none test label env h

theorem sound_takeWhile (test : Test φ) : R.Sound b s (.takeWhile test) := by
  intro i env r hr
  obtain ⟨run, hrun, hr⟩ := except_bind_eq_ok hr
  obtain rfl := Except.ok.inj hr
  exact .takeWhile env ⟨b, hrun⟩

/-! ## Grammars and runs -/

mutual

theorem sound_grammar (ho : ∀ r, R.Sound b s (.object r)) :
    (g : Grammar φ) → g.Bounded → R.Sound b s g
  | .object r, _ => ho r
  | .deferred d, _ => fun i env r hr => .deferred (ho (R.target d) i env r hr)
  | .custom f, _ => sound_custom f
  | .succeed v, _ => fun i env _ hr => Except.ok.inj hr ▸ .succeed v i env
  | .fail label, _ => fun i env _ hr => Except.ok.inj hr ▸ .fail label i env
  | .offset, _ => fun i env _ hr => Except.ok.inj hr ▸ .offset i env
  | .position, _ => fun i env _ hr => Except.ok.inj hr ▸ .position i env
  | .rest, _ => fun i env _ hr => Except.ok.inj hr ▸ .rest i env
  | .eof, _ => sound_eof
  | .anyChar, _ => sound_anyChar
  | .string literal, _ => sound_string literal
  | .regex p group label, _ => sound_regex p group label
  | .satisfy test label, _ => sound_satisfy test label
  | .takeWhile test, _ => sound_takeWhile test
  | .seq ps, hb => sound_seq (sound_grammars ho ps hb)
  | .alt p ps, hb => sound_alt (sound_grammar ho p hb.1) (sound_grammars ho ps hb.2)
  | .times p _ _, hb => sound_times (sound_grammar ho p hb.1) hb.2.1 hb.2.2
  | .mapEnv p f, hb => sound_mapEnv (sound_grammar ho p hb) f
  | .chainEnv p f, hb => sound_chainEnv (sound_grammar ho p hb) ho f
  | .relabel p label, hb => sound_relabel (sound_grammar ho p hb) label
  | .except p q, hb => sound_except (sound_grammar ho p hb.1) (sound_grammar ho q hb.2)
  | .lookAhead p, hb => sound_lookAhead (sound_grammar ho p hb)
  | .trace p label, hb => sound_trace (sound_grammar ho p hb) label
  | .subEnv p derive, hb => sound_subEnv (sound_grammar ho p hb) derive
  | .fromEnv lookup, _ => sound_fromEnv ho lookup

theorem sound_grammars (ho : ∀ r, R.Sound b s (.object r)) :
    (ps : List (Grammar φ)) → Grammar.BoundedAll ps → ∀ p ∈ ps, R.Sound b s p
  | [], _ => List.forall_mem_nil _
  | p :: ps, hb => List.forall_mem_cons.2 ⟨sound_grammar ho p hb.1, sound_grammars ho ps hb.2⟩

end

/-- Whatever an object answers at any depth, it matches. -/
theorem sound_object (hb : ∀ r, (R.rule r).Bounded) (budget depth : Nat) (r : Ref) :
    R.Sound (budget, depth) s (.object r) := by
  induction depth generalizing r with
  | zero => exact fun _ _ _ hr => by cases hr
  | succ depth ih => exact fun i env result hr => .object (sound_grammar ih _ (hb r) i env result hr)

/-- Whatever a grammar answers, it matches. -/
theorem matches_of_denote (hb : ∀ r, (R.rule r).Bounded) {g : Grammar φ} (hg : g.Bounded)
    (b : Nat × Nat) (h : g.denote (R.within b) s i env = .ok r) : R.Matches s g i env r.erased :=
  sound_grammar (sound_object hb b.1 b.2) g hg i env r h

end Rules

end Furthest
