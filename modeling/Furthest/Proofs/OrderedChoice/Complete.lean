import Furthest.Proofs.OrderedChoice.Sound

/-!
# Whatever is matched is answered

If a grammar matches something, every run with large enough bounds answers it
(`Rules.answers_of_matches`).  The induction is on the derivation of the match.  What it needs from
smaller matches holds within all large enough bounds, so it holds within common ones.
-/

namespace Furthest

open Filter

variable {φ : Type} [FunctionText φ] {R : Rules φ}

namespace Rules

/-! ## What is settled within some bounds -/

theorem hosts_within {b b' : Nat × Nat} (h : b ≤ b') :
    (settledBelow φ).Hosts () (R.within b) (R.within b') :=
  R.hosts_mono h.1 h.2

theorem eventually_of_settles {α : Type} {x : Host (Except (Halt φ)) φ → Except (Halt φ) α} {a : α}
    (hx : ∀ h h', (settledBelow φ).Hosts () h h' →
      (settledBelow φ).Holds () (fun _ => Eq) (x h) (x h'))
    (h : R.Settles x a) : ∀ᶠ b in atTop, x (R.within b) = .ok a := by
  obtain ⟨b₀, h₀⟩ := h
  filter_upwards [eventually_ge_atTop b₀] with b hb
  exact eq_settled_of_settledBelow (o := .ok a) (hx _ _ (hosts_within hb)) h₀

theorem eventually_call {f : Value φ} {args : List (Value φ)} {v : Value φ}
    (h : R.Settles (fun h => h.call f args) v) :
    ∀ᶠ b in atTop, (R.within b).call f args = .ok v := by
  refine eventually_of_settles (fun h h' hh => ?_) h
  exact hh.call () (le_refl _) f f args args rfl (List.forall₂_same.2 fun _ _ => rfl)

theorem eventually_callback {f : Callback φ} {v env u : Value φ}
    (h : R.Settles (fun h => f.run h.call v env) u) :
    ∀ᶠ b in atTop, f.run (R.within b).call v env = .ok u :=
  eventually_of_settles
    (fun _ _ hh => Pairing.holds_callback hh.call (Grammar.likeSame_callback f) rfl rfl) h

theorem eventually_test {test : Test φ} {c : Char} {env : Value φ} {passes : Bool}
    (h : R.Settles (fun h => test.run h.call c env) passes) :
    ∀ᶠ b in atTop, test.run (R.within b).call c env = .ok passes :=
  eventually_of_settles
    (fun _ _ hh => Pairing.holds_test hh.call (Grammar.likeSame_test test) c rfl) h

theorem eventually_runOf {test : Test φ} {cs run : List Char}
    (h : R.Settles (fun h => Behaviour.runOf (fun c => test.run h.call c .null) cs) run) :
    ∀ᶠ b in atTop,
      Behaviour.runOf (fun c => test.run (R.within b).call c .null) cs = .ok run := by
  refine eventually_of_settles (fun h h' hh => ?_) h
  exact Pairing.holds_runOf (fun _ hs c =>
    Pairing.holds_test (hh.call.mono hs) (Grammar.likeSame_test test) c rfl) cs (le_refl _)

/-! ## Answers -/

section

variable (R) (s : Input) (env : Value φ)

/-- Within all large enough bounds a grammar answers with a match. -/
def Answers (g : Grammar φ) (i : Nat) (o : Option (Nat × Value φ)) : Prop :=
  ∀ᶠ b in atTop, ∃ r, g.denote (R.within b) s i env = .ok r ∧ r.erased = o

/-- The same of a sequence that has got some values so far. -/
def AnswersSeq (ps : List (Grammar φ)) (i : Nat) (o : Option (Nat × List (Value φ))) : Prop :=
  ∀ᶠ b in atTop, ∀ (values : Array (Value φ)) (best : Option (Result (Value φ))), ∃ r,
    Behaviour.seqFrom s env (ps.map (Grammar.denote (R.within b))) i values best = .ok r ∧
      r.erased = o.map fun x => (x.1, .list (values.toList ++ x.2))

/-- The same of a choice after failed attempts. -/
def AnswersAlt (ps : List (Grammar φ)) (i : Nat) (o : Option (Nat × Value φ)) : Prop :=
  ∀ᶠ b in atTop, ∀ best : Result (Value φ), best.status = false → ∃ r,
    Behaviour.altFrom s i env (ps.map (Grammar.denote (R.within b))) best = .ok r ∧ r.erased = o

/-- The mandatory matches of a repetition lead to what comes next, or one of them fails. -/
def AnswersMandatory (p : Grammar φ) (n i : Nat) (o : Option (Nat × List (Value φ))) : Prop :=
  ∀ᶠ b in atTop, ∀ (next : Behaviour.Repeat (Except (Halt φ)) φ) (values : Array (Value φ))
    (best : Option (Result (Value φ))),
    match o with
    | some (j, vs) => ∃ values' best', values'.toList = values.toList ++ vs ∧
        Behaviour.mandatory (p.denote (R.within b)) s env next n i values best =
          next j values' best'
    | none => ∃ r, Behaviour.mandatory (p.denote (R.within b)) s env next n i values best = .ok r ∧
        r.erased = none

/-- The optional matches of a repetition, within `n` attempts. -/
def AnswersOptional (p : Grammar φ) (left : Limit) (i k : Nat) (vs : List (Value φ)) : Prop :=
  ∀ᶠ b in atTop, ∀ (n : Nat) (values : Array (Value φ)) (best : Option (Result (Value φ))),
    match left with
    | .finite left => ∀ most < 2 ^ 1000, n = left → ∃ r,
        Behaviour.optional (p.denote (R.within b)) (.finite most) s env Behaviour.finish n i values
          best = .ok r ∧ r.erased = some (k, .list (values.toList ++ vs))
    | .infinite => vs.length < n → ∃ r,
        Behaviour.optional (p.denote (R.within b)) .infinite s env Behaviour.spent n i values
          best = .ok r ∧ r.erased = some (k, .list (values.toList ++ vs))

end

theorem ok_bind {ε α β : Type} (a : α) (f : α → Except ε β) : (Except.ok a >>= f) = f a := rfl

variable {s : Input} {env : Value φ} {p : Grammar φ} {ps : List (Grammar φ)} {i j k : Nat}
  {v : Value φ} {vs : List (Value φ)}

/-! ## Sequences and alternatives -/

theorem answersSeq_nil : R.AnswersSeq s env [] i (some (i, [])) :=
  .of_forall fun _ _ _ => ⟨_, rfl, by simp⟩

theorem answersSeq_cons {o : Option (Nat × List (Value φ))}
    (hp : R.Answers s env p i (some (j, v))) (h : R.AnswersSeq s env ps j o) :
    R.AnswersSeq s env (p :: ps) i (o.map fun x => (x.1, v :: x.2)) := by
  filter_upwards [hp, h] with b ⟨r, hr, he⟩ hps values best
  obtain ⟨hs, rfl, rfl⟩ := Result.erased_eq_some.1 he
  obtain ⟨r', hr', he'⟩ := hps (values.push r.value) (some (r.mergeWith best))
  refine ⟨r', ?_, ?_⟩
  · simpa only [List.map_cons, Behaviour.seqFrom, hr, ok_bind, Result.status_mergeWith, hs, if_true,
      Result.index_mergeWith, Result.value_mergeWith] using hr'
  · rw [he', Option.map_map]
    simp [Function.comp_def]

theorem answersSeq_cons_none (hp : R.Answers s env p i none) :
    R.AnswersSeq s env (p :: ps) i none := by
  filter_upwards [hp] with b ⟨r, hr, he⟩ values best
  have hs := Result.erased_eq_none.1 he
  refine ⟨r.mergeWith best, ?_, by simpa using he⟩
  simp only [List.map_cons, Behaviour.seqFrom, hr, ok_bind, Result.status_mergeWith, hs,
    Bool.false_eq_true, if_false]
  rfl

theorem answers_seq {o : Option (Nat × List (Value φ))} (h : R.AnswersSeq s env ps i o) :
    R.Answers s env (.seq ps) i (o.map fun x => (x.1, .list x.2)) := by
  filter_upwards [h] with b hps
  rw [Grammar.denote_seq]
  exact hps #[] none

theorem answersAlt_nil : R.AnswersAlt s env [] i none :=
  .of_forall fun _ best hbest => ⟨best, rfl, Result.erased_eq_none.2 hbest⟩

theorem answersAlt_first {x : Nat × Value φ} (hp : R.Answers s env p i (some x)) :
    R.AnswersAlt s env (p :: ps) i (some x) := by
  filter_upwards [hp] with b ⟨r, hr, he⟩ best _
  have hs := (Result.erased_eq_some.1 he).1
  refine ⟨r.merge best, ?_, he⟩
  simp only [List.map_cons, Behaviour.altFrom, hr, ok_bind, Result.status_merge, hs, if_true]
  rfl

theorem answersAlt_later {o : Option (Nat × Value φ)} (hp : R.Answers s env p i none)
    (h : R.AnswersAlt s env ps i o) : R.AnswersAlt s env (p :: ps) i o := by
  filter_upwards [hp, h] with b ⟨r, hr, he⟩ hps best _
  have hs := Result.erased_eq_none.1 he
  obtain ⟨r', hr', he'⟩ := hps (r.merge best) hs
  refine ⟨r', ?_, he'⟩
  simpa only [List.map_cons, Behaviour.altFrom, hr, ok_bind, Result.status_merge, hs,
    Bool.false_eq_true, if_false] using hr'

theorem answers_alt_first {x : Nat × Value φ} (hp : R.Answers s env p i (some x)) :
    R.Answers s env (.alt p ps) i (some x) := by
  filter_upwards [hp] with b ⟨r, hr, he⟩
  have hs := (Result.erased_eq_some.1 he).1
  refine ⟨r, ?_, he⟩
  simp only [Grammar.denote_alt, Behaviour.alt, hr, ok_bind, hs, if_true]
  rfl

theorem answers_alt_later {o : Option (Nat × Value φ)} (hp : R.Answers s env p i none)
    (h : R.AnswersAlt s env ps i o) : R.Answers s env (.alt p ps) i o := by
  filter_upwards [hp, h] with b ⟨r, hr, he⟩ hps
  have hs := Result.erased_eq_none.1 he
  obtain ⟨r', hr', he'⟩ := hps r hs
  refine ⟨r', ?_, he'⟩
  simpa only [Grammar.denote_alt, Behaviour.alt, hr, ok_bind, hs, Bool.false_eq_true, if_false]
    using hr'

/-! ## Repetition -/

theorem answersMandatory_zero : R.AnswersMandatory s env p 0 i (some (i, [])) :=
  .of_forall fun _ _ values best => ⟨values, best, (List.append_nil _).symm, rfl⟩

theorem answersMandatory_succ {n : Nat} {o : Option (Nat × List (Value φ))}
    (hp : R.Answers s env p i (some (j, v))) (h : R.AnswersMandatory s env p n j o) :
    R.AnswersMandatory s env p (n + 1) i (o.map fun x => (x.1, v :: x.2)) := by
  filter_upwards [hp, h] with b ⟨r, hr, he⟩ hn next values best
  obtain ⟨hs, rfl, rfl⟩ := Result.erased_eq_some.1 he
  have hstep : Behaviour.mandatory (p.denote (R.within b)) s env next (n + 1) i values best =
      Behaviour.mandatory (p.denote (R.within b)) s env next n r.index (values.push r.value)
        (some (r.mergeWith best)) := by
    simp only [Behaviour.mandatory, hr, ok_bind, Result.status_mergeWith, hs, if_true,
      Result.index_mergeWith, Result.value_mergeWith]
  have hrest := hn next (values.push r.value) (some (r.mergeWith best))
  cases o with
  | none =>
    obtain ⟨r', hr', he'⟩ := hrest
    exact ⟨r', hstep.trans hr', he'⟩
  | some x =>
    obtain ⟨values', best', hvalues, hrest⟩ := hrest
    exact ⟨values', best', by simp [hvalues], hstep.trans hrest⟩

theorem answersMandatory_succ_none (n : Nat) (hp : R.Answers s env p i none) :
    R.AnswersMandatory s env p (n + 1) i none := by
  filter_upwards [hp] with b ⟨r, hr, he⟩ next values best
  have hs := Result.erased_eq_none.1 he
  refine ⟨r.mergeWith best, ?_, by simpa using he⟩
  simp only [Behaviour.mandatory, hr, ok_bind, Result.status_mergeWith, hs, Bool.false_eq_true,
    if_false]
  rfl

/-- An optional match, with what follows it. -/
theorem optional_succ {b : Nat × Nat} {r : Result (Value φ)}
    (hr : p.denote (R.within b) s i env = .ok r) (hs : r.status = true) (max : Limit)
    (next : Behaviour.Repeat (Except (Halt φ)) φ) (n : Nat) (values : Array (Value φ))
    (best : Option (Result (Value φ))) (hmax : ∀ most, max = .finite most → most < 2 ^ 1000) :
    Behaviour.optional (p.denote (R.within b)) max s env next (n + 1) i values best =
      if r.index = i ∧ max = .infinite then
        Behaviour.finish i (values.push r.value) (some (r.mergeWith best))
      else
        Behaviour.optional (p.denote (R.within b)) max s env next n r.index (values.push r.value)
          (some (r.mergeWith best)) := by
  simp only [Behaviour.optional, hr, ok_bind, Result.status_mergeWith, hs, if_true,
    Result.index_mergeWith, Result.value_mergeWith]
  cases max with
  | infinite => simp only [and_true]
  | finite most => simp [lt_boundCeiling (hmax most rfl)]

theorem optional_stop {b : Nat × Nat} {r : Result (Value φ)}
    (hr : p.denote (R.within b) s i env = .ok r) (hs : r.status = false) (max : Limit)
    (next : Behaviour.Repeat (Except (Halt φ)) φ) (n : Nat) (values : Array (Value φ))
    (best : Option (Result (Value φ))) :
    Behaviour.optional (p.denote (R.within b)) max s env next (n + 1) i values best =
      Behaviour.finish i values (some (r.mergeWith best)) := by
  simp only [Behaviour.optional, hr, ok_bind, Result.status_mergeWith, hs, Bool.false_eq_true,
    if_false]

theorem answersOptional_full : R.AnswersOptional s env p (.finite 0) i i [] := by
  refine .of_forall fun b n values best most _ hn => ?_
  subst hn
  exact ⟨_, rfl, by simp⟩

theorem answersOptional_stop (left : Limit) (hp : R.Answers s env p i none) :
    R.AnswersOptional s env p left i i [] := by
  filter_upwards [hp] with b ⟨r, hr, he⟩ n values best
  have hs := Result.erased_eq_none.1 he
  cases left with
  | infinite =>
    intro hn
    obtain ⟨n, rfl⟩ := Nat.exists_eq_succ_of_ne_zero (Nat.ne_of_gt hn)
    rw [optional_stop hr hs]
    exact ⟨_, rfl, by simp⟩
  | finite left =>
    intro most _ hn
    cases n with
    | zero => exact ⟨_, rfl, by simp⟩
    | succ n =>
      rw [optional_stop hr hs]
      exact ⟨_, rfl, by simp⟩

theorem answersOptional_more {n : Nat} (hp : R.Answers s env p i (some (j, v)))
    (h : R.AnswersOptional s env p (.finite n) j k vs) :
    R.AnswersOptional s env p (.finite (n + 1)) i k (v :: vs) := by
  filter_upwards [hp, h] with b ⟨r, hr, he⟩ hrest n' values best most hmost hn
  obtain ⟨hs, rfl, rfl⟩ := Result.erased_eq_some.1 he
  subst hn
  rw [optional_succ hr hs _ _ _ _ _ (by rintro _ ⟨⟩; exact hmost), if_neg (by simp)]
  obtain ⟨r', hr', he'⟩ := hrest n (values.push r.value) (some (r.mergeWith best)) most hmost rfl
  exact ⟨r', hr', by simpa using he'⟩

theorem answersOptional_again (hp : R.Answers s env p i (some (j, v))) (hj : j ≠ i)
    (h : R.AnswersOptional s env p .infinite j k vs) :
    R.AnswersOptional s env p .infinite i k (v :: vs) := by
  filter_upwards [hp, h] with b ⟨r, hr, he⟩ hrest n values best hn
  obtain ⟨hs, rfl, rfl⟩ := Result.erased_eq_some.1 he
  obtain ⟨n, rfl⟩ := Nat.exists_eq_succ_of_ne_zero (Nat.ne_of_gt (Nat.zero_lt_of_lt hn))
  rw [optional_succ hr hs .infinite _ _ _ _ nofun, if_neg fun h => hj h.1]
  obtain ⟨r', hr', he'⟩ := hrest n (values.push r.value) (some (r.mergeWith best))
    (Nat.lt_of_succ_lt_succ hn)
  exact ⟨r', hr', by simpa using he'⟩

theorem answersOptional_last (hp : R.Answers s env p i (some (i, v))) :
    R.AnswersOptional s env p .infinite i i [v] := by
  filter_upwards [hp] with b ⟨r, hr, he⟩ n values best hn
  obtain ⟨hs, hi, rfl⟩ := Result.erased_eq_some.1 he
  obtain ⟨n, rfl⟩ := Nat.exists_eq_succ_of_ne_zero (Nat.ne_of_gt (Nat.zero_lt_of_lt hn))
  rw [optional_succ hr hs .infinite _ _ _ _ nofun, if_pos ⟨hi, rfl⟩]
  exact ⟨_, rfl, by simp⟩

theorem eventually_budget (n : Nat) : ∀ᶠ b : Nat × Nat in atTop, n < b.1 := by
  filter_upwards [eventually_ge_atTop (n + 1, 0)] with b hb
  exact hb.1

theorem answers_times {least : Nat} {max : Limit} {ws : List (Value φ)}
    (hmax : ∀ most, max = .finite most → most < 2 ^ 1000)
    (h : R.AnswersMandatory s env p least i (some (j, vs)))
    (hrest : R.AnswersOptional s env p (max.minus least) j k ws) :
    R.Answers s env (.times p (.finite least) max) i (some (k, .list (vs ++ ws))) := by
  filter_upwards [h, hrest, eventually_budget ws.length] with b hn hrest hbudget
  rw [Grammar.denote_times]
  cases max with
  | infinite =>
    obtain ⟨values, best, hvalues, hnext⟩ := hn (Behaviour.optional (p.denote (R.within b)) .infinite
      s env Behaviour.spent (R.within b).budget) #[] none
    obtain ⟨r, hr, he⟩ := hrest (R.within b).budget values best hbudget
    exact ⟨r, hnext.trans hr, by rw [he, hvalues]; rfl⟩
  | finite most =>
    obtain ⟨values, best, hvalues, hnext⟩ := hn (Behaviour.optional (p.denote (R.within b))
      (.finite most) s env Behaviour.finish (most - least)) #[] none
    obtain ⟨r, hr, he⟩ := hrest (most - least) values best most (hmax most rfl) rfl
    exact ⟨r, hnext.trans hr, by rw [he, hvalues]; rfl⟩

theorem answers_times_none {least : Nat} (max : Limit)
    (h : R.AnswersMandatory s env p least i none) :
    R.Answers s env (.times p (.finite least) max) i none := by
  filter_upwards [h] with b hn
  rw [Grammar.denote_times]
  exact hn _ #[] none

/-! ## Values, continuations and environments -/

theorem answers_mapEnv {f : Callback φ} {u : Value φ} (hp : R.Answers s env p i (some (j, v)))
    (hf : R.Settles (fun h => f.run h.call v env) u) :
    R.Answers s env (.mapEnv p f) i (some (j, u)) := by
  filter_upwards [hp, eventually_callback hf] with b ⟨r, hr, he⟩ hf
  obtain ⟨hs, rfl, rfl⟩ := Result.erased_eq_some.1 he
  refine ⟨(Result.success r.index u).merge r, ?_, rfl⟩
  simp only [Grammar.denote_mapEnv, Behaviour.mapEnv, hr, ok_bind, hs, if_true, hf]
  rfl

theorem answers_mapEnv_none (f : Callback φ) (hp : R.Answers s env p i none) :
    R.Answers s env (.mapEnv p f) i none := by
  filter_upwards [hp] with b ⟨r, hr, he⟩
  refine ⟨r, ?_, he⟩
  simp only [Grammar.denote_mapEnv, Behaviour.mapEnv, hr, ok_bind, Result.erased_eq_none.1 he,
    Bool.false_eq_true, if_false]
  rfl

omit [FunctionText φ] in
theorem denote_chainEnv (h : Host (Except (Halt φ)) φ) (p : Grammar φ) (f : Callback φ) :
    (Grammar.chainEnv p f).denote h = Behaviour.chainEnv (p.denote h) fun v env =>
      f.run h.call v env >>= h.chosen (.unfit "chain" .parser) := rfl

theorem answers_chainEnv {f : Callback φ} {r' : Ref} {o : Option (Nat × Value φ)}
    (hp : R.Answers s env p i (some (j, v)))
    (hf : R.Settles (fun h => f.run h.call v env) (.parser r'))
    (h : R.Answers s env (.object r') j o) : R.Answers s env (.chainEnv p f) i o := by
  filter_upwards [hp, eventually_callback hf, h] with b ⟨r, hr, he⟩ hf ⟨r₂, hr₂, he₂⟩
  obtain ⟨hs, rfl, rfl⟩ := Result.erased_eq_some.1 he
  refine ⟨r₂.merge r, ?_, he₂⟩
  rw [Grammar.denote_object] at hr₂
  simp only [denote_chainEnv, Behaviour.chainEnv, hr, ok_bind, hs, if_true, hf]
  show ((R.within b).object r' s r.index env >>= _) = _
  rw [hr₂]
  rfl

theorem answers_chainEnv_none (f : Callback φ) (hp : R.Answers s env p i none) :
    R.Answers s env (.chainEnv p f) i none := by
  filter_upwards [hp] with b ⟨r, hr, he⟩
  refine ⟨r, ?_, he⟩
  simp only [denote_chainEnv, Behaviour.chainEnv, hr, ok_bind, Result.erased_eq_none.1 he,
    Bool.false_eq_true, if_false]
  rfl

theorem answers_relabel (label : String) {o : Option (Nat × Value φ)} (hp : R.Answers s env p i o) :
    R.Answers s env (.relabel p label) i o := by
  filter_upwards [hp] with b ⟨r, hr, he⟩
  rw [Grammar.denote_relabel]
  cases hs : r.status with
  | true =>
    refine ⟨r, ?_, he⟩
    simp only [Behaviour.relabel, hr, ok_bind, hs, if_true]
    rfl
  | false =>
    refine ⟨⟨⟨r.furthest, [label]⟩, false, r.index, .null⟩, ?_, ?_⟩
    · simp only [Behaviour.relabel, hr, ok_bind, hs, Bool.false_eq_true, if_false]
      rfl
    · rw [← he, Result.erased_of_not_status hs]
      rfl

theorem answers_except {q : Grammar φ} {o : Option (Nat × Value φ)}
    (hq : R.Answers s env q i none) (hp : R.Answers s env p i o) :
    R.Answers s env (.except p q) i o := by
  filter_upwards [hq, hp] with b ⟨r₁, hr₁, he₁⟩ ⟨r, hr, he⟩
  have hs₁ := Result.erased_eq_none.1 he₁
  rw [Grammar.denote_except]
  cases hs : r.status with
  | true =>
    refine ⟨r, ?_, he⟩
    simp only [Behaviour.except, hr₁, hr, ok_bind, hs₁, hs, Bool.false_eq_true, if_false, if_true]
    rfl
  | false =>
    refine ⟨.failure i
      (expectedText r.expected ++ " (except " ++ expectedText r₁.expected ++ ")"), ?_, ?_⟩
    · simp only [Behaviour.except, hr₁, hr, ok_bind, hs₁, hs, Bool.false_eq_true, if_false]
      rfl
    · rw [← he, Result.erased_of_not_status hs]
      rfl

theorem answers_except_none (p : Grammar φ) {q : Grammar φ}
    (hq : R.Answers s env q i (some (j, v))) : R.Answers s env (.except p q) i none := by
  filter_upwards [hq] with b ⟨r₁, hr₁, he₁⟩
  have hs₁ := (Result.erased_eq_some.1 he₁).1
  refine ⟨.failure i ("something that is not '" ++ r₁.value.describe R.names ++ "'"), ?_, rfl⟩
  simp only [Grammar.denote_except, Behaviour.except, hr₁, ok_bind, hs₁, if_true]
  rfl

theorem answers_lookAhead {o : Option (Nat × Value φ)} (hp : R.Answers s env p i o) :
    R.Answers s env (.lookAhead p) i (o.map fun x => (i, x.2)) := by
  filter_upwards [hp] with b ⟨r, hr, he⟩
  rw [Grammar.denote_lookAhead, ← he]
  cases hs : r.status with
  | true =>
    refine ⟨{ r with index := i }, ?_, ?_⟩
    · simp only [Behaviour.lookAhead, hr, ok_bind, hs, if_true]
      rfl
    · rw [Result.erased_of_status hs]
      exact Result.erased_of_status hs
  | false =>
    refine ⟨r, ?_, ?_⟩
    · simp only [Behaviour.lookAhead, hr, ok_bind, hs, Bool.false_eq_true, if_false]
      rfl
    · rw [Result.erased_of_not_status hs]
      rfl

theorem answers_trace (label : Value φ) {o : Option (Nat × Value φ)} (hp : R.Answers s env p i o) :
    R.Answers s env (.trace p label) i o := by
  filter_upwards [hp] with b ⟨r, hr, he⟩
  refine ⟨r, ?_, he⟩
  rw [Grammar.denote_trace]
  show (Grammar.denote (R.within b) p s i env >>= _) = _
  rw [hr, ok_bind]
  cases hs : r.status <;> rfl

theorem answers_subEnv {derive env' : Value φ} {o : Option (Nat × Value φ)}
    (hd : R.Settles (fun h => h.call derive [env]) env') (hp : R.Answers s env' p i o) :
    R.Answers s env (.subEnv p derive) i o := by
  filter_upwards [eventually_call hd, hp] with b hd ⟨r, hr, he⟩
  refine ⟨r, ?_, he⟩
  rw [Grammar.denote_subEnv]
  show ((R.within b).call derive [env] >>= _) = _
  rw [hd]
  exact hr

theorem answers_fromEnv {lookup : Value φ} {r' : Ref} {o : Option (Nat × Value φ)}
    (hl : R.Settles (fun h => h.call lookup [env]) (.parser r'))
    (h : R.Answers s env (.object r') i o) : R.Answers s env (.fromEnv lookup) i o := by
  filter_upwards [eventually_call hl, h] with b hl ⟨r, hr, he⟩
  refine ⟨r, ?_, he⟩
  show (((R.within b).call lookup [env] >>= (R.within b).chosen _) >>= _) = _
  rw [hl]
  exact hr

/-! ## Parsers without parts -/

theorem answers_custom {f : Value φ} {r : Result (Value φ)}
    (h : R.Settles (fun h => h.call f [.text (String.ofList s), .nat i, env]) (.result r)) :
    R.Answers s env (.custom f) i r.erased := by
  filter_upwards [eventually_call h] with b hb
  refine ⟨r, ?_, rfl⟩
  show ((R.within b).call f _ >>= _) = _
  rw [hb]
  rfl

/-- A parser without parts answers the same within any bounds. -/
theorem answers_leaf {g : Grammar φ} {f : Input → Nat → Result (Value φ)}
    (hg : ∀ b, g.denote (R.within b) s i env = .ok (f s i)) {o : Option (Nat × Value φ)}
    (ho : (f s i).erased = o) : R.Answers s env g i o :=
  .of_forall fun b => ⟨f s i, hg b, ho⟩

theorem answers_string {literal : String} (h : literal.toList <+: s.drop i ∧ i ≤ s.length) :
    R.Answers s env (.string literal) i (some (i + literal.toList.length, .text literal)) := by
  refine answers_leaf (f := Leaf.string literal) (fun _ => rfl) ?_
  unfold Leaf.string
  rw [if_pos (by simpa using h)]
  rfl

theorem answers_string_none {literal : String} (h : ¬(literal.toList <+: s.drop i ∧ i ≤ s.length)) :
    R.Answers s env (.string literal) i none := by
  refine answers_leaf (f := Leaf.string literal) (fun _ => rfl) ?_
  unfold Leaf.string
  rw [if_neg (by simpa using h)]
  rfl

theorem answers_regex {x : Pattern} {group : GroupName} (label : String) {number : Nat}
    {found : PatternMatch} (hm : x.matchAt s i = some found)
    (hn : x.groupNumber? group = some number) :
    R.Answers s env (.regex x group label) i
      (some (found.stop, ((found.group? number).map Value.text).getD .null)) := by
  refine .of_forall fun b => ⟨_, ?_, Result.erased_success _ _⟩
  show Behaviour.regex x group label s i env = _
  unfold Behaviour.regex
  rw [hm]
  simp only [hn]
  rfl

theorem answers_regex_none {x : Pattern} (group : GroupName) (label : String)
    (hm : x.matchAt s i = none) : R.Answers s env (.regex x group label) i none := by
  refine .of_forall fun b => ⟨.failure i label, ?_, rfl⟩
  show Behaviour.regex x group label s i env = _
  unfold Behaviour.regex
  rw [hm]
  rfl

theorem answers_satisfy {test : Test φ} (label : String) {c : Char} (hc : s[i]? = some c)
    {passes : Bool} (h : R.Settles (fun h => test.run h.call c env) passes) :
    R.Answers s env (.satisfy test label) i
      (if passes then some (i + 1, .text c.toString) else none) := by
  filter_upwards [eventually_test h] with b hb
  rw [Grammar.denote_satisfy]
  unfold Behaviour.satisfy
  rw [hc]
  simp only [hb, ok_bind]
  cases passes with
  | true => exact ⟨_, rfl, rfl⟩
  | false => exact ⟨_, rfl, rfl⟩

theorem answers_satisfy_none (test : Test φ) (label : String) (hc : s[i]? = none) :
    R.Answers s env (.satisfy test label) i none := by
  refine .of_forall fun b => ⟨.failure i label, ?_, rfl⟩
  rw [Grammar.denote_satisfy]
  unfold Behaviour.satisfy
  rw [hc]
  rfl

theorem answers_takeWhile {test : Test φ} {run : List Char}
    (h : R.Settles
      (fun h => Behaviour.runOf (fun c => test.run h.call c .null) (s.drop i)) run) :
    R.Answers s env (.takeWhile test) i
      (some (i + run.length, .text (String.ofList run))) := by
  filter_upwards [eventually_runOf h] with b hb
  refine ⟨.success (i + run.length) (.text (String.ofList run)), ?_, rfl⟩
  show (Behaviour.runOf _ (s.drop i) >>= _) = _
  rw [hb]
  rfl

/-! ## Objects -/

theorem answers_object {r' : Ref} {o : Option (Nat × Value φ)}
    (h : R.Answers s env (R.rule r') i o) : R.Answers s env (.object r') i o := by
  obtain ⟨⟨budget, depth⟩, h⟩ := eventually_atTop.1 h
  refine eventually_atTop.2 ⟨(budget, depth + 1), fun ⟨budget', depth'⟩ hb => ?_⟩
  obtain ⟨depth', rfl⟩ := Nat.exists_eq_add_of_le' (Nat.le_trans (Nat.le_add_left 1 depth) hb.2)
  exact h (budget', depth') ⟨hb.1, Nat.le_of_succ_le_succ hb.2⟩

/-- A deferred parser answers what the object of its target answers. -/
theorem answers_deferred {d : DeferralRef} {o : Option (Nat × Value φ)}
    (h : R.Answers s env (.object (R.target d)) i o) : R.Answers s env (.deferred d) i o := h

/-! ## Matches -/

mutual

/-- Whatever a grammar matches, it answers. -/
theorem answers_of_matches (hb : ∀ r, (R.rule r).Bounded) {g : Grammar φ} {i : Nat} {env : Value φ}
    {o : Option (Nat × Value φ)} : g.Bounded → R.Matches s g i env o → R.Answers s env g i o
  | _, .object h => answers_object (answers_of_matches hb (hb _) h)
  | _, .deferred h => answers_deferred (answers_of_matches hb trivial h)
  | _, .custom h => answers_custom h
  | _, .succeed v _ _ => answers_leaf (f := Leaf.succeed v) (fun _ => rfl) rfl
  | _, .fail label _ _ => answers_leaf (f := Leaf.fail label) (fun _ => rfl) rfl
  | _, .offset _ _ => answers_leaf (f := Leaf.offset) (fun _ => rfl) rfl
  | _, .position _ _ => answers_leaf (f := Leaf.position) (fun _ => rfl) rfl
  | _, .eof _ h => answers_leaf (f := Leaf.eof) (fun _ => rfl)
      (by rw [Leaf.eof, if_neg (Nat.not_lt.2 h), Result.erased_success])
  | _, .eof_none _ h => answers_leaf (f := Leaf.eof) (fun _ => rfl)
      (by rw [Leaf.eof, if_pos h, Result.erased_failure])
  | _, .anyChar _ h => answers_leaf (f := Leaf.anyChar) (fun _ => rfl)
      (by simp only [Leaf.anyChar, h, Result.erased_success])
  | _, .anyChar_none _ h => answers_leaf (f := Leaf.anyChar) (fun _ => rfl)
      (by simp only [Leaf.anyChar, h, Result.erased_failure])
  | _, .rest _ _ => answers_leaf (f := Leaf.rest) (fun _ => rfl) rfl
  | _, .string _ h hi => answers_string ⟨h, hi⟩
  | _, .string_none _ h => answers_string_none h
  | _, .regex label _ hm hn => answers_regex label hm hn
  | _, .regex_none group label _ hm => answers_regex_none group label hm
  | _, .satisfy label hc h => answers_satisfy label hc h
  | _, .satisfy_false label hc h => answers_satisfy label hc h
  | _, .satisfy_none test label _ hc => answers_satisfy_none test label hc
  | _, .takeWhile _ h => answers_takeWhile h
  | hg, .seq h => answers_seq (answersSeq_of_threads hb hg h)
  | hg, .alt (.first _ h) => answers_alt_first (answers_of_matches hb hg.1 h)
  | hg, .alt (.later h hrest) => answers_alt_later (answers_of_matches hb hg.1 h)
      (answersAlt_of_chooses hb hg.2 hrest)
  | hg, .times h hrest => answers_times hg.2.2 (answersMandatory_of_requires hb hg.1 h)
      (answersOptional_of_greedy hb hg.1 hrest)
  | hg, .times_none _ h => answers_times_none _ (answersMandatory_of_requires hb hg.1 h)
  | hg, .mapEnv h hf => answers_mapEnv (answers_of_matches hb hg h) hf
  | hg, .mapEnv_none _ h => answers_mapEnv_none _ (answers_of_matches hb hg h)
  | hg, .chainEnv h hf hnext => answers_chainEnv (answers_of_matches hb hg h) hf
      (answers_of_matches hb trivial hnext)
  | hg, .chainEnv_none _ h => answers_chainEnv_none _ (answers_of_matches hb hg h)
  | hg, .relabel _ h => answers_relabel _ (answers_of_matches hb hg h)
  | hg, .except hq hp => answers_except (answers_of_matches hb hg.2 hq)
      (answers_of_matches hb hg.1 hp)
  | hg, .except_none _ hq => answers_except_none _ (answers_of_matches hb hg.2 hq)
  | hg, .lookAhead h => answers_lookAhead (answers_of_matches hb hg h)
  | hg, .trace _ h => answers_trace _ (answers_of_matches hb hg h)
  | hg, .subEnv hd h => answers_subEnv hd (answers_of_matches hb hg h)
  | _, .fromEnv hl h => answers_fromEnv hl (answers_of_matches hb trivial h)

theorem answersSeq_of_threads (hb : ∀ r, (R.rule r).Bounded) {ps : List (Grammar φ)} {i : Nat}
    {env : Value φ} {o : Option (Nat × List (Value φ))} :
    Grammar.BoundedAll ps → R.Threads s ps i env o → R.AnswersSeq s env ps i o
  | _, .nil _ _ => answersSeq_nil
  | hg, .cons h hrest => answersSeq_cons (answers_of_matches hb hg.1 h)
      (answersSeq_of_threads hb hg.2 hrest)
  | hg, .cons_none _ h => answersSeq_cons_none (answers_of_matches hb hg.1 h)

theorem answersAlt_of_chooses (hb : ∀ r, (R.rule r).Bounded) {ps : List (Grammar φ)} {i : Nat}
    {env : Value φ} {o : Option (Nat × Value φ)} :
    Grammar.BoundedAll ps → R.Chooses s ps i env o → R.AnswersAlt s env ps i o
  | _, .nil _ _ => answersAlt_nil
  | hg, .first _ h => answersAlt_first (answers_of_matches hb hg.1 h)
  | hg, .later h hrest => answersAlt_later (answers_of_matches hb hg.1 h)
      (answersAlt_of_chooses hb hg.2 hrest)

theorem answersMandatory_of_requires (hb : ∀ r, (R.rule r).Bounded) {p : Grammar φ} {n i : Nat}
    {env : Value φ} {o : Option (Nat × List (Value φ))} :
    p.Bounded → R.Requires s p n i env o → R.AnswersMandatory s env p n i o
  | _, .zero _ _ _ => answersMandatory_zero
  | hg, .succ h hrest => answersMandatory_succ (answers_of_matches hb hg h)
      (answersMandatory_of_requires hb hg hrest)
  | hg, .succ_none _ h => answersMandatory_succ_none _ (answers_of_matches hb hg h)

theorem answersOptional_of_greedy (hb : ∀ r, (R.rule r).Bounded) {p : Grammar φ} {left : Limit}
    {i k : Nat} {env : Value φ} {vs : List (Value φ)} :
    p.Bounded → R.Greedy s p left i env k vs → R.AnswersOptional s env p left i k vs
  | _, .full _ _ _ => answersOptional_full
  | hg, .stop _ h => answersOptional_stop _ (answers_of_matches hb hg h)
  | hg, .more h hrest => answersOptional_more (answers_of_matches hb hg h)
      (answersOptional_of_greedy hb hg hrest)
  | hg, .again h hj hrest => answersOptional_again (answers_of_matches hb hg h) hj
      (answersOptional_of_greedy hb hg hrest)
  | hg, .last h => answersOptional_last (answers_of_matches hb hg h)

end

end Rules

end Furthest
