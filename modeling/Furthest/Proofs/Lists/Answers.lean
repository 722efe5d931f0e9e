import Furthest.Proofs.Expressions.Parse
import Furthest.Proofs.OrderedChoice.Exact

/-!
# What is answered, from what the parts answer

`Rules.Answers` says what a grammar answers within all large enough bounds.  Here it is told exactly
from what the parts answer: a grammar answers one thing at most (`Rules.Answers.unique`), and whatever
it answers its parts have answered before it.  A repetition answers where its part has been repeated
(`Rules.Repeats`) up to an offset where it fails (`Rules.answers_many_iff`).

What the rules answer for an object is what a run on the machine comes to, and the other way round
(`Machine.ComesTo.answered`, `Machine.ComesTo.answered_of_answers`, `Machine.exists_comesTo`), and what
they match of a whole text is what a parse gives (`Machine.ParsesTo.matchesWhole`,
`Machine.exists_parsesTo`).
-/

namespace Furthest

open Filter

variable {φ : Type} [FunctionText φ]

namespace Rules

variable {R : Rules φ} {s : Input} {env : Value φ} {g p q : Grammar φ} {ps : List (Grammar φ)}
  {i j k : Nat} {v : Value φ} {o o' : Option (Nat × Value φ)}

/-- What a run comes to within some bounds is the answer. -/
theorem answers_of_denote {b : Nat × Nat} {r : Result (Value φ)}
    (h : g.denote (R.within b) s i env = .ok r) : R.Answers s env g i r.erased := by
  filter_upwards [eventually_ge_atTop b] with b' hb
  exact ⟨r, denote_within_mono (o := .ok r) hb h, rfl⟩

/-- A grammar answers one thing at most. -/
theorem Answers.unique (h : R.Answers s env g i o) (h' : R.Answers s env g i o') : o = o' := by
  obtain ⟨b, ⟨r, hr, ho⟩, r', hr', ho'⟩ := (h.and h').exists
  obtain rfl := Except.ok.inj (hr.symm.trans hr')
  exact ho.symm.trans ho'

/-! ## Values and sequences -/

theorem Answers.of_mapEnv {f : Callback φ} (h : R.Answers s env (.mapEnv g f) i o) :
    ∃ o', R.Answers s env g i o' := by
  obtain ⟨b, r, hr, -⟩ := h.exists
  obtain ⟨r', hr', -⟩ := except_bind_eq_ok hr
  exact ⟨_, answers_of_denote hr'⟩

/-- A callback that gives a value of whatever it is applied to. -/
theorem answers_mapEnv_iff {f : Callback φ} {F : Value φ → Value φ}
    (hf : ∀ v, R.Settles (fun h => f.run h.call v env) (F v)) :
    R.Answers s env (.mapEnv g f) i o ↔
      ∃ o', R.Answers s env g i o' ∧ o = o'.map fun x => (x.1, F x.2) := by
  have hmap : ∀ {o'}, R.Answers s env g i o' →
      R.Answers s env (.mapEnv g f) i (o'.map fun x => (x.1, F x.2)) := by
    rintro (_ | ⟨j, v⟩) h
    · exact answers_mapEnv_none f h
    · exact answers_mapEnv h (hf v)
  constructor
  · intro h
    obtain ⟨o', ho'⟩ := h.of_mapEnv
    exact ⟨o', ho', h.unique (hmap ho')⟩
  · rintro ⟨o', ho', rfl⟩
    exact hmap ho'

theorem Answers.of_seq_first (h : R.Answers s env (.seq (p :: ps)) i o) :
    ∃ o', R.Answers s env p i o' := by
  obtain ⟨b, r, hr, -⟩ := h.exists
  obtain ⟨r', hr', -⟩ := except_bind_eq_ok hr
  exact ⟨_, answers_of_denote hr'⟩

theorem Answers.of_seq_second (h : R.Answers s env (.seq (p :: q :: ps)) i o)
    (hp : R.Answers s env p i (some (j, v))) : ∃ o', R.Answers s env q j o' := by
  obtain ⟨b, ⟨r, hr, -⟩, rp, hrp, hj⟩ := (h.and hp).exists
  obtain ⟨hs, rfl, rfl⟩ := Result.erased_eq_some.1 hj
  obtain ⟨rp', hrp', hr⟩ := except_bind_eq_ok hr
  obtain rfl := Except.ok.inj (hrp.symm.trans hrp')
  simp only [Result.mergeWith_none, hs, if_true] at hr
  obtain ⟨rq, hrq, -⟩ := except_bind_eq_ok hr
  exact ⟨_, answers_of_denote hrq⟩

/-- A callback that gives a value of any list of two is applied to what two parts match in turn. -/
theorem answers_pair_iff {f : Callback φ} {F : Value φ → Value φ → Value φ}
    (hf : ∀ u v, R.Settles (fun h => f.run h.call (.list [u, v]) env) (F u v)) :
    R.Answers s env (.mapEnv (.seq [p, q]) f) i o ↔
      R.Answers s env p i none ∧ o = none ∨
      ∃ j u, R.Answers s env p i (some (j, u)) ∧
        ∃ o', R.Answers s env q j o' ∧ o = o'.map fun x => (x.1, F u x.2) := by
  have hnone : R.Answers s env p i none → R.Answers s env (.mapEnv (.seq [p, q]) f) i none :=
    fun hp => answers_mapEnv_none f (answers_seq (answersSeq_cons_none hp))
  have hsome : ∀ {j u o'}, R.Answers s env p i (some (j, u)) → R.Answers s env q j o' →
      R.Answers s env (.mapEnv (.seq [p, q]) f) i (o'.map fun x => (x.1, F u x.2)) := by
    rintro j u (_ | ⟨k, v⟩) hp hq
    · exact answers_mapEnv_none f (answers_seq (answersSeq_cons hp (answersSeq_cons_none hq)))
    · have hseq := answersSeq_cons hp (answersSeq_cons hq answersSeq_nil)
      exact answers_mapEnv (answers_seq hseq) (hf u v)
  constructor
  · intro h
    obtain ⟨_, hseq⟩ := h.of_mapEnv
    obtain ⟨_ | ⟨j, u⟩, hp⟩ := hseq.of_seq_first
    · exact .inl ⟨hp, h.unique (hnone hp)⟩
    · obtain ⟨o', hq⟩ := hseq.of_seq_second hp
      exact .inr ⟨j, u, hp, o', hq, h.unique (hsome hp hq)⟩
  · rintro (⟨hp, rfl⟩ | ⟨j, u, hp, o', hq, rfl⟩)
    · exact hnone hp
    · exact hsome hp hq

/-- A part, and then one whose value is dropped. -/
theorem answers_skip_iff : R.Answers s env (.skip p q) i o ↔
    R.Answers s env p i none ∧ o = none ∨
    ∃ j u, R.Answers s env p i (some (j, u)) ∧
      ∃ o', R.Answers s env q j o' ∧ o = o'.map fun x => (x.1, u) :=
  answers_pair_iff (F := fun u _ => u) fun _ _ => ⟨(0, 0), rfl⟩

/-- A part whose value is dropped, and then another one. -/
theorem answers_skipLeft_iff : R.Answers s env (.skipLeft p q) i o ↔
    R.Answers s env p i none ∧ o = none ∨
    ∃ j u, R.Answers s env p i (some (j, u)) ∧ R.Answers s env q j o := by
  refine (answers_pair_iff (F := fun _ v => v) fun _ _ => ⟨(0, 0), rfl⟩).trans ?_
  simp

/-! ## Alternatives and exceptions -/

theorem answers_alt_iff : R.Answers s env (.alt p [q]) i o ↔
    (∃ x, R.Answers s env p i (some x) ∧ o = some x) ∨
    R.Answers s env p i none ∧ R.Answers s env q i o := by
  have hlater : ∀ {o}, R.Answers s env p i none → R.Answers s env q i o →
      R.Answers s env (.alt p [q]) i o := by
    rintro (_ | x) hp hq
    · exact answers_alt_later hp (answersAlt_later hq answersAlt_nil)
    · exact answers_alt_later hp (answersAlt_first hq)
  constructor
  · intro h
    obtain ⟨b, r, hr, -⟩ := h.exists
    obtain ⟨rp, hrp, hr⟩ := except_bind_eq_ok hr
    have hp := answers_of_denote hrp
    cases hs : rp.status with
    | true =>
      rw [Result.erased_of_status hs] at hp
      exact .inl ⟨_, hp, h.unique (answers_alt_first hp)⟩
    | false =>
      rw [Result.erased_of_not_status hs] at hp
      simp only [hs, Bool.false_eq_true, if_false] at hr
      obtain ⟨rq, hrq, -⟩ := except_bind_eq_ok hr
      have hq := answers_of_denote hrq
      rw [← h.unique (hlater hp hq)] at hq
      exact .inr ⟨hp, hq⟩
  · rintro (⟨x, hp, rfl⟩ | ⟨hp, hq⟩)
    · exact answers_alt_first hp
    · exact hlater hp hq

theorem answers_succeed_iff : R.Answers s env (.succeed v) i o ↔ o = some (i, v) := by
  have h : R.Answers s env (.succeed v) i (some (i, v)) := .of_forall fun _ => ⟨_, rfl, rfl⟩
  exact ⟨fun h' => h'.unique h, by rintro rfl; exact h⟩

/-- A match of a part, or else of nothing with a given value. -/
theorem answers_option_iff : R.Answers s env (.option v p) i o ↔
    (∃ x, R.Answers s env p i (some x) ∧ o = some x) ∨
    R.Answers s env p i none ∧ o = some (i, v) := by
  rw [Grammar.option, answers_alt_iff, answers_succeed_iff]

theorem answers_except_iff : R.Answers s env (.except p q) i o ↔
    (∃ x, R.Answers s env q i (some x)) ∧ o = none ∨
    R.Answers s env q i none ∧ R.Answers s env p i o := by
  constructor
  · intro h
    obtain ⟨b, r, hr, -⟩ := h.exists
    obtain ⟨rq, hrq, hr⟩ := except_bind_eq_ok hr
    have hq := answers_of_denote hrq
    cases hs : rq.status with
    | true =>
      rw [Result.erased_of_status hs] at hq
      exact .inl ⟨⟨_, hq⟩, h.unique (answers_except_none p hq)⟩
    | false =>
      rw [Result.erased_of_not_status hs] at hq
      simp only [hs, Bool.false_eq_true, if_false] at hr
      obtain ⟨rp, hrp, -⟩ := except_bind_eq_ok hr
      have hp := answers_of_denote hrp
      rw [← h.unique (answers_except hq hp)] at hp
      exact .inr ⟨hq, hp⟩
  · rintro (⟨⟨⟨j, v⟩, hq⟩, rfl⟩ | ⟨hq, hp⟩)
    · exact answers_except_none p hq
    · exact answers_except hq hp

/-! ## Repetitions -/

/-- A grammar matches one time after another, each time more than nothing: where each match began
and its value, and where the last one ended. -/
inductive Repeats (R : Rules φ) (s : Input) (env : Value φ) (g : Grammar φ) :
    Nat → List (Nat × Value φ) → Nat → Prop where
  | nil (i : Nat) : Repeats R s env g i [] i
  | cons {i j k : Nat} {v : Value φ} {steps : List (Nat × Value φ)} :
    R.Answers s env g i (some (j, v)) → i < j → Repeats R s env g j steps k →
    Repeats R s env g i ((i, v) :: steps) k

/-- Whatever a grammar matches, it consumes some of the text. -/
def Consumes (R : Rules φ) (s : Input) (env : Value φ) (g : Grammar φ) : Prop :=
  ∀ ⦃i j : Nat⦄ ⦃v : Value φ⦄, R.Answers s env g i (some (j, v)) → i < j

variable {steps steps' : List (Nat × Value φ)} {k' : Nat}

/-- A repetition up to where the grammar fails goes one way only. -/
theorem Repeats.unique (h : R.Repeats s env g i steps k) (hk : R.Answers s env g k none)
    (h' : R.Repeats s env g i steps' k') (hk' : R.Answers s env g k' none) :
    steps = steps' ∧ k = k' := by
  induction h generalizing steps' with
  | nil i =>
    cases h' with
    | nil => exact ⟨rfl, rfl⟩
    | cons hv _ _ => cases hk.unique hv
  | cons hv _ _ ih =>
    cases h' with
    | nil => cases hv.unique hk'
    | cons hv' _ hrest' =>
      cases hv.unique hv'
      obtain ⟨rfl, rfl⟩ := ih hk hrest'
      exact ⟨rfl, rfl⟩

theorem Repeats.answersOptional (h : R.Repeats s env g i steps k) (hk : R.Answers s env g k none) :
    R.AnswersOptional s env g .infinite i k (steps.map (·.2)) := by
  induction h with
  | nil i => exact answersOptional_stop .infinite hk
  | cons hv hlt _ ih => exact answersOptional_again hv (Nat.ne_of_gt hlt) (ih hk)

theorem Repeats.answers_many (h : R.Repeats s env g i steps k) (hk : R.Answers s env g k none) :
    R.Answers s env (.many g) i (some (k, .list (steps.map (·.2)))) :=
  answers_times (by nofun) answersMandatory_zero (h.answersOptional hk)

/-- A loop that has come to an end has repeated its part up to where that fails. -/
theorem repeats_of_optional (hg : R.Consumes s env g) {b : Nat × Nat} {n : Nat}
    {values : Array (Value φ)} {best : Option (Result (Value φ))} {r : Result (Value φ)}
    (h : Behaviour.optional (g.denote (R.within b)) .infinite s env Behaviour.spent n i values best =
      .ok r) :
    ∃ steps k, R.Repeats s env g i steps k ∧ R.Answers s env g k none := by
  induction n generalizing i values best with
  | zero => cases h
  | succ n ih =>
    obtain ⟨r₀, hr₀, h⟩ := except_bind_eq_ok h
    have hanswer := answers_of_denote hr₀
    cases hs : r₀.status with
    | false =>
      rw [Result.erased_of_not_status hs] at hanswer
      exact ⟨[], i, .nil i, hanswer⟩
    | true =>
      rw [Result.erased_of_status hs] at hanswer
      have hlt := hg hanswer
      simp only [Result.status_mergeWith, hs, if_true, Result.index_mergeWith,
        if_neg (Nat.ne_of_gt hlt)] at h
      obtain ⟨steps, k, hsteps, hk⟩ := ih h
      exact ⟨_, k, .cons hanswer hlt hsteps, hk⟩

/-- As many matches as there are lead to where there is no more. -/
theorem answers_many_iff (hg : R.Consumes s env g) : R.Answers s env (.many g) i o ↔
    ∃ steps k, R.Repeats s env g i steps k ∧ R.Answers s env g k none ∧
      o = some (k, .list (steps.map (·.2))) := by
  constructor
  · intro h
    obtain ⟨b, r, hr, -⟩ := h.exists
    obtain ⟨steps, k, hsteps, hk⟩ := repeats_of_optional hg hr
    exact ⟨steps, k, hsteps, hk, h.unique (hsteps.answers_many hk)⟩
  · rintro ⟨steps, k, hsteps, hk, rfl⟩
    exact hsteps.answers_many hk

/-! ## Objects -/

theorem answers_of_gives {r : Ref} {result : Result (Value φ)}
    (h : R.Gives r s i env (.ok result)) : R.Answers s env (.object r) i result.erased := by
  obtain ⟨budget, depth, hrun⟩ := h
  exact answers_of_denote (b := (budget, depth)) hrun

theorem Answers.gives {r : Ref} (h : R.Answers s env (.object r) i o) :
    ∃ result, R.Gives r s i env (.ok result) ∧ result.erased = o := by
  obtain ⟨b, result, hresult, ho⟩ := h.exists
  exact ⟨result, ⟨b.1, b.2, hresult⟩, ho⟩

theorem answers_object_iff {r : Ref} :
    R.Answers s env (.object r) i o ↔ R.Answers s env (R.rule r) i o := by
  refine ⟨fun h => ?_, answers_object⟩
  obtain ⟨⟨budget, depth⟩, result, hresult, rfl⟩ := h.exists
  cases depth with
  | zero => cases hresult
  | succ depth => exact answers_of_denote (b := (budget, depth)) hresult

/-! ## Whole texts -/

/-- A grammar matches the whole text and gives a value. -/
def MatchesWhole (R : Rules φ) (s : Input) (env : Value φ) (g : Grammar φ) (v : Value φ) : Prop :=
  ∃ j, R.Answers s env g 0 (some (j, v)) ∧ s.length ≤ j

theorem matchesWhole_object_iff {r : Ref} :
    R.MatchesWhole s env (.object r) v ↔ R.MatchesWhole s env (R.rule r) v :=
  exists_congr fun _ => and_congr_left fun _ => answers_object_iff

theorem answers_whole_iff (heof : R.rule Ref.eof = .eof) {r : Ref} :
    R.Answers s env (.whole (.object r)) 0 (some (j, v)) ↔
      R.Answers s env (.object r) 0 (some (j, v)) ∧ s.length ≤ j := by
  rw [Grammar.whole, answers_skip_iff]
  constructor
  · rintro (⟨-, hnone⟩ | ⟨k, u, hr, o', hend, ho⟩)
    · cases hnone
    · rcases Nat.lt_or_ge k s.length with hlt | hle
      · cases hend.unique (answers_eof_none heof hlt)
        cases ho
      · cases hend.unique (answers_eof heof hle)
        cases ho
        exact ⟨hr, hle⟩
  · rintro ⟨hr, hle⟩
    exact .inr ⟨j, v, hr, _, answers_eof heof hle, rfl⟩

end Rules

/-! ## The machine -/

section

variable {R : Rules φ} {B : Bond φ} {w : World φ}
  {result : Result (Value φ)}

theorem Answered.failed (h : Answered R B w result none) : result.status = false := by
  obtain ⟨result', ⟨B', -, -, hr⟩, herased⟩ := h
  obtain ⟨hr⟩ := hr
  exact hr.status_eq.trans (Result.erased_eq_none.1 herased)

/-- The value of a match is what was answered, if objects and functions in it are taken for what they
stand for. -/
theorem Answered.matched {j : Nat} {v : Value φ} (h : Answered R B w result (some (j, v))) :
    result.status = true ∧ result.index = j ∧ ∃ B', B ≤ B' ∧ Value.Like B' result.value v := by
  obtain ⟨result', ⟨B', hB, -, hr⟩, herased⟩ := h
  obtain ⟨hr⟩ := hr
  obtain ⟨hs, rfl, rfl⟩ := Result.erased_eq_some.1 herased
  exact ⟨hr.status_eq.trans hs, hr.index_eq, B', hB, hr.value_like⟩

end

namespace Machine

variable {apply : Tools φ → φ → List (Value φ) → Machine φ (Value φ)} {R : Rules φ}
  {B : Bond φ} {w w' : World φ} {r r' : Ref}
  {env env' : Value φ} {s : Input} {i : Nat} {a : Option (Nat × Value φ)}

theorem ComesTo.answered {result : Result (Value φ)}
    (h : ComesTo apply r s i env w (.ok result) w')
    (hpure : ∀ budget, PureFunctions apply budget R) (hw : Faithful R B w)
    (hr : B.objects r = some r') (henv : Value.Like B env env') :
    ∃ a, R.Answers s env' (.object r') i a ∧ Answered R B w' result a := by
  obtain ⟨o', hgives, hstated⟩ := h.stated hpure (le_refl B) hw hr henv
  obtain ⟨result', rfl⟩ := hstated.ok_right
  exact ⟨_, Rules.answers_of_gives hgives, result', hstated, rfl⟩

/-- A run comes to what the rules answer, if they answer anything. -/
theorem ComesTo.answered_of_answers {o : Except (Fault φ) (Result (Value φ))}
    (h : ComesTo apply r s i env w o w') (ha : R.Answers s env' (.object r') i a)
    (hpure : ∀ budget, PureFunctions apply budget R) (hw : Faithful R B w)
    (hr : B.objects r = some r') (henv : Value.Like B env env') :
    ∃ result, o = .ok result ∧ Answered R B w' result a := by
  obtain ⟨o', hgives, hstated⟩ := h.stated hpure (le_refl B) hw hr henv
  obtain ⟨result', hgives', herased⟩ := ha.gives
  obtain rfl := hgives.unique hgives'
  obtain ⟨result, rfl⟩ := hstated.ok_left
  exact ⟨result, rfl, result', hstated, herased⟩

theorem exists_comesTo (ha : R.Answers s env' (.object r') i a)
    (hpure : ∀ budget, PureFunctions apply budget R) (hw : Faithful R B w)
    (hr : B.objects r = some r') (henv : Value.Like B env env') :
    ∃ result w', ComesTo apply r s i env w (.ok result) w' ∧ Answered R B w' result a := by
  obtain ⟨result', hgives, herased⟩ := ha.gives
  obtain ⟨o, w', hcomes, hstated⟩ := comesTo_of_gives hgives hpure (le_refl B) hw hr henv
  obtain ⟨result, rfl⟩ := hstated.ok_left
  exact ⟨result, w', hcomes, result', hstated, herased⟩

/-- A parse gives what the rules match of the whole text, if objects and functions in it are taken for
what they stand for. -/
theorem ParsesTo.matchesWhole {u : Value φ} (h : ParsesTo apply r s env w (.ok (.ok u)) w')
    (hpure : ∀ budget, PureFunctions apply budget R) (hw : Faithful R B w)
    (heof : R.rule Ref.eof = .eof) (hr : B.objects r = some r') (henv : Value.Like B env env') :
    ∃ v, R.MatchesWhole s env' (.object r') v ∧ ∃ B', B ≤ B' ∧ Value.Like B' u v := by
  obtain ⟨budget, depth, hrun⟩ := h
  obtain ⟨B', o', hB, -, hrelated, hsettled⟩ :=
    (agrees_parse (hpure budget) hw hr henv s).forth hrun
  obtain ⟨hlike⟩ := hrelated
  obtain ⟨n, hn⟩ := hsettled.exists
  have hparse : (R.within (budget, n)).parse r' s env' = .ok _ := hn
  rw [Rules.parse_within, map_eq_pure_bind] at hparse
  obtain ⟨result, hresult, ⟨⟩⟩ := except_bind_eq_ok hparse
  have hanswer := Rules.answers_of_denote hresult
  cases hs : result.status with
  | true =>
    rw [Result.erased_of_status hs] at hanswer
    rw [Result.outcome, if_pos hs] at hlike
    cases hlike with
    | ok hlike => exact ⟨_, ⟨_, (Rules.answers_whole_iff heof).1 hanswer⟩, B', hB, hlike⟩
  | false =>
    rw [Result.outcome, if_neg (by simp [hs])] at hlike
    cases hlike

/-- What the rules match of the whole text a parse gives. -/
theorem exists_parsesTo {v : Value φ} (h : R.MatchesWhole s env' (.object r') v)
    (hpure : ∀ budget, PureFunctions apply budget R) (hw : Faithful R B w)
    (heof : R.rule Ref.eof = .eof) (hr : B.objects r = some r') (henv : Value.Like B env env') :
    ∃ u w', ParsesTo apply r s env w (.ok (.ok u)) w' ∧ ∃ B', B ≤ B' ∧ Value.Like B' u v := by
  obtain ⟨j, hanswer⟩ := h
  obtain ⟨⟨budget, depth⟩, result, hresult, herased⟩ :=
    ((Rules.answers_whole_iff heof).2 hanswer).exists
  have hout : (R.within (budget, depth)).parse r' s env' = settled (.ok (.ok v)) := by
    rw [Rules.parse_within, hresult]
    exact congrArg Except.ok (Result.outcome_of_erased_some herased)
  obtain ⟨B', o, w', hB, -, hrelated, hruns⟩ :=
    (agrees_parse (hpure budget) (k := depth) hw hr henv s).back hout
  obtain ⟨outcome, rfl, hlike⟩ := hrelated.exists_ok
  obtain ⟨n, hn⟩ := hruns.exists
  cases outcome with
  | error report => cases hlike
  | ok u =>
    cases hlike with
    | ok hlike => exact ⟨u, w', ⟨budget, n, hn⟩, B', hB, hlike⟩

end Machine

end Furthest
