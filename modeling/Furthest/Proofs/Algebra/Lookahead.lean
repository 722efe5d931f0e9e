import Furthest.Proofs.Deferred.OwnRules
import Furthest.Proofs.EntryPoints.Whole
import Furthest.Proofs.Lists.Answers

/-!
# The laws of lookahead

A positive lookahead rewrites the offset of a match; a negative one goes through `except`, which
throws failures away and makes new ones.  They fit together all the same
(`Machine.lookahead_laws`): twice negative decides what positive does, a lookahead before the parser
itself changes none of its matches, and what is excepted could as well be refused in front.  The
laws hold of whatever can be run, with all its effects, and halting is kept.

A lookahead before the parser itself runs the parser twice, and the two values may differ.  Where
functions have no effect that shows they do not (`Machine.comesTo_doubled`).
-/

namespace Furthest

variable {φ σ : Type}

namespace Result

/-- The result of a lookahead at an offset: a match goes on from there. -/
def back (r : Result (Value φ)) (i : Nat) : Result (Value φ) :=
  if r.status then { r with index := i } else r

/-- Where a match goes on, and its value. -/
def taken (r : Result (Value φ)) : Option (Nat × Value φ) :=
  if r.status then some (r.index, r.value) else none

variable {r : Result (Value φ)}

theorem back_of_matched (h : r.status = true) (i : Nat) : r.back i = { r with index := i } :=
  if_pos h

theorem back_of_failed (h : r.status = false) (i : Nat) : r.back i = r := if_neg (by simp [h])

@[simp] theorem status_back (r : Result (Value φ)) (i : Nat) : (r.back i).status = r.status := by
  unfold back
  split <;> rfl

end Result

/-- The second of two listed values. -/
def Value.second : Value φ → Value φ
  | .list [_, v] => v
  | v => v

namespace Behaviour

variable {p q : Behaviour (EStateM (Halt φ) σ) φ} {s : Input} {i : Nat} {env : Value φ}
  {w w₁ w₂ : σ} {r r' : Result (Value φ)}

theorem lookAhead_apply (p : Behaviour (EStateM (Halt φ) σ) φ) (s : Input) (i : Nat)
    (env : Value φ) : lookAhead p s i env = (fun r => r.back i) <$> p s i env := by
  rw [map_eq_pure_bind]
  refine bind_congr fun r => ?_
  unfold Result.back
  split <;> rfl

theorem lookAhead_of_ok (hp : p s i env w = .ok r w₁) :
    lookAhead p s i env w = .ok (r.back i) w₁ := by
  rw [lookAhead_apply, map_eq_pure_bind]
  exact bind_of_ok hp

/-! ## Refusing -/

/-- Wording a value always comes to a text and leaves the state as it is. -/
def Words (describe : Value φ → EStateM (Halt φ) σ String) : Prop :=
  ∀ v w, ∃ text, describe v w = .ok text w

/-- Matches nothing where `p` does not match. -/
def refuse (p : Behaviour (EStateM (Halt φ) σ) φ)
    (describe : Value φ → EStateM (Halt φ) σ String) : Behaviour (EStateM (Halt φ) σ) φ :=
  except (leaf (Leaf.succeed .null)) p describe

variable {describe : Value φ → EStateM (Halt φ) σ String}

/-- What matches is refused where it starts. -/
theorem refuse_of_matched (hd : Words describe) (hp : p s i env w = .ok r w₁)
    (hr : r.status = true) :
    ∃ label, refuse p describe s i env w = .ok (.failure i label) w₁ := by
  obtain ⟨text, htext⟩ := hd r.value w₁
  exact ⟨_, (bind_of_ok hp).trans ((congrFun (ite_of_matched hr) w₁).trans (bind_of_ok htext))⟩

theorem refuse_of_failed (hp : p s i env w = .ok r w₁) (hr : r.status = false) :
    refuse p describe s i env w = .ok (.success i .null) w₁ :=
  (bind_of_ok hp).trans (congrFun (ite_of_failed hr) w₁)

theorem refuse_of_error {halt : Halt φ} (hp : p s i env w = .error halt w₁) :
    refuse p describe s i env w = .error halt w₁ := bind_of_error hp

/-- Refusing turns a decision around. -/
theorem status_refuse (hd : Words describe) (p : Behaviour (EStateM (Halt φ) σ) φ) (s : Input)
    (i : Nat) (env : Value φ) :
    Result.status <$> refuse p describe s i env = (fun r => !r.status) <$> p s i env := by
  funext w
  rw [map_eq_pure_bind, map_eq_pure_bind]
  cases hp : p s i env w with
  | error halt w₁ => rw [bind_of_error hp, bind_of_error (refuse_of_error hp)]
  | ok r w₁ =>
    cases hr : r.status with
    | false =>
      rw [bind_of_ok hp, bind_of_ok (refuse_of_failed hp hr), hr]
      rfl
    | true =>
      obtain ⟨label, hrefused⟩ := refuse_of_matched hd hp hr
      rw [bind_of_ok hp, bind_of_ok hrefused, hr]
      rfl

/-- Refusing twice decides what looking ahead does. -/
theorem status_refuse_refuse (hd : Words describe) (p : Behaviour (EStateM (Halt φ) σ) φ)
    (s : Input) (i : Nat) (env : Value φ) :
    Result.status <$> refuse (refuse p describe) describe s i env =
      Result.status <$> lookAhead p s i env :=
  calc Result.status <$> refuse (refuse p describe) describe s i env
      = (!·) <$> Result.status <$> refuse p describe s i env := by
        rw [status_refuse hd, Functor.map_map]
    _ = Result.status <$> p s i env := by
        rw [status_refuse hd, Functor.map_map]
        simp only [Bool.not_not]
    _ = Result.status <$> lookAhead p s i env := by
        rw [lookAhead_apply, Functor.map_map]
        simp only [Result.status_back]

/-! ## In front of another parser -/

/-- A lookahead in front of the parser, where it matches both times. -/
theorem seq_lookAhead_of_matched (hp : p s i env w = .ok r w₁) (hr : r.status = true)
    (hagain : p s i env w₁ = .ok r' w₂) (hr' : r'.status = true) :
    ∃ both, seq [lookAhead p, p] s i env w = .ok both w₂ ∧ both.status = true ∧
      both.index = r'.index ∧ both.value = .list [r.value, r'.value] := by
  have hahead := lookAhead_of_ok hp
  rw [Result.back_of_matched hr] at hahead
  exact ⟨_, seq_of_matched hahead hr hagain hr', rfl, rfl, rfl⟩

theorem seq_lookAhead_of_failed (hp : p s i env w = .ok r w₁) (hr : r.status = false) :
    seq [lookAhead p, p] s i env w = .ok r w₁ := by
  have hahead := lookAhead_of_ok hp
  rw [Result.back_of_failed hr] at hahead
  exact seq_of_first_failed hahead hr

/-- What is excepted may as well be refused in front: the matches are the same. -/
theorem taken_except (p q : Behaviour (EStateM (Halt φ) σ) φ)
    (describe : Value φ → EStateM (Halt φ) σ String) (s : Input) (i : Nat) (env : Value φ) :
    Result.taken <$> except q p describe s i env =
      (fun r => r.taken.map (Prod.map id Value.second)) <$>
        seq [refuse p describe, q] s i env := by
  simp only [except, refuse, seq, seqFrom, map_eq_pure_bind, bind_assoc]
  refine bind_congr fun unwanted => ?_
  cases unwanted.status with
  | true =>
    simp only [if_true, bind_assoc]
    refine bind_congr fun text => ?_
    rfl
  | false =>
    simp only [Bool.false_eq_true, if_false, leaf, Leaf.succeed, Result.success, pure_bind, if_true,
      bind_assoc, Result.mergeWith_none]
    refine bind_congr fun r => ?_
    cases hr : r.status with
    | true => simp [Result.taken, hr, Value.second]
    | false => simp [Result.taken, hr, Result.failure]

end Behaviour

/-! ## Without effects -/

namespace Rules

variable [FunctionText φ] {R : Rules φ} {s : Input} {i : Nat} {env : Value φ} {p : Grammar φ}
  {o : Option (Nat × Value φ)}

/-- A lookahead answers only where its part has answered. -/
theorem Answers.of_lookAhead (h : R.Answers s env (.lookAhead p) i o) :
    ∃ o', R.Answers s env p i o' := by
  obtain ⟨b, r, hr, -⟩ := h.exists
  obtain ⟨r', hr', -⟩ := except_bind_eq_ok hr
  exact ⟨_, answers_of_denote hr'⟩

/-- A lookahead in front of a part that is run once more gives its value twice. -/
theorem answers_seq_lookAhead_iff : R.Answers s env (.seq [.lookAhead p, p]) i o ↔
    ∃ o', R.Answers s env p i o' ∧ o = o'.map fun x => (x.1, .list [x.2, x.2]) := by
  have hboth : ∀ {o'}, R.Answers s env p i o' →
      R.Answers s env (.seq [.lookAhead p, p]) i (o'.map fun x => (x.1, .list [x.2, x.2])) := by
    intro o' hp
    have hahead := answers_lookAhead hp
    cases o' with
    | none => exact answers_seq (answersSeq_cons_none hahead)
    | some x => exact answers_seq (answersSeq_cons hahead (answersSeq_cons hp answersSeq_nil))
  constructor
  · intro h
    obtain ⟨_, hahead⟩ := h.of_seq_first
    obtain ⟨o', hp⟩ := hahead.of_lookAhead
    exact ⟨o', hp, h.unique (hboth hp)⟩
  · rintro ⟨o', hp, rfl⟩
    exact hboth hp

/-- One object stands for a part, and another one for the part behind a lookahead to it. -/
def Doubles (R : Rules φ) (B : Bond φ) (part both : Ref) : Prop :=
  ∃ part' both', B.objects part = some part' ∧ B.objects both = some both' ∧
    R.rule both' = .seq [.lookAhead (.object part'), .object part']

end Rules

/-- The same match, with its value twice, if objects and functions in it are taken for what they
stand for. -/
structure Result.Doubled (B : Bond φ) (r both : Result (Value φ)) : Prop where
  status_eq : both.status = r.status
  index_eq : r.status = true → both.index = r.index
  value_like : r.status = true → ∃ v, (∃ B', B ≤ B' ∧ Value.Like B' r.value v) ∧
    ∃ B', B ≤ B' ∧ Value.Like B' both.value (.list [v, v])

namespace Machine

open Behaviour

variable [FunctionText φ]

/-- Where functions have no effect that shows, a parser behind a lookahead to it comes to a result
where the parser does, and to the same match with its value twice. -/
theorem comesTo_doubled {apply : Tools φ → φ → List (Value φ) → Machine φ (Value φ)} {R : Rules φ}
    {B : Bond φ} {w : World φ}
    (hpure : ∀ budget, PureFunctions apply budget R) (hw : Faithful R B w)
    {part both : Ref} (h : R.Doubles B part both) {env env' : Value φ}
    (henv : Value.Like B env env') (s : Input) (i : Nat) :
    ((∃ x w', ComesTo apply both s i env w (.ok x) w') ↔
      ∃ r w', ComesTo apply part s i env w (.ok r) w') ∧
    ∀ r w₁ x w₂, ComesTo apply part s i env w (.ok r) w₁ →
      ComesTo apply both s i env w (.ok x) w₂ → r.Doubled B x := by
  obtain ⟨part', both', hpart, hboth, hrule⟩ := h
  have hiff : ∀ {o}, R.Answers s env' (.object both') i o ↔
      ∃ o', R.Answers s env' (.object part') i o' ∧ o = o'.map fun x => (x.1, .list [x.2, x.2]) :=
    fun {o} => by rw [Rules.answers_object_iff, hrule, Rules.answers_seq_lookAhead_iff]
  refine ⟨⟨?_, ?_⟩, fun r w₁ x w₂ hr hx => ?_⟩
  · rintro ⟨x, w', hx⟩
    obtain ⟨_, ho, -⟩ := hx.answered hpure hw hboth henv
    obtain ⟨o, ho, -⟩ := hiff.1 ho
    obtain ⟨r, w', hr, -⟩ := exists_comesTo ho hpure hw hpart henv
    exact ⟨r, w', hr⟩
  · rintro ⟨r, w', hr⟩
    obtain ⟨o, ho, -⟩ := hr.answered hpure hw hpart henv
    obtain ⟨x, w', hx, -⟩ := exists_comesTo (hiff.2 ⟨o, ho, rfl⟩) hpure hw hboth henv
    exact ⟨x, w', hx⟩
  · obtain ⟨o, ho, hfirst⟩ := hr.answered hpure hw hpart henv
    obtain ⟨_, ⟨⟩, hsecond⟩ := hx.answered_of_answers (hiff.2 ⟨o, ho, rfl⟩) hpure hw hboth henv
    cases o with
    | none =>
      have hfailed := hfirst.failed
      exact ⟨hsecond.failed.trans hfailed.symm, fun hs => absurd hs (by simp [hfailed]),
        fun hs => absurd hs (by simp [hfailed])⟩
    | some o =>
      obtain ⟨hs, hi, hv⟩ := hfirst.matched
      obtain ⟨hs', hi', hv'⟩ := hsecond.matched
      exact ⟨hs'.trans hs.symm, fun _ => hi'.trans hi.symm, fun _ => ⟨o.2, hv, hv'⟩⟩

theorem words_describe : Words (describe (φ := φ)) := fun v w => ⟨v.describe w.names, rfl⟩

/-- The laws of lookahead.  Looking ahead is the parser's own result, a match of which goes on where
it started.  Refusing a parser matches nothing and reports nothing where it fails, and fails where
it started if it matches; refusing twice decides what looking ahead does.  A lookahead in front of
the parser itself is its failure where it fails, and where it matches both times it is the second
match with both values; where functions have no effect that shows, that is the same match with its
value twice.  What is excepted from a parser may as well be refused in front of it: the matches are
the same, with its value as the second one. -/
theorem lookahead_laws (apply : Tools φ → φ → List (Value φ) → Machine φ (Value φ)) (t : Tools φ)
    (p q : Grammar φ) (s : Input) (i : Nat) (env : Value φ) :
    let run := fun g : Grammar φ => g.denote (host t) s i env
    run (.lookAhead p) = (fun r => if r.status then { r with index := i } else r) <$> run p ∧
    (∀ w r w₁, run p w = .ok r w₁ →
      (r.status = false → run (.notFollowedBy p) w = .ok ⟨⟨-1, []⟩, true, i, .null⟩ w₁) ∧
      (r.status = true →
        ∃ label, run (.notFollowedBy p) w = .ok ⟨⟨i, [label]⟩, false, i, .null⟩ w₁)) ∧
    (∀ w halt w₁, run p w = .error halt w₁ → run (.notFollowedBy p) w = .error halt w₁) ∧
    Result.status <$> run (.notFollowedBy (.notFollowedBy p)) =
      Result.status <$> run (.lookAhead p) ∧
    (∀ w r w₁, run p w = .ok r w₁ →
      (r.status = false → run (.seq [.lookAhead p, p]) w = .ok r w₁) ∧
      ∀ r' w₂, r.status = true → run p w₁ = .ok r' w₂ → r'.status = true →
        ∃ both, run (.seq [.lookAhead p, p]) w = .ok both w₂ ∧ both.status = true ∧
          both.index = r'.index ∧ both.value = .list [r.value, r'.value]) ∧
    (∀ R B w, (∀ budget, PureFunctions apply budget R) → Faithful R B w →
      ∀ part both env', R.Doubles B part both → Value.Like B env env' →
        ((∃ x w', ComesTo apply both s i env w (.ok x) w') ↔
          ∃ r w', ComesTo apply part s i env w (.ok r) w') ∧
        ∀ r w₁ x w₂, ComesTo apply part s i env w (.ok r) w₁ →
          ComesTo apply both s i env w (.ok x) w₂ → r.Doubled B x) ∧
    Result.taken <$> run (.except q p) =
      (fun r => r.taken.map (Prod.map id Value.second)) <$>
        run (.seq [.notFollowedBy p, q]) := by
  intro run
  have hseq : run (.seq [.lookAhead p, p]) =
      seq [lookAhead (p.denote (host t)), p.denote (host t)] s i env := by
    simp only [run, Grammar.denote_seq]
    rfl
  refine ⟨lookAhead_apply _ s i env, fun w r w₁ hp => ⟨?_, ?_⟩, fun w halt w₁ => refuse_of_error,
    status_refuse_refuse words_describe _ s i env, fun w r w₁ hp => ⟨?_, ?_⟩,
    fun R B w hpure hw part both env' h henv => comesTo_doubled hpure hw h henv s i, ?_⟩
  · exact refuse_of_failed hp
  · exact refuse_of_matched words_describe hp
  · rw [hseq]
    exact seq_lookAhead_of_failed hp
  · intro r' w₂ hr hagain hr'
    rw [hseq]
    exact seq_lookAhead_of_matched hp hr hagain hr'
  · rw [show run (.seq [.notFollowedBy p, q]) =
      seq [refuse (p.denote (host t)) describe, q.denote (host t)] s i env by
        simp only [run, Grammar.denote_seq]; rfl]
    exact taken_except _ _ _ s i env

section

open Script (Function applyFunction)

/-- A letter and perhaps two more. -/
def letterThenPair : Grammar Function := .seq [.string "a", .optional (.string "bc")]

/-- That as an object, and one that matches it behind a lookahead. -/
def aheadOfItself : World Function :=
  { World.initial with
    cells := World.initial.cells ++ #[⟨letterThenPair, .null⟩,
      ⟨.seq [.lookAhead (.object 5), .object 5], .null⟩] }

theorem faithful_aheadOfItself :
    Faithful (.ofWorld aheadOfItself) (.ofObjects Function 7) aheadOfItself := by
  refine faithful_ofWorld (by decide) (by decide) rfl fun r hr => ?_
  match r, hr with
  | 0, _ => exact .offset
  | 1, _ => exact .position
  | 2, _ => exact .eof
  | 3, _ => exact .anyChar
  | 4, _ => exact .rest
  | 5, _ =>
    have hpair : Grammar.Like (Bond.likeness Function) (.ofObjects Function 7)
        (.optional (.string "bc")) (.optional (.string "bc")) :=
      .alt (.mapEnv (.string "bc") (.constant .null)) (.cons (.succeed .null) .nil)
    exact .seq (.cons (.string "a") (.cons hpair .nil))
  | 6, _ => exact .seq (.cons (.lookAhead (.object rfl)) (.cons (.object rfl) .nil))

/-- A match that got further than where it ends: the pair was given up at its second letter.  A
lookahead in front of it changes nothing about it. -/
theorem lookahead_laws_givenUp :
    let value := Value.list [.text "a", .null]
    (letterThenPair.denote (host (tools (applyFunction []) 0 0)) "abd".toList 0 .null .initial =
        .ok ⟨⟨2, ["'bc'"]⟩, true, 1, value⟩ .initial ∧
      ∃ both, (Grammar.seq [.lookAhead letterThenPair, letterThenPair]).denote
          (host (tools (applyFunction []) 0 0)) "abd".toList 0 .null .initial = .ok both .initial ∧
        both.status = true ∧ both.index = 1 ∧ both.value = .list [value, value]) ∧
    ∃ both w, ComesTo (applyFunction []) 6 "abd".toList 0 .null aheadOfItself (.ok both) w ∧
      both.status = true ∧ both.index = 1 ∧ both.value = .list [value, value] := by
  intro value
  have hrun : letterThenPair.denote (host (tools (applyFunction []) 0 0)) "abd".toList 0 .null
      .initial = .ok ⟨⟨2, ["'bc'"]⟩, true, 1, value⟩ .initial := rfl
  have hcomes : ComesTo (applyFunction []) 5 "abd".toList 0 .null aheadOfItself
      (.ok ⟨⟨2, ["'bc'"]⟩, true, 1, value⟩) aheadOfItself := ⟨0, 1, rfl⟩
  obtain ⟨-, -, -, -, hahead, hpure, -⟩ := lookahead_laws (applyFunction [])
    (tools (applyFunction []) 0 0) letterThenPair .anyChar "abd".toList 0 .null
  refine ⟨⟨hrun, (hahead .initial _ .initial hrun).2 _ .initial rfl hrun rfl⟩, ?_⟩
  obtain ⟨hiff, hdoubled⟩ := hpure _ _ _ (pureFunctions_ofWorld (applyFunction []) aheadOfItself)
    faithful_aheadOfItself 5 6 .null ⟨5, 6, rfl, rfl, rfl⟩ .null
  obtain ⟨both, w, hboth⟩ := hiff.2 ⟨_, _, hcomes⟩
  obtain ⟨hs, hi, hv⟩ := hdoubled _ _ _ _ hcomes hboth
  obtain ⟨v, ⟨B, -, hfirst⟩, B', -, hlike⟩ := hv rfl
  have hplain : value.Plain := ⟨trivial, trivial, trivial⟩
  obtain rfl := hfirst.eq_of_plain hplain
  have hvalues := hlike.eq_of_plain (hlike.plain_iff.2 ⟨hplain, hplain, trivial⟩)
  exact ⟨both, w, hboth, hs, hi rfl, hvalues⟩

end

end Machine

end Furthest
