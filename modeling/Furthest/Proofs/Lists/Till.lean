import Furthest.Proofs.Deferred.OwnRules
import Furthest.Proofs.Lists.Answers

/-!
# Up to the first stop

`Grammar.manyTill p stop` matches `p` as long as `stop` does not match, and then `stop`.  The stop is
tried before each match of `p` and once more at the end, and the repetition ends for one of two
reasons: `stop` matches, or `p` fails.  `Rules.Leads` follows the matches of `p` at offsets where
`stop` fails, and what the whole matches is told by where they lead (`Rules.answers_manyTill_iff`).
If each match of `p` consumes something, the first offset that a way leads to where `stop` matches is
the only one (`Rules.Reaches.unique`), and a run matches exactly where there is one
(`Machine.run_manyTill`).
-/

namespace Furthest

variable {φ : Type} [FunctionText φ]

namespace Rules

section

variable (R : Rules φ) (s : Input) (env : Value φ) (p stop : Grammar φ)

/-- `stop` fails and `p` matches more than nothing, one time after another: where each match of `p`
began and its value, and where the last one ended. -/
inductive Leads : Nat → List (Nat × Value φ) → Nat → Prop where
  | nil (i : Nat) : Leads i [] i
  | cons {i j k : Nat} {v : Value φ} {steps : List (Nat × Value φ)} :
    R.Answers s env stop i none → R.Answers s env p i (some (j, v)) → i < j → Leads j steps k →
    Leads i ((i, v) :: steps) k

/-- Matches of `p` at offsets where `stop` fails lead to an offset where `stop` matches, up to `j`. -/
structure Reaches (i : Nat) (steps : List (Nat × Value φ)) (k j : Nat) : Prop where
  leads : R.Leads s env p stop i steps k
  stops : ∃ u, R.Answers s env stop k (some (j, u))

/-- A grammar answers at every offset of the text, and what it matches ends inside the text. -/
def AnswersThroughout (g : Grammar φ) : Prop :=
  ∀ i ≤ s.length, ∃ o, R.Answers s env g i o ∧ ∀ x ∈ o, x.1 ≤ s.length

end

variable {R : Rules φ} {s : Input} {env : Value φ} {p stop : Grammar φ} {i j j' k k' : Nat}
  {o : Option (Nat × Value φ)} {steps steps' : List (Nat × Value φ)}

/-- Where `stop` fails, `p` is repeated as itself. -/
theorem leads_iff_repeats :
    R.Leads s env p stop i steps k ↔ R.Repeats s env (.except p stop) i steps k := by
  constructor
  · intro h
    induction h with
    | nil i => exact .nil i
    | cons hstop hp hlt _ ih => exact .cons (answers_except hstop hp) hlt ih
  · intro h
    induction h with
    | nil i => exact .nil i
    | cons hv hlt _ ih =>
      rcases answers_except_iff.1 hv with ⟨-, hnone⟩ | ⟨hstop, hp⟩
      · cases hnone
      · exact .cons hstop hp hlt ih

theorem consumes_except (hp : R.Consumes s env p) (stop : Grammar φ) :
    R.Consumes s env (.except p stop) := by
  intro i j v h
  rcases answers_except_iff.1 h with ⟨-, hnone⟩ | ⟨-, hv⟩
  · cases hnone
  · exact hp hv

/-- There is one way to a stop at most. -/
theorem Reaches.unique (h : R.Reaches s env p stop i steps k j)
    (h' : R.Reaches s env p stop i steps' k' j') : steps' = steps ∧ k' = k ∧ j' = j := by
  obtain ⟨hleads, u, hu⟩ := h
  obtain ⟨hleads', u', hu'⟩ := h'
  obtain ⟨rfl, rfl⟩ := (leads_iff_repeats.1 hleads).unique (answers_except_none p hu)
    (leads_iff_repeats.1 hleads') (answers_except_none p hu')
  cases hu.unique hu'
  exact ⟨rfl, rfl, rfl⟩

/-- Matches of `p` lead to where `stop` matches, or to where neither does. -/
theorem answers_manyTill_iff (hp : R.Consumes s env p) :
    R.Answers s env (.manyTill p stop) i o ↔
      ∃ steps k, R.Leads s env p stop i steps k ∧
        ((∃ j u, R.Answers s env stop k (some (j, u)) ∧ o = some (j, .list (steps.map (·.2)))) ∨
          R.Answers s env stop k none ∧ R.Answers s env p k none ∧ o = none) := by
  have hmany := fun {o} => answers_many_iff (i := i) (o := o) (consumes_except hp stop)
  rw [Grammar.manyTill, answers_skip_iff]
  constructor
  · rintro (⟨hnone, -⟩ | ⟨k, u, hsome, o', hstop, rfl⟩)
    · obtain ⟨_, _, _, _, habsurd⟩ := hmany.1 hnone
      cases habsurd
    · obtain ⟨steps, _, hsteps, hend, ⟨⟩⟩ := hmany.1 hsome
      refine ⟨steps, k, leads_iff_repeats.2 hsteps, ?_⟩
      cases o' with
      | some x => exact .inl ⟨x.1, x.2, hstop, rfl⟩
      | none =>
        rcases answers_except_iff.1 hend with ⟨⟨x, hx⟩, -⟩ | ⟨-, hfails⟩
        · cases hx.unique hstop
        · exact .inr ⟨hstop, hfails, rfl⟩
  · rintro ⟨steps, k, hleads, ⟨j, u, hstop, rfl⟩ | ⟨hstop, hfails, rfl⟩⟩
    · have hend := answers_except_none p hstop
      exact .inr ⟨k, _, (leads_iff_repeats.1 hleads).answers_many hend, _, hstop, rfl⟩
    · have hend := answers_except hstop hfails
      exact .inr ⟨k, _, (leads_iff_repeats.1 hleads).answers_many hend, _, hstop, rfl⟩

theorem Reaches.answers (hp : R.Consumes s env p) (h : R.Reaches s env p stop i steps k j) :
    R.Answers s env (.manyTill p stop) i (some (j, .list (steps.map (·.2)))) := by
  obtain ⟨hleads, u, hu⟩ := h
  exact (answers_manyTill_iff hp).2 ⟨steps, k, hleads, .inl ⟨j, u, hu, rfl⟩⟩

/-- As matches consume something, they lead on until `stop` matches or `p` fails, by induction on the
text that is left. -/
theorem exists_leads (hp : R.Consumes s env p) (hpart : R.AnswersThroughout s env p)
    (hstop : R.AnswersThroughout s env stop) (hi : i ≤ s.length) :
    ∃ steps k, R.Leads s env p stop i steps k ∧
      ((∃ j u, R.Answers s env stop k (some (j, u))) ∨
        R.Answers s env stop k none ∧ R.Answers s env p k none) := by
  induction hn : s.length - i using Nat.strong_induction_on generalizing i with
  | _ n ih =>
    obtain ⟨_ | ⟨j, u⟩, hat, -⟩ := hstop i hi
    · obtain ⟨_ | ⟨j, v⟩, hv, hinside⟩ := hpart i hi
      · exact ⟨[], i, .nil i, .inr ⟨hat, hv⟩⟩
      · have hlt := hp hv
        have hj : j ≤ s.length := hinside _ rfl
        obtain ⟨steps, k, hleads, hend⟩ := ih (s.length - j) (by omega) hj rfl
        exact ⟨_, k, .cons hat hv hlt hleads, hend⟩
    · exact ⟨[], i, .nil i, .inl ⟨j, u, hat⟩⟩

theorem exists_answers_manyTill (hp : R.Consumes s env p) (hpart : R.AnswersThroughout s env p)
    (hstop : R.AnswersThroughout s env stop) (hi : i ≤ s.length) :
    ∃ o, R.Answers s env (.manyTill p stop) i o := by
  obtain ⟨steps, k, hleads, ⟨j, u, hu⟩ | ⟨hat, hfails⟩⟩ := exists_leads hp hpart hstop hi
  · exact ⟨_, (answers_manyTill_iff hp).2 ⟨steps, k, hleads, .inl ⟨j, u, hu, rfl⟩⟩⟩
  · exact ⟨_, (answers_manyTill_iff hp).2 ⟨steps, k, hleads, .inr ⟨hat, hfails, rfl⟩⟩⟩

end Rules

namespace Machine

variable {apply : Tools φ → φ → List (Value φ) → Machine φ (Value φ)} {R : Rules φ}
  {B : Bond φ} {w : World φ}

/-- A run of `p` up to a stop matches exactly where matches of `p`, at offsets where `stop` fails, lead
to one where `stop` matches.  There is one such way at most; the value lists those of `p` on it, and
the match ends where that of `stop` does.  Where there is none, a run that comes to a result comes to
a failure, and it does so if `p` and `stop` answer at all offsets. -/
theorem run_manyTill (hpure : ∀ budget, PureFunctions apply budget R)
    (hw : Faithful R B w) {r r' p stop : Ref} (hr : B.objects r = some r')
    (hrule : R.rule r' = .manyTill (.object p) (.object stop)) {env env' : Value φ}
    (henv : Value.Like B env env') (s : Input) (i : Nat)
    (hp : R.Consumes s env' (.object p)) :
    ((∃ result w', ComesTo apply r s i env w (.ok result) w' ∧ result.status = true) ↔
      ∃ steps k j, R.Reaches s env' (.object p) (.object stop) i steps k j) ∧
    (∀ steps k j, R.Reaches s env' (.object p) (.object stop) i steps k j →
      (∀ steps' k' j', R.Reaches s env' (.object p) (.object stop) i steps' k' j' →
        steps' = steps ∧ k' = k ∧ j' = j) ∧
      ∀ o w', ComesTo apply r s i env w o w' → ∃ result, o = .ok result ∧ result.status = true ∧
        result.index = j ∧ ∃ B', B ≤ B' ∧ Value.Like B' result.value (.list (steps.map (·.2)))) ∧
    ((¬∃ steps k j, R.Reaches s env' (.object p) (.object stop) i steps k j) →
      (∀ result w', ComesTo apply r s i env w (.ok result) w' → result.status = false) ∧
      (R.AnswersThroughout s env' (.object p) → R.AnswersThroughout s env' (.object stop) →
        i ≤ s.length → ∃ result w', ComesTo apply r s i env w (.ok result) w')) := by
  -- what the rules answer for the object
  have hobject : ∀ {a}, R.Answers s env' (.object r') i a ↔
      R.Answers s env' (.manyTill (.object p) (.object stop)) i a := fun {a} => by
    rw [Rules.answers_object_iff, hrule]
  have hreach : ∀ {steps k j}, R.Reaches s env' (.object p) (.object stop) i steps k j →
      R.Answers s env' (.object r') i (some (j, .list (steps.map (·.2)))) :=
    fun h => hobject.2 (h.answers hp)
  have hmatch : ∀ {result w'}, ComesTo apply r s i env w (.ok result) w' → result.status = true →
      ∃ steps k j, R.Reaches s env' (.object p) (.object stop) i steps k j := by
    intro result w' h hs
    obtain ⟨a, ha, hanswered⟩ := h.answered hpure hw hr henv
    obtain ⟨steps, k, hleads, ⟨j, u, hstop, -⟩ | ⟨-, -, rfl⟩⟩ :=
      (Rules.answers_manyTill_iff hp).1 (hobject.1 ha)
    · exact ⟨steps, k, j, hleads, u, hstop⟩
    · cases hs.symm.trans hanswered.failed
  refine ⟨⟨?_, ?_⟩, fun steps k j h => ⟨fun _ _ _ h' => h.unique h', fun o w' ho => ?_⟩,
    fun hno => ⟨fun result w' h => ?_, fun hpart hstop hi => ?_⟩⟩
  · rintro ⟨result, w', h, hs⟩
    exact hmatch h hs
  · rintro ⟨steps, k, j, h⟩
    obtain ⟨result, w', hcomes, hanswered⟩ := exists_comesTo (hreach h) hpure hw hr henv
    exact ⟨result, w', hcomes, hanswered.matched.1⟩
  · obtain ⟨result, rfl, hanswered⟩ := ho.answered_of_answers (hreach h) hpure hw hr henv
    exact ⟨result, rfl, hanswered.matched⟩
  · exact Bool.eq_false_iff.2 fun hs => hno (hmatch h hs)
  · obtain ⟨a, ha⟩ := Rules.exists_answers_manyTill hp hpart hstop hi
    obtain ⟨result, w', hcomes, -⟩ := exists_comesTo (hobject.2 ha) hpure hw hr henv
    exact ⟨result, w', hcomes⟩

/-! ## A comment -/

section

open Script (Function applyFunction)

/-- Any characters up to `-->`. -/
def comments : World Function :=
  { World.initial with
    cells := World.initial.cells ++ #[⟨.string "-->", .null⟩,
      ⟨.manyTill (.object Ref.anyChar) (.object 5), .null⟩] }

theorem faithful_comments :
    Faithful (.ofWorld comments) (.ofObjects Function 7) comments := by
  refine faithful_ofWorld (by decide) (by decide) rfl fun r hr => ?_
  match r, hr with
  | 0, _ => exact .offset
  | 1, _ => exact .position
  | 2, _ => exact .eof
  | 3, _ => exact .anyChar
  | 4, _ => exact .rest
  | 5, _ => exact .string "-->"
  | 6, _ =>
    have hpart : Grammar.Like (Bond.likeness Function) (.ofObjects Function 7)
        (.except (.object Ref.anyChar) (.object 5)) (.except (.object Ref.anyChar) (.object 5)) :=
      .except (.object rfl) (.object rfl)
    exact .mapEnv (.seq (.cons (.times _ _ hpart) (.cons (.object rfl) .nil))) (.item 0)

variable {s : Input} {i : Nat} {env : Value Function}

theorem answers_anyChar {o : Option (Nat × Value Function)}
    (ho : (Leaf.anyChar s i : Result (Value Function)).erased = o) :
    (Rules.ofWorld comments).Answers s env (.object Ref.anyChar) i o :=
  Rules.answers_object (Rules.answers_leaf (f := Leaf.anyChar) (fun _ => rfl) ho)

theorem answers_close {o : Option (Nat × Value Function)}
    (ho : (Leaf.string "-->" s i : Result (Value Function)).erased = o) :
    (Rules.ofWorld comments).Answers s env (.object 5) i o :=
  Rules.answers_object (Rules.answers_leaf (f := Leaf.string "-->") (fun _ => rfl) ho)

theorem consumes_anyChar (s : Input) (env : Value Function) :
    (Rules.ofWorld comments).Consumes s env (.object Ref.anyChar) := by
  intro i j v h
  have hleaf := (answers_anyChar rfl).unique h
  unfold Leaf.anyChar at hleaf
  split at hleaf <;> cases hleaf
  exact Nat.lt_succ_self i

/-- In `a-->` the comment is one character long. -/
theorem reaches_close : (Rules.ofWorld comments).Reaches "a-->".toList .null (.object Ref.anyChar)
    (.object 5) 0 [(0, .text "a")] 1 4 :=
  ⟨.cons (answers_close rfl) (answers_anyChar rfl) Nat.zero_lt_one (.nil 1),
    .text "-->", answers_close rfl⟩

/-- A run on `a-->` takes the comment and what closes it. -/
theorem run_manyTill_comment : ∃ result w',
    ComesTo (applyFunction []) 6 "a-->".toList 0 .null comments (.ok result) w' ∧
    result.status = true ∧ result.index = 4 ∧ result.value = .list [.text "a"] := by
  have hobject : (Bond.ofObjects Function 7).objects 6 = some 6 := rfl
  obtain ⟨hiff, hvalue, -⟩ := run_manyTill (pureFunctions_ofWorld (applyFunction []) comments)
    faithful_comments hobject rfl .null "a-->".toList 0 (consumes_anyChar _ _)
  obtain ⟨result, w', hcomes, hs⟩ := hiff.2 ⟨_, _, _, reaches_close⟩
  obtain ⟨_, ⟨⟩, -, hj, B', -, hlike⟩ := (hvalue _ _ _ reaches_close).2 _ _ hcomes
  have hplain : (Value.list [.text "a"] : Value Function).Plain := ⟨trivial, trivial⟩
  exact ⟨result, w', hcomes, hs, hj, hlike.eq_of_plain (hlike.plain_iff.2 hplain)⟩

end

end Machine

end Furthest
