import Furthest.Proofs.Deferred.OwnRules
import Furthest.Proofs.Lists.Answers
import Furthest.Proofs.Repetition.Recursive

/-!
# Separators between items and after them

A list with separators between its items (`Grammar.sepBy`) is an item and then a repetition of
separator and item; one with a separator after each item (`Grammar.endBy`) is a repetition of item
and separator; and one that leaves it open whether the last item has a separator (`Grammar.sepEndBy`)
is the first of these, and then a separator if there is one.  Where the first repetition stops before
a separator, the other one has the same items and stops after that separator (`Rules.Repeats.shift`,
`Rules.Repeats.unshift`).

So the last form matches a whole text where one of the others does, with the same items, and nowhere
else (`Rules.matchesWhole_sepEndBy_iff`), except for a text that is one separator and nothing more:
where there is no item the separator is taken all the same.
-/

namespace Furthest

variable {φ : Type} [FunctionText φ]

namespace Rules

variable {R : Rules φ} {s : Input} {env : Value φ} {p sep : Grammar φ} {i j k m : Nat} {u v : Value φ}
  {o : Option (Nat × Value φ)} {steps : List (Nat × Value φ)}

/-- Whatever a grammar matches from inside the text ends inside the text. -/
def StaysInside (R : Rules φ) (s : Input) (env : Value φ) (g : Grammar φ) : Prop :=
  ∀ ⦃i j : Nat⦄ ⦃v : Value φ⦄, i ≤ s.length → R.Answers s env g i (some (j, v)) → j ≤ s.length

/-! ## An item and a separator -/

theorem answers_skip_some_iff : R.Answers s env (.skip p sep) i (some (k, v)) ↔
    ∃ j, R.Answers s env p i (some (j, v)) ∧ ∃ u, R.Answers s env sep j (some (k, u)) := by
  rw [answers_skip_iff]
  constructor
  · rintro (⟨-, hnone⟩ | ⟨j, v', hp, o', hsep, ho⟩)
    · cases hnone
    · cases o' with
      | none => cases ho
      | some x =>
        cases ho
        exact ⟨j, hp, x.2, hsep⟩
  · rintro ⟨j, hp, u, hsep⟩
    exact .inr ⟨j, v, hp, _, hsep, rfl⟩

theorem answers_skip_none_iff : R.Answers s env (.skip p sep) i none ↔
    R.Answers s env p i none ∨
      ∃ j u, R.Answers s env p i (some (j, u)) ∧ R.Answers s env sep j none := by
  rw [answers_skip_iff]
  simp

theorem answers_skipLeft_some_iff : R.Answers s env (.skipLeft sep p) i (some (k, v)) ↔
    ∃ j u, R.Answers s env sep i (some (j, u)) ∧ R.Answers s env p j (some (k, v)) := by
  rw [answers_skipLeft_iff]
  simp

theorem answers_skipLeft_none_iff : R.Answers s env (.skipLeft sep p) i none ↔
    R.Answers s env sep i none ∨
      ∃ j u, R.Answers s env sep i (some (j, u)) ∧ R.Answers s env p j none := by
  rw [answers_skipLeft_iff]
  simp

theorem consumes_skip (hp : R.Consumes s env p) (hsep : R.Consumes s env sep) :
    R.Consumes s env (.skip p sep) := by
  intro i k v h
  obtain ⟨j, hv, u, hu⟩ := answers_skip_some_iff.1 h
  exact (hp hv).trans (hsep hu)

theorem consumes_skipLeft (hp : R.Consumes s env p) (hsep : R.Consumes s env sep) :
    R.Consumes s env (.skipLeft sep p) := by
  intro i k v h
  obtain ⟨j, u, hu, hv⟩ := answers_skipLeft_some_iff.1 h
  exact (hsep hu).trans (hp hv)

theorem staysInside_skip (hp : R.StaysInside s env p) (hsep : R.StaysInside s env sep) :
    R.StaysInside s env (.skip p sep) := by
  intro i k v hi h
  obtain ⟨j, hv, u, hu⟩ := answers_skip_some_iff.1 h
  exact hsep (hp hi hv) hu

theorem staysInside_skipLeft (hp : R.StaysInside s env p) (hsep : R.StaysInside s env sep) :
    R.StaysInside s env (.skipLeft sep p) := by
  intro i k v hi h
  obtain ⟨j, u, hu, hv⟩ := answers_skipLeft_some_iff.1 h
  exact hp (hsep hi hu) hv

theorem Repeats.le_length {g : Grammar φ} (hg : R.StaysInside s env g)
    (h : R.Repeats s env g i steps k) (hi : i ≤ s.length) : k ≤ s.length := by
  induction h with
  | nil => exact hi
  | cons hv _ _ ih => exact ih (hg hi hv)

/-! ## The two repetitions -/

/-- Items with separators between them and one more separator at the end are items with a separator
after each. -/
theorem Repeats.shift (hp : R.Consumes s env p) (hsep : R.Consumes s env sep)
    (h : R.Repeats s env (.skipLeft sep p) j steps k) (hv : R.Answers s env p i (some (j, v)))
    (hu : R.Answers s env sep k (some (m, u))) :
    ∃ steps', R.Repeats s env (.skip p sep) i steps' m ∧
      steps'.map (·.2) = v :: steps.map (·.2) := by
  induction h generalizing i v with
  | nil j =>
    have hpair := answers_skip_some_iff.2 ⟨j, hv, u, hu⟩
    exact ⟨_, .cons hpair ((hp hv).trans (hsep hu)) (.nil m), rfl⟩
  | cons hnext _ _ ih =>
    obtain ⟨a, u', hu', hv'⟩ := answers_skipLeft_some_iff.1 hnext
    obtain ⟨steps', hsteps', hvalues⟩ := ih hv' hu
    have hpair := answers_skip_some_iff.2 ⟨_, hv, u', hu'⟩
    refine ⟨_, .cons hpair ((hp hv).trans (hsep hu')) hsteps', ?_⟩
    rw [List.map_cons, hvalues, List.map_cons]

/-- Some items with a separator after each are items with separators between them and one more
separator at the end. -/
theorem Repeats.unshift (hp : R.Consumes s env p) (hsep : R.Consumes s env sep)
    (h : R.Repeats s env (.skip p sep) i steps m) (hne : steps ≠ []) :
    ∃ j v k u steps', R.Answers s env p i (some (j, v)) ∧
      R.Repeats s env (.skipLeft sep p) j steps' k ∧ R.Answers s env sep k (some (m, u)) ∧
      steps.map (·.2) = v :: steps'.map (·.2) := by
  induction h with
  | nil => exact absurd rfl hne
  | @cons i a m v steps hpair _ hrest ih =>
    obtain ⟨j, hv, u, hu⟩ := answers_skip_some_iff.1 hpair
    cases hrest with
    | nil => exact ⟨j, v, j, u, [], hv, .nil j, hu, rfl⟩
    | cons hpair' hlt' hrest' =>
      obtain ⟨j', v', k, u', steps', hv', hsteps', hu', hvalues⟩ := ih (List.cons_ne_nil _ _)
      have hnext := answers_skipLeft_some_iff.2 ⟨_, u, hu, hv'⟩
      refine ⟨j, v, k, u', _, hv, .cons hnext ((hsep hu).trans (hp hv')) hsteps', hu', ?_⟩
      rw [List.map_cons, hvalues, List.map_cons]

/-! ## The three lists -/

/-- The first item, and then the others. -/
theorem answers_sepBy1_iff (hp : R.Consumes s env p) (hsep : R.Consumes s env sep) :
    R.Answers s env (.sepBy1 p sep) i o ↔
      R.Answers s env p i none ∧ o = none ∨
      ∃ j v steps k, R.Answers s env p i (some (j, v)) ∧
        R.Repeats s env (.skipLeft sep p) j steps k ∧ R.Answers s env (.skipLeft sep p) k none ∧
        o = some (k, .list (v :: steps.map (·.2))) := by
  have hcons : ∀ u v : Value φ, R.Settles (fun h => Callback.cons.run h.call (.list [u, v]) env)
      (Value.consed (.list [u, v])) := fun u v => ⟨(0, 0), by cases v <;> rfl⟩
  have hmany := fun {i o} => answers_many_iff (i := i) (o := o) (consumes_skipLeft hp hsep)
  rw [Grammar.sepBy1, answers_pair_iff hcons]
  refine or_congr_right ⟨?_, ?_⟩
  · rintro ⟨j, v, hv, o', ho', rfl⟩
    obtain ⟨steps, k, hsteps, hend, rfl⟩ := hmany.1 ho'
    exact ⟨j, v, steps, k, hv, hsteps, hend, rfl⟩
  · rintro ⟨j, v, steps, k, hv, hsteps, hend, rfl⟩
    exact ⟨j, v, hv, _, hmany.2 ⟨steps, k, hsteps, hend, rfl⟩, rfl⟩

theorem answers_sepBy_iff (hp : R.Consumes s env p) (hsep : R.Consumes s env sep) :
    R.Answers s env (.sepBy p sep) i (some (k, v)) ↔
      R.Answers s env p i none ∧ k = i ∧ v = .list [] ∨
      ∃ j u steps, R.Answers s env p i (some (j, u)) ∧
        R.Repeats s env (.skipLeft sep p) j steps k ∧ R.Answers s env (.skipLeft sep p) k none ∧
        v = .list (u :: steps.map (·.2)) := by
  have hempty : R.Answers s env (.mapEnv (.succeed .null) (.constant (.list []))) i
      (some (i, .list [])) := answers_mapEnv (answers_succeed_iff.2 rfl) ⟨(0, 0), rfl⟩
  rw [Grammar.sepBy, answers_alt_iff, answers_sepBy1_iff hp hsep]
  constructor
  · rintro (⟨x, hx, ⟨⟩⟩ | ⟨hnone, hv⟩)
    · rcases (answers_sepBy1_iff hp hsep).1 hx with
        ⟨-, habsurd⟩ | ⟨j, u, steps, _, hu, hsteps, hend, ⟨⟩⟩
      · cases habsurd
      · exact .inr ⟨j, u, steps, hu, hsteps, hend, rfl⟩
    · rcases hnone with ⟨hnone, -⟩ | ⟨_, _, _, _, _, _, _, habsurd⟩
      · cases hv.unique hempty
        exact .inl ⟨hnone, rfl, rfl⟩
      · cases habsurd
  · rintro (⟨hnone, rfl, rfl⟩ | ⟨j, u, steps, hu, hsteps, hend, rfl⟩)
    · exact .inr ⟨.inl ⟨hnone, rfl⟩, hempty⟩
    · have hsome := (answers_sepBy1_iff hp hsep).2 (.inr ⟨j, u, steps, k, hu, hsteps, hend, rfl⟩)
      exact .inl ⟨_, hsome, rfl⟩

/-- A separator, or nothing. -/
theorem answers_optional_iff : R.Answers s env (.optional sep) k o ↔
    (∃ m u, R.Answers s env sep k (some (m, u)) ∧ o = some (m, .null)) ∨
      R.Answers s env sep k none ∧ o = some (k, .null) := by
  have hvoid : ∀ {x}, R.Answers s env (.void sep) k x ↔
      ∃ o', R.Answers s env sep k o' ∧ x = o'.map fun y => (y.1, .null) :=
    answers_mapEnv_iff (F := fun _ => .null) fun _ => ⟨(0, 0), rfl⟩
  rw [Grammar.optional, answers_option_iff]
  constructor
  · rintro (⟨x, hx, rfl⟩ | ⟨hx, rfl⟩)
    · obtain ⟨_ | ⟨m, u⟩, hsep, ⟨⟩⟩ := hvoid.1 hx
      exact .inl ⟨m, u, hsep, rfl⟩
    · obtain ⟨_ | _, hsep, ⟨⟩⟩ := hvoid.1 hx
      exact .inr ⟨hsep, rfl⟩
  · rintro (⟨m, u, hsep, rfl⟩ | ⟨hsep, rfl⟩)
    · exact .inl ⟨_, hvoid.2 ⟨_, hsep, rfl⟩, rfl⟩
    · exact .inr ⟨hvoid.2 ⟨_, hsep, rfl⟩, rfl⟩

/-- A list with separators between its items, and then a separator if there is one. -/
theorem answers_sepEndBy_iff : R.Answers s env (.sepEndBy p sep) i (some (m, v)) ↔
    ∃ k, R.Answers s env (.sepBy p sep) i (some (k, v)) ∧
      ((∃ u, R.Answers s env sep k (some (m, u))) ∨ R.Answers s env sep k none ∧ m = k) := by
  rw [Grammar.sepEndBy, answers_skip_some_iff]
  refine exists_congr fun k => and_congr_right fun _ => ⟨?_, ?_⟩
  · rintro ⟨u, hu⟩
    rcases answers_optional_iff.1 hu with ⟨_, u', hsep, ⟨⟩⟩ | ⟨hsep, ⟨⟩⟩
    · exact .inl ⟨u', hsep⟩
    · exact .inr ⟨hsep, rfl⟩
  · rintro (⟨u, hsep⟩ | ⟨hsep, rfl⟩)
    · exact ⟨_, answers_optional_iff.2 (.inl ⟨m, u, hsep, rfl⟩)⟩
    · exact ⟨_, answers_optional_iff.2 (.inr ⟨hsep, rfl⟩)⟩

theorem answers_endBy_iff (hp : R.Consumes s env p) (hsep : R.Consumes s env sep) :
    R.Answers s env (.endBy p sep) i (some (m, v)) ↔
      ∃ steps, R.Repeats s env (.skip p sep) i steps m ∧ R.Answers s env (.skip p sep) m none ∧
        v = .list (steps.map (·.2)) := by
  rw [Grammar.endBy, answers_many_iff (consumes_skip hp hsep)]
  constructor
  · rintro ⟨steps, _, hsteps, hend, ⟨⟩⟩
    exact ⟨steps, hsteps, hend, rfl⟩
  · rintro ⟨steps, hsteps, hend, rfl⟩
    exact ⟨steps, m, hsteps, hend, rfl⟩

/-! ## Whole texts -/

theorem staysInside_sepBy (hp : R.Consumes s env p) (hsep : R.Consumes s env sep)
    (hpi : R.StaysInside s env p) (hsepi : R.StaysInside s env sep) :
    R.StaysInside s env (.sepBy p sep) := by
  intro i k v hi h
  rcases (answers_sepBy_iff hp hsep).1 h with ⟨-, rfl, -⟩ | ⟨j, u, steps, hu, hsteps, -, -⟩
  · exact hi
  · exact hsteps.le_length (staysInside_skipLeft hpi hsepi) (hpi hi hu)

/-- Nothing that consumes and stays inside the text matches at its end. -/
theorem not_answers_at_end {g : Grammar φ} (hg : R.Consumes s env g) (hgi : R.StaysInside s env g)
    (hk : s.length = k) : ¬R.Answers s env g k (some (m, u)) := fun h =>
  absurd (hgi (Nat.le_of_eq hk.symm) h) (Nat.not_le.2 (hk ▸ hg h))

/-- Where a list with separators between its items ends the text, no separator follows. -/
theorem answers_none_of_sepBy (hp : R.Consumes s env p) (hsep : R.Consumes s env sep)
    (hsepi : R.StaysInside s env sep) (hempty : s = [] → ∃ o, R.Answers s env sep 0 o)
    (h : R.Answers s env (.sepBy p sep) 0 (some (k, v))) (hk : s.length = k) :
    R.Answers s env sep k none := by
  obtain ⟨_ | ⟨m, u⟩, hm⟩ : ∃ o, R.Answers s env sep k o := by
    rcases (answers_sepBy_iff hp hsep).1 h with ⟨-, rfl, -⟩ | ⟨_, _, _, -, -, hend, -⟩
    · exact hempty (List.eq_nil_of_length_eq_zero hk)
    · rcases answers_skipLeft_none_iff.1 hend with hnone | ⟨m, u, hm, -⟩
      · exact ⟨none, hnone⟩
      · exact ⟨_, hm⟩
  · exact hm
  · exact absurd hm (not_answers_at_end hsep hsepi hk)

/-- A list that leaves a last separator open matches a whole text where one of the other two does, or
where there is no item and the text is a separator. -/
theorem matchesWhole_sepEndBy_iff (hp : R.Consumes s env p) (hsep : R.Consumes s env sep)
    (hpi : R.StaysInside s env p) (hsepi : R.StaysInside s env sep)
    (hempty : s = [] → ∃ o, R.Answers s env sep 0 o) :
    R.MatchesWhole s env (.sepEndBy p sep) v ↔
      R.MatchesWhole s env (.sepBy p sep) v ∨ R.MatchesWhole s env (.endBy p sep) v ∨
        v = .list [] ∧ R.Answers s env p 0 none ∧
          ∃ u, R.Answers s env sep 0 (some (s.length, u)) := by
  have hskip := staysInside_skip hpi hsepi
  constructor
  · rintro ⟨m, h, hm⟩
    obtain ⟨k, hlist, hlast⟩ := answers_sepEndBy_iff.1 h
    rcases hlast with ⟨u, hu⟩ | ⟨-, rfl⟩
    · rcases (answers_sepBy_iff hp hsep).1 hlist with
        ⟨hnone, rfl, rfl⟩ | ⟨j, v, steps, hv, hsteps, hend, rfl⟩
      · obtain rfl := Nat.le_antisymm hm (hsepi (Nat.zero_le _) hu)
        exact .inr (.inr ⟨rfl, hnone, u, hu⟩)
      · obtain ⟨steps', hsteps', hvalues⟩ := hsteps.shift hp hsep hv hu
        rcases answers_skipLeft_none_iff.1 hend with hnone | ⟨m', u', hu', hfails⟩
        · cases hnone.unique hu
        · cases hu.unique hu'
          have hend' : R.Answers s env (.skip p sep) m none := answers_skip_none_iff.2 (.inl hfails)
          have hends :=
            (answers_endBy_iff hp hsep).2 ⟨steps', hsteps', hend', congrArg _ hvalues.symm⟩
          exact .inr (.inl ⟨m, hends, hm⟩)
    · exact .inl ⟨m, hlist, hm⟩
  · rintro (⟨k, h, hk⟩ | ⟨m, h, hm⟩ | ⟨rfl, hnone, u, hu⟩)
    · have hlength := Nat.le_antisymm hk (staysInside_sepBy hp hsep hpi hsepi (Nat.zero_le _) h)
      have hnone := answers_none_of_sepBy hp hsep hsepi hempty h hlength
      exact ⟨k, answers_sepEndBy_iff.2 ⟨k, h, .inr ⟨hnone, rfl⟩⟩, hk⟩
    · obtain ⟨steps, hsteps, hend, rfl⟩ := (answers_endBy_iff hp hsep).1 h
      have hlength := Nat.le_antisymm hm (hsteps.le_length hskip (Nat.zero_le _))
      -- the item that would come next fails, as the text is over
      have hfails : R.Answers s env p m none :=
        (answers_skip_none_iff.1 hend).elim id fun ⟨_, _, hv, _⟩ =>
          absurd hv (not_answers_at_end hp hpi hlength)
      by_cases hsome : steps = []
      · subst hsome
        cases hsteps
        have hlist := (answers_sepBy_iff hp hsep).2 (.inl ⟨hfails, rfl, rfl⟩)
        have hnone := answers_none_of_sepBy hp hsep hsepi hempty hlist hlength
        exact ⟨0, answers_sepEndBy_iff.2 ⟨0, hlist, .inr ⟨hnone, rfl⟩⟩, hm⟩
      · obtain ⟨j, v, k, u, steps', hv, hsteps', hu, hvalues⟩ := hsteps.unshift hp hsep hsome
        have hend' := answers_skipLeft_none_iff.2 (.inr ⟨m, u, hu, hfails⟩)
        have hlist := (answers_sepBy_iff hp hsep).2 (.inr ⟨j, v, steps', hv, hsteps', hend', rfl⟩)
        rw [hvalues]
        exact ⟨m, answers_sepEndBy_iff.2 ⟨k, hlist, .inl ⟨u, hu⟩⟩, hm⟩
    · have hlist := (answers_sepBy_iff hp hsep).2 (.inl ⟨hnone, rfl, rfl⟩)
      exact ⟨s.length, answers_sepEndBy_iff.2 ⟨0, hlist, .inl ⟨u, hu⟩⟩, Nat.le_refl _⟩

/-! ## Literal texts -/

variable {r : Ref} {literal : String}

theorem consumes_string (hrule : R.rule r = .string literal) (hne : literal.toList ≠ []) :
    R.Consumes s env (.object r) := by
  intro i j v h
  rw [answers_object_iff, hrule] at h
  by_cases hat : literal.toList <+: s.drop i ∧ i ≤ s.length
  · cases h.unique (answers_string hat)
    exact Nat.lt_add_of_pos_right (List.length_pos_of_ne_nil hne)
  · cases h.unique (answers_string_none hat)

theorem staysInside_string (hrule : R.rule r = .string literal) :
    R.StaysInside s env (.object r) := by
  intro i j v hi h
  rw [answers_object_iff, hrule] at h
  by_cases hat : literal.toList <+: s.drop i ∧ i ≤ s.length
  · cases h.unique (answers_string hat)
    have hle := hat.1.length_le
    rw [List.length_drop] at hle
    omega
  · cases h.unique (answers_string_none hat)

end Rules

/-- Two values stand for the same value. -/
def Value.SameUnder (B : Bond φ) (u u' : Value φ) : Prop :=
  ∃ v B₁ B₂, B ≤ B₁ ∧ B ≤ B₂ ∧ Value.Like B₁ u v ∧ Value.Like B₂ u' v

omit [FunctionText φ] in
theorem Value.SameUnder.eq_of_plain {B : Bond φ} {u u' : Value φ} (h : Value.SameUnder B u u')
    (hu : u.Plain) : u = u' := by
  obtain ⟨v, B₁, B₂, -, -, hlike, hlike'⟩ := h
  have hu' := hlike'.plain_iff.2 (hlike.plain_iff.1 hu)
  exact (hlike.eq_of_plain hu).trans (hlike'.eq_of_plain hu').symm

namespace Machine

variable {apply : Tools φ → φ → List (Value φ) → Machine φ (Value φ)} {R : Rules φ}
  {B : Bond φ} {w : World φ}

/-- Parsing a whole text gives a value. -/
def ParsesAs (apply : Tools φ → φ → List (Value φ) → Machine φ (Value φ)) (r : Ref) (s : Input)
    (env : Value φ) (w : World φ) (u : Value φ) : Prop :=
  ∃ w', ParsesTo apply r s env w (.ok (.ok u)) w'

/-- Where the rules match the whole text with the one object as with the other, the parses give the
same. -/
theorem ParsesAs.sameUnder {r r' t t' : Ref} {s : Input} {env env' u : Value φ}
    (h : ParsesAs apply r s env w u) (hpure : ∀ budget, PureFunctions apply budget R)
    (hw : Faithful R B w) (heof : R.rule Ref.eof = .eof) (hr : B.objects r = some t)
    (hr' : B.objects r' = some t') (henv : Value.Like B env env')
    (hsame : ∀ v, R.MatchesWhole s env' (.object t) v → R.MatchesWhole s env' (.object t') v) :
    ∃ u', ParsesAs apply r' s env w u' ∧ Value.SameUnder B u u' := by
  obtain ⟨w', h⟩ := h
  obtain ⟨v, hv, B₁, hB₁, hlike⟩ := h.matchesWhole hpure hw heof hr henv
  obtain ⟨u', w'', h', B₂, hB₂, hlike'⟩ := exists_parsesTo (hsame v hv) hpure hw heof hr' henv
  exact ⟨u', ⟨w'', h'⟩, v, B₁, B₂, hB₁, hB₂, hlike, hlike'⟩

/-- What a list that leaves a last separator open parses is what one of the other two lists parses, or
a single separator where there is no item.  Items and separators consume something and stay inside the
text, and separators can be told on the empty text. -/
theorem parse_sepEndBy (hpure : ∀ budget, PureFunctions apply budget R)
    (hw : Faithful R B w) (heof : R.rule Ref.eof = .eof) {p sep ended between after : Ref}
    (hended : R.rule ended = .sepEndBy (.object p) (.object sep))
    (hbetween : R.rule between = .sepBy (.object p) (.object sep))
    (hafter : R.rule after = .endBy (.object p) (.object sep)) {r₁ r₂ r₃ : Ref}
    (h₁ : B.objects r₁ = some ended) (h₂ : B.objects r₂ = some between)
    (h₃ : B.objects r₃ = some after) {env env' : Value φ} (henv : Value.Like B env env')
    {s : Input} (hp : R.Consumes s env' (.object p)) (hsep : R.Consumes s env' (.object sep))
    (hpi : R.StaysInside s env' (.object p)) (hsepi : R.StaysInside s env' (.object sep))
    (hempty : s = [] → ∃ o, R.Answers s env' (.object sep) 0 o) :
    let lone := R.Answers s env' (.object p) 0 none ∧
      ∃ v, R.Answers s env' (.object sep) 0 (some (s.length, v))
    (∀ u : Value φ, u.Plain → (ParsesAs apply r₁ s env w u ↔
      ParsesAs apply r₂ s env w u ∨ ParsesAs apply r₃ s env w u ∨ u = .list [] ∧ lone)) ∧
    (∀ u, ParsesAs apply r₁ s env w u →
      (∃ u', ParsesAs apply r₂ s env w u' ∧ Value.SameUnder B u u') ∨
      (∃ u', ParsesAs apply r₃ s env w u' ∧ Value.SameUnder B u u') ∨ u = .list [] ∧ lone) ∧
    ∀ u, ParsesAs apply r₂ s env w u ∨ ParsesAs apply r₃ s env w u ∨ u = .list [] ∧ lone →
      ∃ u', ParsesAs apply r₁ s env w u' ∧ Value.SameUnder B u u' := by
  intro lone
  have hiff : ∀ v, R.MatchesWhole s env' (.object ended) v ↔
      R.MatchesWhole s env' (.object between) v ∨ R.MatchesWhole s env' (.object after) v ∨
        v = .list [] ∧ lone := fun v => by
    simp only [Rules.matchesWhole_object_iff, hended, hbetween, hafter]
    exact Rules.matchesWhole_sepEndBy_iff hp hsep hpi hsepi hempty
  -- what the rules say of the three objects holds of the parses
  have hforth : ∀ u, ParsesAs apply r₁ s env w u →
      (∃ u', ParsesAs apply r₂ s env w u' ∧ Value.SameUnder B u u') ∨
      (∃ u', ParsesAs apply r₃ s env w u' ∧ Value.SameUnder B u u') ∨ u = .list [] ∧ lone := by
    rintro u ⟨w', h⟩
    obtain ⟨v, hv, B₁, hB₁, hlike⟩ := h.matchesWhole hpure hw heof h₁ henv
    rcases (hiff v).1 hv with hv | hv | ⟨rfl, hlone⟩
    · obtain ⟨u', w'', h', B₂, hB₂, hlike'⟩ := exists_parsesTo hv hpure hw heof h₂ henv
      exact .inl ⟨u', ⟨w'', h'⟩, v, B₁, B₂, hB₁, hB₂, hlike, hlike'⟩
    · obtain ⟨u', w'', h', B₂, hB₂, hlike'⟩ := exists_parsesTo hv hpure hw heof h₃ henv
      exact .inr (.inl ⟨u', ⟨w'', h'⟩, v, B₁, B₂, hB₁, hB₂, hlike, hlike'⟩)
    · exact .inr (.inr ⟨hlike.eq_of_plain (hlike.plain_iff.2 trivial), hlone⟩)
  have hback : ∀ u, ParsesAs apply r₂ s env w u ∨ ParsesAs apply r₃ s env w u ∨
      u = .list [] ∧ lone → ∃ u', ParsesAs apply r₁ s env w u' ∧ Value.SameUnder B u u' := by
    rintro u (h | h | ⟨rfl, hlone⟩)
    · exact h.sameUnder hpure hw heof h₂ h₁ henv fun v hv => (hiff v).2 (.inl hv)
    · exact h.sameUnder hpure hw heof h₃ h₁ henv fun v hv => (hiff v).2 (.inr (.inl hv))
    · have hv := (hiff _).2 (.inr (.inr ⟨rfl, hlone⟩))
      obtain ⟨u', w', h', B', hB', hlike⟩ := exists_parsesTo hv hpure hw heof h₁ henv
      exact ⟨u', ⟨w', h'⟩, .list [], B, B', le_refl B, hB', .list .nil, hlike⟩
  refine ⟨fun u hplain => ⟨fun h => ?_, fun h => ?_⟩, hforth, hback⟩
  · rcases hforth u h with ⟨u', h', hsame⟩ | ⟨u', h', hsame⟩ | hlone
    · exact .inl (hsame.eq_of_plain hplain ▸ h')
    · exact .inr (.inl (hsame.eq_of_plain hplain ▸ h'))
    · exact .inr (.inr hlone)
  · obtain ⟨u', h', hsame⟩ := hback u h
    exact hsame.eq_of_plain hplain ▸ h'

/-! ## Semicolons -/

section

open Script (Function applyFunction)

/-- Items `a` and separators `;`: the three lists of them. -/
def semicolons : World Function :=
  { World.initial with
    cells := World.initial.cells ++ #[⟨.string "a", .null⟩, ⟨.string ";", .null⟩,
      ⟨.sepEndBy (.object 5) (.object 6), .null⟩, ⟨.sepBy (.object 5) (.object 6), .null⟩,
      ⟨.endBy (.object 5) (.object 6), .null⟩] }

theorem faithful_semicolons :
    Faithful (.ofWorld semicolons) (.ofObjects Function 10) semicolons := by
  have hskipLeft : (Grammar.skipLeft (.object 6) (.object 5)).Like (Bond.likeness Function)
      (.ofObjects Function 10) (.skipLeft (.object 6) (.object 5)) :=
    .mapEnv (.seq (.cons (.object rfl) (.cons (.object rfl) .nil))) (.item 1)
  have hsepBy : (Grammar.sepBy (.object 5) (.object 6)).Like (Bond.likeness Function)
      (.ofObjects Function 10) (.sepBy (.object 5) (.object 6)) :=
    .alt (.mapEnv (.seq (.cons (.object rfl) (.cons (.times _ _ hskipLeft) .nil))) .cons)
      (.cons (.mapEnv (.succeed .null) (.constant (.list .nil))) .nil)
  refine faithful_ofWorld (by decide) (by decide) rfl fun r hr => ?_
  match r, hr with
  | 0, _ => exact .offset
  | 1, _ => exact .position
  | 2, _ => exact .eof
  | 3, _ => exact .anyChar
  | 4, _ => exact .rest
  | 5, _ => exact .string "a"
  | 6, _ => exact .string ";"
  | 7, _ =>
    have hoptional : (Grammar.optional (.object 6)).Like (Bond.likeness Function)
        (.ofObjects Function 10) (.optional (.object 6)) :=
      .alt (.mapEnv (.object rfl) (.constant .null)) (.cons (.succeed .null) .nil)
    exact .mapEnv (.seq (.cons hsepBy (.cons hoptional .nil))) (.item 0)
  | 8, _ => exact hsepBy
  | 9, _ =>
    exact .times _ _ (.mapEnv (.seq (.cons (.object rfl) (.cons (.object rfl) .nil))) (.item 0))

theorem rule_semicolons : (Rules.ofWorld semicolons).rule 5 = .string "a" ∧
    (Rules.ofWorld semicolons).rule 6 = .string ";" ∧
    (Rules.ofWorld semicolons).rule 7 = .sepEndBy (.object 5) (.object 6) ∧
    (Rules.ofWorld semicolons).rule 8 = .sepBy (.object 5) (.object 6) ∧
    (Rules.ofWorld semicolons).rule 9 = .endBy (.object 5) (.object 6) := ⟨rfl, rfl, rfl, rfl, rfl⟩

theorem consumes_semicolons (s : Input) :
    (Rules.ofWorld semicolons).Consumes s .null (.object 5) ∧
      (Rules.ofWorld semicolons).Consumes s .null (.object 6) :=
  ⟨Rules.consumes_string rule_semicolons.1 (by decide),
    Rules.consumes_string rule_semicolons.2.1 (by decide)⟩

theorem staysInside_semicolons (s : Input) :
    (Rules.ofWorld semicolons).StaysInside s .null (.object 5) ∧
      (Rules.ofWorld semicolons).StaysInside s .null (.object 6) :=
  ⟨Rules.staysInside_string rule_semicolons.1, Rules.staysInside_string rule_semicolons.2.1⟩

/-- A list with separators in it that is matched before the end of the text is not parsed. -/
theorem not_parsesAs_of_denote {r : Ref} (hr : r < 10) {s : Input} {result : Result (Value Function)}
    (h : (Rules.ofWorld semicolons).run 9 9 r s 0 .null = .ok result)
    (hstop : result.index < s.length) (u : Value Function) :
    ¬ParsesAs (applyFunction []) r s .null semicolons u := by
  rintro ⟨w', hparse⟩
  obtain ⟨v, ⟨j, hanswer, hle⟩, -⟩ := hparse.matchesWhole
    (pureFunctions_ofWorld (applyFunction []) semicolons) faithful_semicolons rfl
    (Bond.ofObjects_objects.2 ⟨hr, rfl⟩) .null
  have hone := hanswer.unique (Rules.answers_of_denote (b := (9, 9)) h)
  obtain ⟨-, rfl, -⟩ := Result.erased_eq_some.1 hone.symm
  omega

/-- Items and separators consume something and stay inside the text.  A single separator is parsed, as
a list of no items, by the list that leaves a last separator open, and by neither of the other two. -/
theorem parse_lone_semicolon :
    ((Rules.ofWorld semicolons).Consumes ";".toList .null (.object 5) ∧
      (Rules.ofWorld semicolons).Consumes ";".toList .null (.object 6)) ∧
    ((Rules.ofWorld semicolons).StaysInside ";".toList .null (.object 5) ∧
      (Rules.ofWorld semicolons).StaysInside ";".toList .null (.object 6)) ∧
    ParsesAs (applyFunction []) 7 ";".toList .null semicolons (.list []) ∧
    (∀ u, ¬ParsesAs (applyFunction []) 8 ";".toList .null semicolons u) ∧
    ∀ u, ¬ParsesAs (applyFunction []) 9 ";".toList .null semicolons u :=
  ⟨consumes_semicolons _, staysInside_semicolons _, ⟨_, 9, 9, rfl⟩,
    not_parsesAs_of_denote (by decide) rfl (by decide),
    not_parsesAs_of_denote (by decide) rfl (by decide)⟩

/-- What `a;` is parsed as with a separator after each item it is parsed as with an open end. -/
theorem parse_sepEndBy_semicolon :
    ParsesAs (applyFunction []) 9 "a;".toList .null semicolons (.list [.text "a"]) ∧
    ParsesAs (applyFunction []) 7 "a;".toList .null semicolons (.list [.text "a"]) := by
  have hafter : ParsesAs (applyFunction []) 9 "a;".toList .null semicolons (.list [.text "a"]) :=
    ⟨_, 9, 9, rfl⟩
  have hobject : ∀ r < 10, (Bond.ofObjects Function 10).objects r = some r := fun r hr =>
    Bond.ofObjects_objects.2 ⟨hr, rfl⟩
  have hplain : (Value.list [.text "a"] : Value Function).Plain := ⟨trivial, trivial⟩
  obtain ⟨hp, hsep⟩ := consumes_semicolons "a;".toList
  obtain ⟨hpi, hsepi⟩ := staysInside_semicolons "a;".toList
  obtain ⟨-, -, hended, hbetween, hends⟩ := rule_semicolons
  obtain ⟨hsame, -⟩ := parse_sepEndBy (pureFunctions_ofWorld (applyFunction []) semicolons)
    faithful_semicolons rfl hended hbetween hends (hobject 7 (by decide)) (hobject 8 (by decide))
    (hobject 9 (by decide)) .null hp hsep hpi hsepi nofun
  exact ⟨hafter, (hsame _ hplain).2 (.inr (.inl hafter))⟩

end

end Machine

end Furthest
