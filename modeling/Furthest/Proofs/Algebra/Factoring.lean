import Furthest.Proofs.Parallel.Labels

/-!
# Left factoring

Two alternatives that begin with the same part may be factored: `p` and then `q`, or `p` and then
`r`, is `p` and then one of the two.  The first form runs `p` twice where `q` does not match, and so
it lists the labels of `p` twice.  But for such repetitions the two are the same
(`Behaviour.factored`): status, index, value, and where the deepest failure is.

This needs a `p` that does the same when it is run again.  On the machine it does if functions have
no effect that shows (`Machine.run_factored`).
-/

namespace Furthest

variable {φ α ε : Type}

/-! ## Repeated labels -/

namespace Report

/-- What is listed by the deeper of two reports, or by either if they are equally deep. -/
theorem mem_join {a b : Report} {label : String} :
    label ∈ (a.join b).expected ↔
      label ∈ a.expected ∧ b.furthest ≤ a.furthest ∨
        label ∈ b.expected ∧ a.furthest ≤ b.furthest := by
  rcases Int.lt_trichotomy a.furthest b.furthest with h | h | h
  · rw [join_of_gt h]
    simp only [Int.not_le.2 h, and_false, false_or, h.le, and_true]
  · rw [join_of_eq h]
    simp only [List.mem_append, h, le_refl, and_true]
  · rw [join_of_lt h]
    simp only [Int.not_le.2 h, and_false, or_false, h.le, and_true]

/-- Two reports point at the same offset and list the same labels, in any order and number. -/
structure Resembles (a b : Report) : Prop where
  furthest_eq : a.furthest = b.furthest
  mem_iff (label : String) : label ∈ a.expected ↔ label ∈ b.expected

theorem resembles_refl (a : Report) : a.Resembles a := ⟨rfl, fun _ => Iff.rfl⟩

theorem Resembles.symm {a b : Report} (h : a.Resembles b) : b.Resembles a :=
  ⟨h.furthest_eq.symm, fun label => (h.mem_iff label).symm⟩

theorem join_self_resembles (a : Report) : (a.join a).Resembles a where
  furthest_eq := by rw [furthest_join, max_self]
  mem_iff label := by simp only [mem_join, le_refl, and_true, or_self]

/-- A report that is joined to each of two others may as well be joined to both of them. -/
theorem join_join_resembles (a b c : Report) :
    ((a.join c).join (b.join c)).Resembles ((a.join b).join c) where
  furthest_eq := by simp only [furthest_join]; omega
  mem_iff label := by
    simp only [mem_join, furthest_join]
    grind

end Report

/-- Two results are the same but for the order and the number of their labels. -/
structure Result.Resembles (r r' : Result α) : Prop where
  reports : r.toReport.Resembles r'.toReport
  status_eq : r.status = r'.status
  index_eq : r.index = r'.index
  value_eq : r.value = r'.value

namespace Result

theorem resembles_refl (r : Result α) : r.Resembles r :=
  ⟨Report.resembles_refl _, rfl, rfl, rfl⟩

theorem Resembles.symm {r r' : Result α} (h : r.Resembles r') : r'.Resembles r :=
  ⟨h.reports.symm, h.status_eq.symm, h.index_eq.symm, h.value_eq.symm⟩

theorem Resembles.unlabelled_eq {r r' : Result α} (h : r.Resembles r') :
    r.unlabelled = r'.unlabelled := by
  obtain ⟨⟨furthest, expected⟩, status, index, value⟩ := r
  obtain ⟨⟨furthest', expected'⟩, status', index', value'⟩ := r'
  obtain ⟨⟨rfl, -⟩, rfl, rfl, rfl⟩ := h
  rfl

/-- A match of two parts in turn. -/
def pair (r later : Result (Value φ)) : Result (Value φ) :=
  (Result.success later.index (.list [r.value, later.value])).merge (later.merge r)

@[simp] theorem status_pair (r later : Result (Value φ)) : (r.pair later).status = true := rfl

theorem toReport_pair {r later : Result (Value φ)} (h : -1 ≤ r.furthest) :
    (r.pair later).toReport = later.toReport.join r.toReport := by
  have hjoin : -1 ≤ (later.toReport.join r.toReport).furthest := by
    rw [Report.furthest_join]
    omega
  exact Report.silent_join hjoin

namespace Resembles

variable {x y z : Result (Value φ)}

/-- A failure that comes up again. -/
theorem of_again (x : Result α) : (x.merge x).Resembles x :=
  ⟨Report.join_self_resembles _, rfl, rfl, rfl⟩

/-- After `x`, an attempt `y` failed and `z` matched. -/
theorem of_match (hx : -1 ≤ x.furthest) :
    ((x.pair z).merge (y.merge x)).Resembles (x.pair (z.merge y)) where
  reports := by
    rw [toReport_merge, toReport_pair hx, toReport_pair hx]
    exact Report.join_join_resembles _ _ _
  status_eq := rfl
  index_eq := rfl
  value_eq := rfl

/-- After `x`, the attempts `y` and `z` failed. -/
theorem of_failures (x y z : Result α) :
    ((z.merge x).merge (y.merge x)).Resembles ((z.merge y).merge x) :=
  ⟨Report.join_join_resembles _ _ _, rfl, rfl, rfl⟩

end Resembles

end Result

/-- Two runs come to results that resemble each other, or halt for the same reason. -/
inductive Resembling : Except ε (Result α) → Except ε (Result α) → Prop where
  | ok {r r' : Result α} : r.Resembles r' → Resembling (.ok r) (.ok r')
  | error (e : ε) : Resembling (.error e) (.error e)

theorem Resembling.symm {x y : Except ε (Result α)} (h : Resembling x y) : Resembling y x := by
  cases h with
  | ok hr => exact .ok hr.symm
  | error e => exact .error e

/-! ## Behaviours -/

namespace Behaviour

variable {p q r : Behaviour (Except ε) φ} {s : Input} {i : Nat} {env : Value φ}

theorem seq_pair_apply (p q : Behaviour (Except ε) φ) (s : Input) (i : Nat) (env : Value φ) :
    seq [p, q] s i env = (p s i env >>= fun x =>
      if x.status then q s x.index env >>= fun y =>
        pure (if y.status then x.pair y else y.merge x)
      else pure x) := by
  refine bind_congr fun x => ?_
  by_cases hx : x.status = true
  · simp only [Result.mergeWith_none, hx, if_true]
    refine bind_congr fun y => ?_
    by_cases hy : y.status = true
    · simp [hy, seqFrom, Result.pair]
    · simp [hy]
  · simp [hx]

theorem alt_pair_apply (p q : Behaviour (Except ε) φ) (s : Input) (i : Nat) (env : Value φ) :
    alt p [q] s i env = (p s i env >>= fun x =>
      if x.status then pure x else q s i env >>= fun y => pure (y.merge x)) := by
  refine bind_congr fun x => ?_
  by_cases hx : x.status = true
  · simp only [hx, if_true]
  · simp only [hx]
    exact bind_congr fun y => ite_self _

/-- Two alternatives with a first part in common are that part and then alternatives of the rest. -/
theorem factored (hp : ∀ x, p s i env = .ok x → -1 ≤ x.furthest) :
    Resembling (alt (seq [p, q]) [seq [p, r]] s i env) (seq [p, alt q [r]] s i env) := by
  simp only [alt_pair_apply, seq_pair_apply]
  cases hpx : p s i env with
  | error e => exact .error e
  | ok x =>
    cases hs : x.status with
    | false =>
      simp only [Rules.ok_bind, pure_bind, hs, Bool.false_eq_true, if_false]
      exact .ok (.of_again x)
    | true =>
      simp only [Rules.ok_bind, hs, if_true]
      cases hqy : q s x.index env with
      | error e => exact .error e
      | ok y =>
        cases hy : y.status with
        | true =>
          simp only [Rules.ok_bind, pure_bind, hy, if_true, Result.status_pair]
          exact .ok (Result.resembles_refl _)
        | false =>
          simp only [Rules.ok_bind, pure_bind, hy, Bool.false_eq_true, if_false,
            Result.status_merge]
          cases hrz : r s x.index env with
          | error e => exact .error e
          | ok z =>
            simp only [Rules.ok_bind, pure_bind, Result.status_merge]
            by_cases hz : z.status = true
            · simp only [hz, if_true]
              exact .ok (.of_match (hp x hpx))
            · simp only [hz]
              exact .ok (.of_failures x y z)

end Behaviour

/-! ## Rules -/

/-- What resembles a run that was not cut short was not either. -/
theorem Resembling.settled {x y : Except (Halt φ) (Result (Value φ))} (h : Resembling x y)
    {o : Except (Fault φ) (Result (Value φ))} (hx : x = Furthest.settled o) :
    ∃ o', y = Furthest.settled o' ∧ Resembling o o' := by
  cases h with
  | ok hr =>
    cases o with
    | ok result =>
      cases hx
      exact ⟨.ok _, rfl, .ok hr⟩
    | error e => cases hx
  | error halt =>
    cases o with
    | ok result => cases hx
    | error e => exact ⟨.error e, hx, .error e⟩

namespace Rules

/-- One object is `p` and then `q`, or else `p` and then `r`; another one is `p`, and then `q` or else
`r`. -/
structure Factors (R : Rules φ) (p q r plain factored : Ref) : Prop where
  plain_rule : ∃ pq pr, R.rule plain = .alt (.object pq) [.object pr] ∧
    R.rule pq = .seq [.object p, .object q] ∧ R.rule pr = .seq [.object p, .object r]
  factored_rule : ∃ qr, R.rule factored = .seq [.object p, .object qr] ∧
    R.rule qr = .alt (.object q) [.object r]

variable [FunctionText φ] {R : Rules φ} {p q r plain factored : Ref} {s : Input} {i : Nat}
  {env : Value φ} {o : Except (Fault φ) (Result (Value φ))}

theorem run_succ (R : Rules φ) (budget n : Nat) (r : Ref) :
    R.run budget (n + 1) r = (R.rule r).denote (R.host (R.run budget n) budget) := rfl

theorem Factors.run_before (h : R.Factors p q r plain factored) (budget n : Nat) :
    R.run budget (n + 2) plain =
      Behaviour.alt (Behaviour.seq [R.run budget n p, R.run budget n q])
        [Behaviour.seq [R.run budget n p, R.run budget n r]] := by
  obtain ⟨pq, pr, hplain, hpq, hpr⟩ := h.plain_rule
  have hfirst := R.run_succ budget n pq
  have hsecond := R.run_succ budget n pr
  rw [hpq, Grammar.denote_seq] at hfirst
  rw [hpr, Grammar.denote_seq] at hsecond
  rw [R.run_succ, hplain, Grammar.denote_alt]
  exact congrArg₂ (fun p q => Behaviour.alt p [q]) hfirst hsecond

theorem Factors.run_after (h : R.Factors p q r plain factored) (budget n : Nat) :
    R.run budget (n + 2) factored =
      Behaviour.seq [R.run budget (n + 1) p,
        Behaviour.alt (R.run budget n q) [R.run budget n r]] := by
  obtain ⟨qr, hfactored, hqr⟩ := h.factored_rule
  have hrest := R.run_succ budget n qr
  rw [hqr, Grammar.denote_alt] at hrest
  rw [R.run_succ, hfactored, Grammar.denote_seq]
  exact congrArg (fun q => Behaviour.seq [R.run budget (n + 1) p, q]) hrest

/-- What the rules give before factoring they give after it, but for repeated labels. -/
theorem Factors.gives_after (h : R.Factors p q r plain factored)
    (hp : ∀ result, R.Gives p s i env (.ok result) → -1 ≤ result.furthest)
    (ho : R.Gives plain s i env o) : ∃ o', R.Gives factored s i env o' ∧ Resembling o o' := by
  obtain ⟨budget, n, hn⟩ := ho
  have hbefore := R.run_mono (le_refl budget) (Nat.le_add_right n 2) hn
  rw [h.run_before] at hbefore
  have hsame := Behaviour.factored (q := R.run budget n q) (r := R.run budget n r)
    fun x hx => hp x ⟨budget, n, hx⟩
  obtain ⟨o', ho', hoo'⟩ := hsame.settled hbefore
  refine ⟨o', ⟨budget, n + 2, ?_⟩, hoo'⟩
  rw [h.run_after]
  -- the first part is one object nearer now
  have hfirst := R.settledBelow_run (le_refl budget) (Nat.le_succ n) p
  have hrest := Pairing.like_alt (R.settledBelow_run (le_refl budget) (le_refl n) q)
    (.cons (R.settledBelow_run (le_refl budget) (le_refl n) r) .nil)
  exact settled_of_like (Pairing.like_seq (.cons hfirst (.cons hrest .nil))) ho'

/-- What the rules give after factoring they give before it, but for repeated labels. -/
theorem Factors.gives_before (h : R.Factors p q r plain factored)
    (hp : ∀ result, R.Gives p s i env (.ok result) → -1 ≤ result.furthest)
    (ho : R.Gives factored s i env o) : ∃ o', R.Gives plain s i env o' ∧ Resembling o o' := by
  obtain ⟨budget, n, hn⟩ := ho
  have hafter := R.run_mono (le_refl budget) (Nat.le_add_right n 2) hn
  rw [h.run_after] at hafter
  -- all parts are as far away as the first one
  have hfirst := R.settledBelow_run (le_refl budget) (le_refl (n + 1)) p
  have hrest := Pairing.like_alt (R.settledBelow_run (le_refl budget) (Nat.le_succ n) q)
    (.cons (R.settledBelow_run (le_refl budget) (Nat.le_succ n) r) .nil)
  have hdeeper := settled_of_like (Pairing.like_seq (.cons hfirst (.cons hrest .nil))) hafter
  have hsame := Behaviour.factored (q := R.run budget (n + 1) q) (r := R.run budget (n + 1) r)
    fun x hx => hp x ⟨budget, n + 1, hx⟩
  obtain ⟨o', ho', hoo'⟩ := hsame.symm.settled hdeeper
  refine ⟨o', ⟨budget, n + 3, ?_⟩, hoo'⟩
  rw [h.run_before]
  exact ho'

end Rules

/-! ## The machine -/

variable [FunctionText φ] {R : Rules φ}

/-- Two outcomes that a user cannot tell apart but by the order and the number of labels. -/
structure SameButRepeats (names names' : Ref → Option String)
    (o o' : Except (Fault φ) (Result (Value φ))) : Prop where
  unlabelled : SameOutcome names names' (o.map Result.unlabelled) (o'.map Result.unlabelled)
  mem_iff {result result' : Result (Value φ)} : o = .ok result → o' = .ok result' →
    ∀ label, label ∈ result.expected ↔ label ∈ result'.expected

theorem Stated.toReport_eq {B : Bond φ} {w : World φ} {result result' : Result (Value φ)}
    (h : Stated R B w (.ok result) (.ok result')) : result.toReport = result'.toReport := by
  obtain ⟨_, -, -, hr⟩ := h
  cases hr with
  | ok hr => exact hr.toReport_eq

theorem Stated.error_left {B : Bond φ} {w : World φ} {o : Except (Fault φ) (Result (Value φ))}
    {e' : Fault φ} (h : Stated R B w o (.error e')) : ∃ e, o = .error e := by
  obtain ⟨_, -, -, ho⟩ := h
  cases ho
  exact ⟨_, rfl⟩

theorem Stated.sameButRepeats {B₁ B₂ : Bond φ} {w₁ w₂ : World φ}
    {o₁ o₂ o o' : Except (Fault φ) (Result (Value φ))} (h₁ : Stated R B₁ w₁ o₁ o)
    (h₂ : Stated R B₂ w₂ o₂ o') (h : Resembling o o') :
    SameButRepeats w₁.names w₂.names o₁ o₂ := by
  cases h with
  | ok hr =>
    obtain ⟨result₁, rfl⟩ := h₁.ok_left
    obtain ⟨result₂, rfl⟩ := h₂.ok_left
    refine ⟨?_, ?_⟩
    · have hgiven := h₁.map looksAtNoValue_unlabelled
      rw [hr.unlabelled_eq] at hgiven
      exact hgiven.same (h₂.map looksAtNoValue_unlabelled)
    · rintro _ _ ⟨⟩ ⟨⟩ label
      rw [h₁.toReport_eq, h₂.toReport_eq]
      exact hr.reports.mem_iff label
  | error e =>
    have hsame := h₁.same h₂
    obtain ⟨e₁, rfl⟩ := h₁.error_left
    obtain ⟨e₂, rfl⟩ := h₂.error_left
    exact ⟨hsame, nofun⟩

namespace Machine

variable {apply : Tools φ → φ → List (Value φ) → Machine φ (Value φ)} {B₁ B₂ : Bond φ}
  {w₁ w₂ : World φ} {r₁ r₂ p q r plain factored : Ref} {env₁ env₂ env : Value φ}

/-- Left factoring changes nothing but how often a label is listed.  An object that is `p` and then
`q`, or else `p` and then `r`, comes to an outcome where an object that is `p`, and then `q` or else
`r`, does; and the two outcomes are the same but for that.  Of the parts only the first one has to
keep to reports of `-1` or later, as well-formed parsers do. -/
theorem run_factored (hpure : ∀ budget, PureFunctions apply budget R)
    (hfactors : R.Factors p q r plain factored) (hw₁ : Faithful R B₁ w₁)
    (hw₂ : Faithful R B₂ w₂) (hr₁ : B₁.objects r₁ = some plain)
    (hr₂ : B₂.objects r₂ = some factored) (henv₁ : Value.Like B₁ env₁ env)
    (henv₂ : Value.Like B₂ env₂ env) (s : Input) (i : Nat)
    (hp : ∀ result, R.Gives p s i env (.ok result) → -1 ≤ result.furthest) :
    ((∃ o w₁', ComesTo apply r₁ s i env₁ w₁ o w₁') ↔
      ∃ o w₂', ComesTo apply r₂ s i env₂ w₂ o w₂') ∧
    ∀ o o' w₁' w₂', ComesTo apply r₁ s i env₁ w₁ o w₁' → ComesTo apply r₂ s i env₂ w₂ o' w₂' →
      SameButRepeats w₁'.names w₂'.names o o' := by
  refine ⟨⟨?_, ?_⟩, fun o o' w₁' w₂' hrun₁ hrun₂ => ?_⟩
  · rintro ⟨o, w₁', hrun⟩
    obtain ⟨given, hgiven, -⟩ := hrun.stated hpure (le_refl B₁) hw₁ hr₁ henv₁
    obtain ⟨given', hgiven', -⟩ := hfactors.gives_after hp hgiven
    obtain ⟨o', w₂', hrun', -⟩ := comesTo_of_gives hgiven' hpure (le_refl B₂) hw₂ hr₂ henv₂
    exact ⟨o', w₂', hrun'⟩
  · rintro ⟨o, w₂', hrun⟩
    obtain ⟨given, hgiven, -⟩ := hrun.stated hpure (le_refl B₂) hw₂ hr₂ henv₂
    obtain ⟨given', hgiven', -⟩ := hfactors.gives_before hp hgiven
    obtain ⟨o', w₁', hrun', -⟩ := comesTo_of_gives hgiven' hpure (le_refl B₁) hw₁ hr₁ henv₁
    exact ⟨o', w₁', hrun'⟩
  · obtain ⟨given₁, hgiven₁, hstated₁⟩ := hrun₁.stated hpure (le_refl B₁) hw₁ hr₁ henv₁
    obtain ⟨given₂, hgiven₂, hstated₂⟩ := hrun₂.stated hpure (le_refl B₂) hw₂ hr₂ henv₂
    obtain ⟨given₂', hgiven₂', hsame⟩ := hfactors.gives_after hp hgiven₁
    obtain rfl := hgiven₂.unique hgiven₂'
    exact hstated₁.sameButRepeats hstated₂ hsame

/-! ## An optional sign -/

section

open Script (Function applyFunction)

/-- An optional sign, and then a character or the end of the text: in two alternatives, and with the
sign as their first part. -/
def signed : World Function :=
  { World.initial with
    cells := World.initial.cells ++ #[⟨.alt (.fail "sign") [.succeed .null], .null⟩,
      ⟨.seq [.object 5, .object Ref.anyChar], .null⟩,
      ⟨.seq [.object 5, .object Ref.eof], .null⟩,
      ⟨.alt (.object 6) [.object 7], .null⟩,
      ⟨.alt (.object Ref.anyChar) [.object Ref.eof], .null⟩,
      ⟨.seq [.object 5, .object 9], .null⟩] }

theorem faithful_signed :
    Faithful (.ofWorld signed) (.ofObjects Function 11) signed := by
  refine faithful_ofWorld (by decide) (by decide) rfl fun r hr => ?_
  match r, hr with
  | 0, _ => exact .offset
  | 1, _ => exact .position
  | 2, _ => exact .eof
  | 3, _ => exact .anyChar
  | 4, _ => exact .rest
  | 5, _ => exact .alt (.fail "sign") (.cons (.succeed .null) .nil)
  | 6, _ | 7, _ | 10, _ => exact .seq (.cons (.object rfl) (.cons (.object rfl) .nil))
  | 8, _ | 9, _ => exact .alt (.object rfl) (.cons (.object rfl) .nil)

theorem factors_signed : (Rules.ofWorld signed).Factors 5 Ref.anyChar Ref.eof 8 10 where
  plain_rule := ⟨6, 7, rfl, rfl, rfl⟩
  factored_rule := ⟨9, rfl, rfl⟩

/-- The sign is left out where the first alternative fails, and the report says so. -/
theorem gives_sign {s : Input} {i : Nat} {env : Value Function} {result : Result (Value Function)}
    (h : (Rules.ofWorld signed).Gives 5 s i env (.ok result)) :
    result = ⟨⟨i, ["sign"]⟩, true, i, .null⟩ := by
  have hone : (Rules.ofWorld signed).Gives 5 s i env (.ok ⟨⟨i, ["sign"]⟩, true, i, .null⟩) :=
    ⟨0, 1, rfl⟩
  exact Except.ok.inj (h.unique hone)

/-- At the end of the text the sign and the character are missed: the sign once for each time it was
tried. -/
theorem run_factored_signed : ∃ result w₁ result' w₂,
    ComesTo (applyFunction []) 8 [] 0 .null signed (.ok result) w₁ ∧
    ComesTo (applyFunction []) 10 [] 0 .null signed (.ok result') w₂ ∧
    result.toReport = ⟨0, ["sign", "any character", "sign"]⟩ ∧
    result'.toReport = ⟨0, ["any character", "sign"]⟩ ∧
    SameButRepeats w₁.names w₂.names (.ok result) (.ok result') := by
  obtain ⟨result, w₁, hrun, hreport⟩ : ∃ result w₁,
      (tools (applyFunction []) 9 9).run 8 [] 0 .null signed = settledIn (.ok result) w₁ ∧
      result.toReport = ⟨0, ["sign", "any character", "sign"]⟩ := ⟨_, _, rfl, rfl⟩
  obtain ⟨result', w₂, hrun', hreport'⟩ : ∃ result' w₂,
      (tools (applyFunction []) 9 9).run 10 [] 0 .null signed = settledIn (.ok result') w₂ ∧
      result'.toReport = ⟨0, ["any character", "sign"]⟩ := ⟨_, _, rfl, rfl⟩
  have hplain : (Bond.ofObjects Function 11).objects 8 = some 8 := rfl
  have hfactored : (Bond.ofObjects Function 11).objects 10 = some 10 := rfl
  have hsign : ∀ result, (Rules.ofWorld signed).Gives 5 [] 0 .null (.ok result) →
      -1 ≤ result.furthest := by
    intro result h
    rw [gives_sign h]
    decide
  obtain ⟨-, hsame⟩ := run_factored (pureFunctions_ofWorld (applyFunction []) signed) factors_signed
    faithful_signed faithful_signed hplain hfactored .null .null [] 0 hsign
  exact ⟨result, w₁, result', w₂, ⟨9, 9, hrun⟩, ⟨9, 9, hrun'⟩, hreport, hreport',
    hsame _ _ _ _ ⟨9, 9, hrun⟩ ⟨9, 9, hrun'⟩⟩

end

end Machine

end Furthest
