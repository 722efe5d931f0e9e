import Furthest.Proofs.Deferred.History
import Furthest.Proofs.Expressions.Level
import Furthest.Script.Eval

/-!
# Parsing expressions

A parse of a whole text with the parser of an operator table gives a value exactly where the text is
a phrase of the top level, and the value is that of the only derivation of the text
(`Machine.parse_expression`).
-/

namespace Furthest

open Filter

variable {φ : Type} [FunctionText φ]

omit [FunctionText φ] in
theorem Result.outcome_of_erased_some {result : Result (Value φ)} {k : Nat} {v : Value φ}
    (h : result.erased = some (k, v)) : result.outcome = .ok v := by
  obtain ⟨hs, -, rfl⟩ := Result.erased_eq_some.1 h
  rw [outcome, if_pos hs]

omit [FunctionText φ] in
theorem Result.outcome_of_erased_none {result : Result (Value φ)} (h : result.erased = none) :
    result.outcome = .error result.toReport := by
  rw [outcome, Result.erased_eq_none.1 h, if_neg Bool.false_ne_true]

omit [FunctionText φ] in
theorem Related.exists_ok {α β : Type} {B : Bond φ} {Q : α → β → Prop} {o : Except (Fault φ) α}
    {b : β} (h : Related B Q o (.ok b)) : ∃ a, o = .ok a ∧ Q a b := by
  obtain ⟨hab⟩ := h
  exact ⟨_, rfl, hab⟩

namespace Rules

variable {R : Rules φ} {D : Value φ → Prop} {L : Phrases (Value φ)} {more : Char → Prop}
  {g : Grammar φ} {s : Input} {i : Nat} {env : Value φ} {r : Ref}

/-! ## Whole texts -/

/-- What a grammar reads has one derivation for a text at most. -/
theorem Reads.unique (h : R.Reads g L more) {t t' : L.Tree} (ht : L.text t = s)
    (ht' : L.text t' = s) : t = t' := by
  have hends := ends_length more s
  cases h s .null 0 with
  | found u _ _ _ hunique =>
    exact (hunique t _ (lies_whole.2 ht) hends).trans (hunique t' _ (lies_whole.2 ht') hends).symm
  | absent _ hno => exact absurd (lies_whole.2 ht) (hno t _)

theorem answers_eof (heof : R.rule Ref.eof = .eof) (h : s.length ≤ i) :
    R.Answers s env (.object Ref.eof) i (some (i, .null)) := answers_object <| heof ▸
  answers_leaf (f := Leaf.eof) (fun _ => rfl) (by rw [Leaf.eof, if_neg (Nat.not_lt.2 h)]; rfl)

theorem answers_eof_none (heof : R.rule Ref.eof = .eof) (h : i < s.length) :
    R.Answers s env (.object Ref.eof) i none := answers_object <| heof ▸
  answers_leaf (f := Leaf.eof) (fun _ => rfl) (by rw [Leaf.eof, if_pos h]; rfl)

/-- A whole text is a phrase, or there is no match up to its end. -/
theorem Reads.whole (h : R.Reads (.object r) L more) (heof : R.rule Ref.eof = .eof) (s : Input)
    (env : Value φ) :
    (∃ t, L.text t = s ∧
      R.Answers s env (Grammar.whole (.object r)) 0 (some (s.length, L.value t))) ∨
    ((∀ t, L.text t ≠ s) ∧ R.Answers s env (Grammar.whole (.object r)) 0 none) := by
  cases h s env 0 with
  | absent hnone hno =>
    exact Or.inr ⟨fun t ht => hno t _ (lies_whole.2 ht),
      answers_mapEnv_none _ (answers_seq (answersSeq_cons_none hnone))⟩
  | found t j hlies ht hunique =>
    rcases Nat.lt_or_ge j s.length with hj | hj
    · have hend : R.AnswersSeq s env [.object Ref.eof] j none :=
        answersSeq_cons_none (answers_eof_none heof hj)
      have hseq := answersSeq_cons ht hend
      refine Or.inr ⟨fun t' ht' => ?_, answers_mapEnv_none _ (answers_seq hseq)⟩
      have hlies' := lies_whole.2 ht'
      obtain rfl := hunique t' _ hlies' (ends_length more s)
      exact absurd (hlies.stop_unique hlies') (Nat.ne_of_lt hj)
    · have hseq := answersSeq_cons ht (answersSeq_cons (answers_eof heof hj) answersSeq_nil)
      have hle : j ≤ s.length := by
        obtain ⟨hinit, rfl⟩ := lies_iff.1 hlies
        simpa using hinit.length_le
      obtain rfl := Nat.le_antisymm hle hj
      exact Or.inl ⟨t, lies_whole.1 hlies, answers_mapEnv (answers_seq hseq) ⟨(0, 0), rfl⟩⟩

/-- A grammar answers the same within larger bounds, if it answers at all. -/
theorem denote_within_mono {b b' : Nat × Nat} (hb : b ≤ b')
    {o : Except (Fault φ) (Result (Value φ))} (h : g.denote (R.within b) s i env = settled o) :
    g.denote (R.within b') s i env = settled o := by
  have hosts : (settledBelow φ).Hosts () (R.within b) (R.within b') := hosts_within hb
  have hdenote := Pairing.like_denote hosts (Grammar.like_same g) () (le_refl _) s i env env rfl
  refine eq_settled_of_settledBelow ⟨fun a ha => ?_, hdenote.2⟩ h
  obtain ⟨b, hb, hab⟩ := hdenote.1 a ha
  exact ⟨b, hb, Likeness.results_same.1 hab⟩

theorem parse_within (b : Nat × Nat) (r : Ref) (s : Input) (env : Value φ) :
    (R.within b).parse r s env =
      Result.outcome <$> (Grammar.whole (.object r)).denote (R.within b) s 0 env := by
  show ((Grammar.whole (.object r)).denote (R.within b) s 0 env >>= _) = _
  cases (Grammar.whole (.object r)).denote (R.within b) s 0 env with
  | error e => rfl
  | ok result =>
    rw [ok_bind]
    cases hs : result.status <;> rfl

/-- A parse within some bounds comes to the outcome of what is matched. -/
theorem outcome_of_parse {o : Option (Nat × Value φ)}
    (h : R.Answers s env (Grammar.whole (.object r)) 0 o) {b : Nat × Nat}
    {out : Except (Fault φ) (Outcome φ)} (hout : (R.within b).parse r s env = settled out) :
    ∃ result : Result (Value φ), out = .ok result.outcome ∧ result.erased = o := by
  obtain ⟨b', hb, result, hresult, herased⟩ := ((eventually_ge_atTop b).and h).exists
  rw [parse_within, map_eq_pure_bind] at hout
  rcases bind_eq_settled hout with ⟨result', hresult', hpure⟩ | ⟨e, rfl, herror⟩
  · have hsame := (denote_within_mono hb hresult').symm.trans hresult
    obtain rfl := Except.ok.inj hsame
    exact ⟨result', (settled_inj (o := .ok _) hpure).symm, herased⟩
  · cases (denote_within_mono hb herror).symm.trans hresult

theorem exists_parse {o : Option (Nat × Value φ)}
    (h : R.Answers s env (Grammar.whole (.object r)) 0 o) :
    ∃ b out, (R.within b).parse r s env = settled out := by
  obtain ⟨b, result, hresult, -⟩ := h.exists
  refine ⟨b, .ok result.outcome, ?_⟩
  rw [parse_within, hresult]
  rfl

/-! ## Tables -/

/-- An object is what is built from a table over a term: the term itself where there are no rows. -/
def Builds (R : Rules φ) (table term : Value φ) (r : Ref) : Prop :=
  ∃ built, Checked.operatorTable table term = .ok built ∧
    match built with
    | none => term = .parser r
    | some c => R.rule r = c.behaviour

/-- A table over terms, which are the runs of a class of characters: operators and terms do what the
table says, and their characters differ where they may be taken for each other. -/
structure Tabulates (R : Rules φ) (D : Value φ → Prop) (rows : List (Row φ)) (term : Ref)
    (cls : Char → Bool) (value : List Char → Value φ) : Prop extends R.SuitsAll D rows where
  takes : R.TakesRuns (.object term) cls value
  value_mem (cs : List Char) : cs ≠ [] → (∀ c ∈ cs, cls c) → D (value cs)
  apart : ∀ row ∈ rows, ∀ op ∈ row.operators, ¬cls op.symbol

section

variable {rows : List (Row φ)} {term : Ref} {cls : Char → Bool} {value : List Char → Value φ}

/-- The object that is built from a table reads the top level. -/
theorem Tabulates.reads (h : R.Tabulates D rows term cls value)
    (hr : R.Builds (.list (rows.map Row.toValue)) (.parser term) r) :
    ∃ more, R.Reads (.object r) ((Phrases.runs cls value).table rows) more := by
  have hterm : R.Readable D (.object term) (.runs cls value) (fun c => cls c) fun c => cls c := by
    refine ⟨h.takes.reads, ?_, fun cs => h.value_mem cs.1 cs.2.1 cs.2.2⟩
    rintro ⟨cs, hne, hcs⟩
    obtain ⟨c, cs, rfl⟩ := List.exists_cons_of_ne_nil hne
    exact ⟨c, cs, rfl, hcs c List.mem_cons_self⟩
  have hapart : ∀ row ∈ rows, ∀ place, ∀ c ∈ row.symbolsAt place, ¬cls c := by
    rintro row hrow place c hc
    obtain ⟨op, hop, rfl⟩ := List.mem_map.1 hc
    exact h.apart row hrow op (Row.mem_operatorsAt.1 hop).1
  obtain ⟨_, more, htable⟩ := hterm.table h.toSuitsAll
    (fun c hc => by
      obtain ⟨row, hrow, hc⟩ := List.mem_flatMap.1 hc
      exact hapart row hrow .before c hc)
    fun c hc => by
      obtain ⟨row, hrow, hc⟩ := List.mem_flatMap.1 hc
      rcases List.mem_append.1 hc with hc | hc
      · exact hapart row hrow .between c hc
      · exact hapart row hrow .after c hc
  refine ⟨more, ?_⟩
  obtain ⟨built, hbuilt, hrule⟩ := hr
  cases rows with
  | nil =>
    cases hbuilt
    cases hrule
    exact htable.reads
  | cons row rows =>
    rw [Checked.operatorTable_rows] at hbuilt
    cases hbuilt
    exact (hrule ▸ htable.reads : R.Reads (R.rule r) _ more).object

end

end Rules

namespace Machine

variable {apply : Tools φ → φ → List (Value φ) → Machine φ (Value φ)} {R : Rules φ}
  {B : Bond φ} {w : World φ}

/-- Parsing a whole text comes to an outcome within some bounds, and leaves a world. -/
def ParsesTo (apply : Tools φ → φ → List (Value φ) → Machine φ (Value φ)) (r : Ref) (s : Input)
    (env : Value φ) (w : World φ) (o : Except (Fault φ) (Outcome φ)) (w' : World φ) : Prop :=
  ∃ budget depth, (host (tools apply budget depth)).parse r s env w = settledIn o w'

/-- What a parse says of a text: the value of a derivation, if objects and functions in it are taken
for what they stand for, or an error where there is no derivation. -/
inductive Decides (L : Phrases (Value φ)) (B : Bond φ) (s : Input) :
    Except (Fault φ) (Outcome φ) → Prop where
  | ok (v : Value φ) (t : L.Tree) : L.text t = s → Value.Like B v (L.value t) →
    Decides L B s (.ok (.ok v))
  | error (report : Report) : (∀ t, L.text t ≠ s) → Decides L B s (.ok (.error report))

/-- An object that stands for one that reads phrases decides whether a text is one. -/
theorem decides_of_reads (hpure : ∀ budget, PureFunctions apply budget R)
    (hw : Faithful R B w) (heof : R.rule Ref.eof = .eof) {L : Phrases (Value φ)}
    {more : Char → Prop} {r r' : Ref} (hreads : R.Reads (.object r') L more)
    (hr : B.objects r = some r') {env env' : Value φ} (henv : Value.Like B env env') {s : Input}
    {o : Except (Fault φ) (Outcome φ)} {w' : World φ} (h : ParsesTo apply r s env w o w') :
    ∃ B', B ≤ B' ∧ Decides L B' s o := by
  obtain ⟨budget, depth, hrun⟩ := h
  obtain ⟨B', o', hB', -, hrelated, hsettled⟩ :=
    (agrees_parse (hpure budget) hw hr henv s).forth hrun
  obtain ⟨n, hn⟩ := hsettled.exists
  have hparse : (R.within (budget, n)).parse r' s env' = settled o' := hn
  refine ⟨B', hB', ?_⟩
  rcases hreads.whole heof s env' with ⟨t, htext, hwhole⟩ | ⟨hno, hwhole⟩
  · obtain ⟨result, rfl, herased⟩ := Rules.outcome_of_parse hwhole hparse
    obtain ⟨outcome, rfl, hlike⟩ := hrelated.exists_ok
    rw [Result.outcome_of_erased_some herased] at hlike
    cases outcome with
    | ok v =>
      cases hlike with
      | ok hlike => exact .ok v t htext hlike
    | error report => cases hlike
  · obtain ⟨result, rfl, herased⟩ := Rules.outcome_of_parse hwhole hparse
    obtain ⟨outcome, rfl, hlike⟩ := hrelated.exists_ok
    rw [Result.outcome_of_erased_none herased] at hlike
    cases outcome with
    | ok v => cases hlike
    | error report => exact .error report hno

/-- A parse with the parser of an operator table ends, and gives a value exactly where the text is a
phrase of the top level; otherwise it gives an error.  The phrase has one derivation, and the value
is that of the derivation, if the objects and functions in it are taken for what they stand for. -/
theorem parse_expression (hpure : ∀ budget, PureFunctions apply budget R)
    (hw : Faithful R B w) (heof : R.rule Ref.eof = .eof) {D : Value φ → Prop}
    {rows : List (Row φ)} {term : Ref} {cls : Char → Bool} {value : List Char → Value φ}
    (htable : R.Tabulates D rows term cls value) {r r' : Ref}
    (hbuilt : R.Builds (.list (rows.map Row.toValue)) (.parser term) r')
    (hr : B.objects r = some r') {env env' : Value φ} (henv : Value.Like B env env') (s : Input) :
    let L := (Phrases.runs cls value).table rows
    (∃ o w', ParsesTo apply r s env w o w') ∧ ∀ o w', ParsesTo apply r s env w o w' →
      ((∃ v, o = .ok (.ok v)) ↔ ∃ t, L.text t = s) ∧
      ((∃ report, o = .ok (.error report)) ↔ ¬∃ t, L.text t = s) ∧
      ∀ v t, o = .ok (.ok v) → L.text t = s → (∀ t', L.text t' = s → t' = t) ∧
        (∃ B', B ≤ B' ∧ Value.Like B' v (L.value t)) ∧ ((L.value t).Plain → v = L.value t) := by
  intro L
  obtain ⟨more, hreads⟩ := htable.reads hbuilt
  refine ⟨?_, fun o w' h => ?_⟩
  · obtain ⟨o, hwhole⟩ : ∃ o, R.Answers s env' (Grammar.whole (.object r')) 0 o :=
      (hreads.whole heof s env').elim (fun ⟨_, _, h⟩ => ⟨_, h⟩) fun ⟨_, h⟩ => ⟨_, h⟩
    obtain ⟨⟨budget, depth⟩, out, hout⟩ := Rules.exists_parse hwhole
    obtain ⟨_, o, w', -, -, -, hruns⟩ :=
      (agrees_parse (hpure budget) (k := depth) hw hr henv s).back hout
    obtain ⟨n, hn⟩ := hruns.exists
    exact ⟨o, w', budget, n, hn⟩
  · obtain ⟨B', hB', hdecides⟩ := decides_of_reads hpure hw heof hreads hr henv h
    cases hdecides with
    | ok v t htext hlike =>
      refine ⟨⟨fun _ => ⟨t, htext⟩, fun _ => ⟨v, rfl⟩⟩,
        ⟨nofun, fun hno => absurd ⟨t, htext⟩ hno⟩, ?_⟩
      rintro v' t' ⟨⟩ htext'
      obtain rfl := hreads.unique htext' htext
      exact ⟨fun t₁ ht₁ => hreads.unique ht₁ htext', ⟨B', hB', hlike⟩,
        fun hplain => hlike.eq_of_plain (hlike.plain_iff.2 hplain)⟩
    | error report hno =>
      exact ⟨⟨nofun, fun ⟨t, ht⟩ => absurd ht (hno t)⟩,
        ⟨fun _ ⟨t, ht⟩ => hno t ht, fun _ => ⟨report, rfl⟩⟩, nofun⟩

/-! ## Sums -/

section

open Script (Function ScriptFault applyFunction Val)

/-- A function that puts its argument into a list. -/
def negation : Function := .closure none ["a"] (.list [.ref "a"]) []

/-- A function that puts its arguments into a list. -/
def addition : Function := .closure none ["a", "b"] (.list [.ref "a", .ref "b"]) []

/-- A function that gives another one, whatever it is applied to. -/
def giving (f : Function) : Function := .closure none ["c"] (.ref "f") [("f", .function f)]

/-- A minus before an operand. -/
def minus : Operator Function := ⟨.before, '-', 6, negation, .list⟩

/-- A plus between operands. -/
def plus : Operator Function := ⟨.between, '+', 8, addition, .list⟩

/-- A minus binds more tightly than a plus. -/
def sumRows : List (Row Function) := [⟨[minus], .left⟩, ⟨[plus], .left⟩]

/-- The world before the table is built: the operators, and terms of ones. -/
def sumParts : World Function :=
  { World.initial with
    cells := World.initial.cells ++ #[⟨.string "-", .null⟩,
      ⟨.mapEnv (.object 5) (.value (.function (giving negation))), .null⟩, ⟨.string "+", .null⟩,
      ⟨.mapEnv (.object 7) (.value (.function (giving addition))), .null⟩, ⟨.string "1", .null⟩,
      ⟨.many1 (.object 9), .null⟩] }

/-- The world with the parser of the table. -/
def sums : World Function :=
  { sumParts with
    cells := sumParts.cells.push
      ⟨Grammar.operatorTable (sumRows.map Row.toOperatorRow) (.object 10), .null⟩ }

/-- The functions of that world. -/
def sumFunctions : List Function := [negation, addition, giving negation, giving addition]

/-- The objects and functions of that world, each for itself. -/
def sumBond : Bond Function where
  objects r := if r < 12 then some r else none
  deferrals _ := none
  functions f f' := f' = f ∧ f ∈ sumFunctions
  thunks _ _ := False

/-- What the functions of that world compute. -/
def sumApply : Function → List Val → Except (Fault Function) Val
  | .closure _ params _ scope, args =>
    if args.length = params.length then
      .ok (match scope with
        | [(_, v)] => v
        | _ => .list args)
    else .error (ScriptFault.wrongCount params.length args.length).toFault
  | .named _, _ => .error .noAlternatives

/-- What that world says of its objects. -/
def sumRules : Rules Function where
  rule r := (sums.cell r).behaviour
  target _ := 0
  names := sums.names
  apply := sumApply
  answers {r f args v} h _ := by
    match r, h with
    | 0, h | 1, h | 2, h | 3, h | 4, h | 5, h | 6, h | 7, h | 8, h | 9, h | 10, h | 11, h
    | _ + 12, h => cases h
  admits B := (∀ f f', B.functions f f' → f' = f ∧ f ∈ sumFunctions) ∧
    B.functions negation negation ∧ B.functions addition addition ∧ ∀ d, B.deferrals d = none
  admits_insert h _ := h

theorem call_closure (budget depth : Nat) (w : World Function) (name? : Option String)
    (params : List String) (body : Script.Term) (scope : Script.Scope) (args : List Val) :
    (tools (applyFunction []) budget (depth + 1)).call
        (.function (.closure name? params body scope)) args w =
      if args.length = params.length then
        Script.eval (tools (applyFunction []) budget depth) []
          ((params.zip args).reverse ++ scope) body w
      else .error (.fault (ScriptFault.wrongCount params.length args.length).toFault) w := by
  simp only [tools, callValue, applyFunction]
  split <;> rfl

theorem call_giving (f : Function) (budget depth : Nat) (w : World Function) (args : List Val) :
    (tools (applyFunction []) budget (depth + 1)).call (.function (giving f)) args w =
      settledIn (sumApply (giving f) args) w := by
  simp only [giving, call_closure, sumApply]
  split
  · next h =>
    obtain ⟨c, rfl⟩ := List.length_eq_one_iff.1 h
    simp only [Script.eval, Script.lookUp]
    rfl
  · rfl

/-- A function of that world, applied to as many arguments as it takes or not. -/
theorem call_sumFunction {f : Function} (hf : f ∈ sumFunctions) (budget depth : Nat)
    (w : World Function) (args : List Val) :
    (tools (applyFunction []) budget (depth + 1)).call (.function f) args w =
      settledIn (sumApply f args) w := by
  simp only [sumFunctions, List.mem_cons, List.not_mem_nil, or_false] at hf
  rcases hf with rfl | rfl | rfl | rfl
  · simp only [negation, call_closure, sumApply]
    split
    · next h =>
      obtain ⟨a, rfl⟩ := List.length_eq_one_iff.1 h
      simp only [Script.eval, Script.evalAll, Script.lookUp]
      rfl
    · rfl
  · simp only [addition, call_closure, sumApply]
    split
    · next h =>
      obtain ⟨a, b, rfl⟩ := List.length_eq_two.1 h
      simp only [Script.eval, Script.evalAll, Script.lookUp]
      rfl
    · rfl
  · exact call_giving negation budget depth w args
  · exact call_giving addition budget depth w args

/-- The values that a function of that world computes from values that stand for each other stand
for each other, as do the errors. -/
theorem sumApply_like {B : Bond Function} (hnegation : B.functions negation negation)
    (haddition : B.functions addition addition) {f : Function} (hf : f ∈ sumFunctions)
    {args args' : List Val} (hargs : List.Forall₂ (Value.Like B) args args') :
    Related B (Value.Like B) (sumApply f args) (sumApply f args') := by
  have hlist := Value.Like.list (Value.likeAll_iff.2 hargs)
  obtain ⟨name?, params, body, scope, rfl, hresult⟩ : ∃ name? params body scope,
      f = .closure name? params body scope ∧
      (scope = [] ∨ ∃ g, scope = [("f", .function g)] ∧ B.functions g g) := by
    simp only [sumFunctions, List.mem_cons, List.not_mem_nil, or_false] at hf
    rcases hf with rfl | rfl | rfl | rfl
    · exact ⟨_, _, _, _, rfl, Or.inl rfl⟩
    · exact ⟨_, _, _, _, rfl, Or.inl rfl⟩
    · exact ⟨_, _, _, _, rfl, Or.inr ⟨_, rfl, hnegation⟩⟩
    · exact ⟨_, _, _, _, rfl, Or.inr ⟨_, rfl, haddition⟩⟩
  simp only [sumApply, hargs.length_eq]
  split
  · rcases hresult with rfl | ⟨g, rfl, hg⟩
    · exact .ok hlist
    · exact .ok (.function hg)
  · exact .error (.raised _ _)

theorem pureFunctions_sums (budget : Nat) :
    PureFunctions (applyFunction []) budget sumRules where
  call {B w f _ args args'} hw hf hargs := by
    obtain ⟨hfunctions, hnegation, haddition, -⟩ := hw.admitted
    obtain ⟨rfl, hmem⟩ := hfunctions _ _ hf
    have hcall := settlesIn_call fun n => call_sumFunction hmem budget n w args
    exact ⟨_, w, B, hcall, le_refl B, ⟨hw, fun _ => rfl, fun _ => rfl⟩,
      sumApply_like hnegation haddition hmem hargs⟩
  thunk hw hd := by
    rw [hw.admitted.2.2.2] at hd
    cases hd

/-- The grammar of the table has bonded objects in it only. -/
theorem like_sums : (sums.cell 11).behaviour.Like (Bond.likeness Function) sumBond
    (sums.cell 11).behaviour := by
  have hnone : (Grammar.succeed (.list [])).Like (Bond.likeness Function) sumBond
      (.succeed (.list [])) := .succeed (.list .nil)
  have hminus : (Grammar.anyOptional [.object 6]).Like (Bond.likeness Function) sumBond
      (.anyOptional [.object 6]) :=
    .alt (.mapEnv (.alt (.object rfl) .nil) .singleton) (.cons hnone .nil)
  have hterm : (Grammar.unary ⟨[.object 6], [], [], [], []⟩ (.object 10)).Like
      (Bond.likeness Function) sumBond (.unary ⟨[.object 6], [], [], [], []⟩ (.object 10)) :=
    .mapEnv (.seq (.cons hminus (.cons (.object rfl) (.cons hnone .nil)))) .surround
  have hoperand := Grammar.Like.mapEnv
    (.seq (.cons hnone (.cons hterm (.cons hnone .nil)))) Callback.Like.surround
  have hpair := Grammar.Like.seq (.cons (.alt (.object (r := 8) rfl) .nil) (.cons hoperand .nil))
  exact .mapEnv (.seq (.cons hoperand (.cons (.times _ _ hpair) .nil))) .foldLeft

theorem faithful_sums : Faithful sumRules sumBond sums where
  models := by
    have hobjects : ∀ {r r'}, sumBond.objects r = some r' ↔ r < 12 ∧ r = r' := by
      simp [sumBond]
    have hnegation : sumBond.functions negation negation := ⟨rfl, by simp [sumFunctions]⟩
    have haddition : sumBond.functions addition addition := ⟨rfl, by simp [sumFunctions]⟩
    refine ⟨rfl, ⟨fun _ _ => id, hnegation, haddition, fun _ => rfl⟩, fun hr => (hobjects.1 hr).1,
      ?_, nofun, nofun, ?_, ?_, ?_⟩
    · intro r r' hr
      obtain ⟨hr, rfl⟩ := hobjects.1 hr
      refine .rule ?_
      match r, hr with
      | 0, _ => exact .offset
      | 1, _ => exact .position
      | 2, _ => exact .eof
      | 3, _ => exact .anyChar
      | 4, _ => exact .rest
      | 5, _ | 7, _ | 9, _ => exact .string _
      | 6, _ => exact .mapEnv (.object rfl) (.value (.function ⟨rfl, by simp [sumFunctions]⟩))
      | 8, _ => exact .mapEnv (.object rfl) (.value (.function ⟨rfl, by simp [sumFunctions]⟩))
      | 10, _ => exact .times _ _ (.object rfl)
      | 11, _ => exact like_sums
    · intro r r' hr
      obtain ⟨-, rfl⟩ := hobjects.1 hr
      rfl
    · rintro f f' ⟨rfl, -⟩
      rfl
    · rintro f f' ⟨rfl, -⟩
      rfl
  counted _ := ⟨Nat.zero_le 1, fun _ => rfl⟩

/-- The list of the characters of a run. -/
def onesValue (cs : List Char) : Val := .list (cs.map fun c => .text c.toString)

theorem tabulates_sums :
    sumRules.Tabulates (fun _ => True) sumRows 10 (· == '1') onesValue where
  implements := by
    simp only [sumRows, List.mem_cons, List.not_mem_nil, or_false]
    rintro row (rfl | rfl) op hop
    all_goals
      obtain rfl := List.mem_singleton.1 hop
      refine Rules.implements_of_literal rfl rfl rfl fun args hlength _ => ⟨?_, trivial⟩
      exact if_pos hlength
  opening := by decide
  closing := by decide
  takes := by
    have hone : sumRules.TakesOne (.object 9) (· == '1') := .object (Rules.takesOne_string '1')
    exact .object hone.many1
  value_mem _ _ _ := trivial
  apart := by
    simp [sumRows, minus, plus]

theorem expressionParser_eq (t : Tools Function) (table term : Val) (w : World Function) :
    Script.expressionParser t [table, term] w = match Checked.operatorTable table term with
      | .ok (some c) => .ok (.parser w.cells.size) { w with cells := w.cells.push c }
      | .ok none => .ok term w
      | .error e => .error (.fault e) w := by
  show (Script.Primitive.demand (Checked.operatorTable table term) >>= _) w = _
  cases Checked.operatorTable table term with
  | error e => rfl
  | ok built => cases built <;> rfl

/-- The object that a script gets for a table and a term is what is built from them. -/
theorem builds_of_expressionParser {R : Rules Function} {t : Tools Function} {table term : Val}
    {w w' : World Function} {r : Ref}
    (h : Script.expressionParser t [table, term] w = .ok (.parser r) w')
    (hrule : R.rule r = (w'.cell r).behaviour) : R.Builds table term r := by
  rw [expressionParser_eq] at h
  cases hbuilt : Checked.operatorTable table term with
  | error e =>
    rw [hbuilt] at h
    cases h
  | ok built =>
    rw [hbuilt] at h
    refine ⟨built, hbuilt, ?_⟩
    cases built with
    | none =>
      cases h
      rfl
    | some c =>
      cases h
      rw [hrule, World.cell_push, if_pos rfl]

theorem builds_sums : sumRules.Builds (.list (sumRows.map Row.toValue)) (.parser 10) 11 := by
  have hbuilt : Script.expressionParser (tools (applyFunction []) 0 0)
      [.list (sumRows.map Row.toValue), .parser 10] sumParts = .ok (.parser 11) sums := rfl
  exact builds_of_expressionParser hbuilt rfl

/-- The terms of sums. -/
abbrev ones : Phrases Val := .runs (· == '1') onesValue

/-- A one, as a phrase of the first row. -/
def one : (ones.level ⟨[minus], .left⟩).Tree := ⟨⟨none, ⟨['1'], by simp⟩, none⟩, [], nofun⟩

/-- A negated one, as a phrase of the first row. -/
def minusOne : (ones.level ⟨[minus], .left⟩).Tree :=
  ⟨⟨some ⟨minus, List.mem_singleton_self _⟩, ⟨['1'], by simp⟩, none⟩, [], nofun⟩

/-- The sum of a one and a negated one. -/
def onePlusMinusOne : (ones.table sumRows).Tree :=
  ⟨⟨none, one, none⟩, [(⟨plus, List.mem_singleton_self _⟩, ⟨none, minusOne, none⟩)], nofun⟩

/-- The value of `"1+-1"` is that of its derivation. -/
theorem parse_expression_sums : ∃ o w',
    ParsesTo (applyFunction []) 11 "1+-1".toList .null sums o w' ∧
    o = .ok (.ok (.list [.list [.text "1"], .list [.list [.text "1"]]])) := by
  obtain ⟨⟨o, w', h⟩, hall⟩ := parse_expression pureFunctions_sums faithful_sums rfl tabulates_sums
    builds_sums (r := 11) rfl .null "1+-1".toList
  obtain ⟨hiff, -, hvalue⟩ := hall o w' h
  obtain ⟨v, rfl⟩ := hiff.2 ⟨onePlusMinusOne, rfl⟩
  obtain ⟨-, -, hplain⟩ := hvalue v onePlusMinusOne rfl rfl
  refine ⟨_, w', h, ?_⟩
  rw [hplain ⟨⟨trivial, trivial⟩, ⟨⟨trivial, trivial⟩, trivial⟩, trivial⟩]
  rfl

end

end Machine

end Furthest
