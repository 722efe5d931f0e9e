import Furthest.Proofs.Expressions.Table
import Furthest.Proofs.OrderedChoice.Complete

/-!
# Grammars that read phrases

`Rules.Reads` says that a grammar reads phrases without looking back: at every offset it takes a
phrase, or it fails and no phrase stands there.  It takes the longest one: a phrase that is not
followed by a character of `more`, one with which phrases may go on, is the one that is taken.

The rules below go through the ways in which grammars are put together.  In a sequence, whatever
stands after a part must not begin with a character with which that part goes on; in a repetition,
nor must the repeated part itself.
-/

namespace Furthest

variable {φ α β : Type}

/-! ## Texts within texts -/

/-- Characters stand in a text from one offset to another. -/
def Lies (s : Input) : Nat → List Char → Nat → Prop
  | i, [], j => i = j
  | i, c :: cs, j => s[i]? = some c ∧ Lies s (i + 1) cs j

/-- No character of a class stands at an offset. -/
def Ends (more : Char → Prop) (s : Input) (i : Nat) : Prop := ∀ c, s[i]? = some c → ¬more c

section

variable {s : Input} {i j j' k : Nat} {cs ds : List Char} {more more' : Char → Prop}

theorem lies_append : Lies s i (cs ++ ds) k ↔ ∃ j, Lies s i cs j ∧ Lies s j ds k := by
  induction cs generalizing i with
  | nil => simp [Lies]
  | cons c cs ih =>
    simp only [List.cons_append, Lies, ih, and_assoc]
    exact exists_and_left.symm

theorem Lies.stop_eq (h : Lies s i cs j) : j = i + cs.length := by
  induction cs generalizing i with
  | nil => exact h.symm
  | cons c cs ih =>
    rw [ih h.2, List.length_cons]
    omega

theorem Lies.stop_unique (h : Lies s i cs j) (h' : Lies s i cs j') : j = j' :=
  h.stop_eq.trans h'.stop_eq.symm

theorem lies_iff : Lies s i cs j ↔ cs <+: s.drop i ∧ j = i + cs.length := by
  induction cs generalizing i with
  | nil => simp [Lies, eq_comm]
  | cons c cs ih =>
    have hhead : s[i]? = (s.drop i)[0]? := by rw [List.getElem?_drop, Nat.add_zero]
    have htail : s.drop (i + 1) = (s.drop i).drop 1 := by rw [List.drop_drop]
    simp only [Lies, ih, hhead, htail, List.length_cons]
    cases s.drop i with
    | nil => simp
    | cons d ds =>
      simp only [List.getElem?_cons_zero, Option.some.injEq, List.drop_succ_cons, List.drop_zero,
        List.cons_prefix_cons, and_assoc, Nat.add_right_comm i 1, Nat.add_assoc]
      rw [eq_comm]

theorem lies_whole : Lies s 0 cs s.length ↔ cs = s := by
  rw [lies_iff, List.drop_zero, Nat.zero_add]
  constructor
  · rintro ⟨h, hlength⟩
    exact h.eq_of_length hlength.symm
  · rintro rfl
    exact ⟨List.prefix_rfl, rfl⟩

theorem Ends.mono (h : Ends more s i) (hmore : ∀ c, more' c → more c) : Ends more' s i :=
  fun c hc hm => h c hc (hmore c hm)

theorem ends_length (more : Char → Prop) (s : Input) : Ends more s s.length := fun c hc => by
  rw [List.getElem?_eq_none (le_refl _)] at hc
  cases hc

/-- Nothing of a class stands where something else begins. -/
theorem Lies.ends (h : Lies s i cs j) (hcs : ∀ c ds, cs = c :: ds → ¬more c)
    (hnil : cs = [] → Ends more s j) : Ends more s i := by
  cases cs with
  | nil =>
    obtain rfl := h
    exact hnil rfl
  | cons c cs =>
    intro d hd
    obtain rfl := Option.some.inj (h.1.symm.trans hd)
    exact hcs c cs rfl

end

/-! ## Reading -/

/-- What is answered at an offset is a phrase that stands there, the only one that is not followed
by a character of `more`; or nothing is, and no phrase stands there. -/
inductive ReadsAt (answers : Option (Nat × α) → Prop) (L : Phrases α) (more : Char → Prop)
    (s : Input) (i : Nat) : Prop where
  | found (t : L.Tree) (j : Nat) : Lies s i (L.text t) j → answers (some (j, L.value t)) →
    (∀ t' j', Lies s i (L.text t') j' → Ends more s j' → t' = t) → ReadsAt answers L more s i
  | absent : answers none → (∀ t j, ¬Lies s i (L.text t) j) → ReadsAt answers L more s i

namespace Phrases

/-- The same phrases with other values. -/
def map (L : Phrases α) (f : α → β) : Phrases β := { L with value := fun t => f (L.value t) }

/-- A phrase and then others. -/
def followedBy (L : Phrases α) (M : Phrases (List α)) : Phrases (List α) where
  Tree := L.Tree × M.Tree
  text t := L.text t.1 ++ M.text t.2
  value t := L.value t.1 :: M.value t.2

/-- A phrase or nothing, which has a value of its own. -/
def option (v : α) (L : Phrases α) : Phrases α where
  Tree := Option L.Tree
  text
    | none => []
    | some t => L.text t
  value
    | none => v
    | some t => L.value t

/-- Any number of phrases. -/
def many (L : Phrases α) : Phrases (List α) where
  Tree := List L.Tree
  text ts := ts.flatMap L.text
  value ts := ts.map L.value

/-- The symbols of operators, which have their functions as values. -/
def symbols (ops : List (Operator φ)) : Phrases (Value φ) where
  Tree := { op : Operator φ // op ∈ ops }
  text op := [op.1.symbol]
  value op := .function op.1.function

/-- The phrases that are not empty begin with characters of a class. -/
def BeginsIn (L : Phrases α) (start : Char → Prop) : Prop :=
  ∀ t c cs, L.text t = c :: cs → start c

/-- No phrase is empty, and each begins with a character of a class. -/
def StartsIn (L : Phrases α) (start : Char → Prop) : Prop :=
  ∀ t, ∃ c cs, L.text t = c :: cs ∧ start c

variable {L : Phrases α} {M : Phrases (List α)} {start start' : Char → Prop}

theorem StartsIn.mono (h : L.StartsIn start) (hstart : ∀ c, start c → start' c) :
    L.StartsIn start' := fun t => by
  obtain ⟨c, cs, htext, hc⟩ := h t
  exact ⟨c, cs, htext, hstart c hc⟩

theorem StartsIn.beginsIn (h : L.StartsIn start) : L.BeginsIn start := fun t c cs htext => by
  obtain ⟨d, ds, hd, hstart⟩ := h t
  obtain ⟨rfl, -⟩ := List.cons.inj (hd.symm.trans htext)
  exact hstart

theorem StartsIn.text_ne_nil (h : L.StartsIn start) (t : L.Tree) : L.text t ≠ [] := by
  obtain ⟨c, cs, htext, -⟩ := h t
  rw [htext]
  exact List.cons_ne_nil c cs

theorem StartsIn.map (h : L.StartsIn start) (f : α → β) : (L.map f).StartsIn start := h

theorem BeginsIn.map (h : L.BeginsIn start) (f : α → β) : (L.map f).BeginsIn start := h

theorem StartsIn.followedBy (h : L.StartsIn start) (M : Phrases (List α)) :
    (L.followedBy M).StartsIn start := fun t => by
  obtain ⟨c, cs, htext, hc⟩ := h t.1
  exact ⟨c, cs ++ M.text t.2, congrArg (· ++ M.text t.2) htext, hc⟩

theorem StartsIn.option (h : L.StartsIn start) (v : α) : (L.option v).BeginsIn start
  | none, _, _, htext => by cases htext
  | some t, c, cs, htext => h.beginsIn t c cs htext

theorem StartsIn.many (h : L.StartsIn start) : L.many.BeginsIn start
  | [], _, _, htext => by cases htext
  | t :: ts, c, cs, htext => by
    obtain ⟨d, ds, hd, hstart⟩ := h t
    rw [show L.many.text (t :: ts) = L.text t ++ L.many.text ts from List.flatMap_cons, hd] at htext
    obtain ⟨rfl, -⟩ := List.cons.inj htext
    exact hstart

theorem startsIn_symbols (ops : List (Operator φ)) :
    (symbols ops).StartsIn (· ∈ ops.map Operator.symbol) := fun op =>
  ⟨op.1.symbol, [], rfl, List.mem_map_of_mem op.2⟩

end Phrases

namespace ReadsAt

variable {answers : Option (Nat × α) → Prop} {answers' : Option (Nat × β) → Prop} {L : Phrases α}
  {M : Phrases β} {more more' : Char → Prop} {s : Input} {i : Nat}

theorem mono (h : ReadsAt answers L more s i) (hmore : ∀ c, more c → more' c) :
    ReadsAt answers L more' s i := by
  cases h with
  | found t j hlies ht hunique =>
    exact .found t j hlies ht fun t' j' ht' hends => hunique t' j' ht' (hends.mono hmore)
  | absent hnone hno => exact .absent hnone hno

/-- The same derivations in another form. -/
theorem equiv (h : ReadsAt answers L more s i) (e : L.Tree ≃ M.Tree)
    (htext : ∀ t, M.text (e t) = L.text t)
    (hanswers : ∀ t j, answers (some (j, L.value t)) → answers' (some (j, M.value (e t))))
    (hnone : answers none → answers' none) : ReadsAt answers' M more s i := by
  have hback : ∀ t', L.text (e.symm t') = M.text t' := fun t' => by
    rw [← htext, Equiv.apply_symm_apply]
  cases h with
  | found t j hlies ht hunique =>
    refine .found (e t) j ((htext t).symm ▸ hlies) (hanswers t j ht) fun t' j' ht' hends => ?_
    rw [← hunique (e.symm t') j' ((hback t').symm ▸ ht') hends, Equiv.apply_symm_apply]
  | absent hn hno => exact .absent (hnone hn) fun t' j' ht' => hno _ j' ((hback t').symm ▸ ht')

end ReadsAt

namespace Rules

variable [FunctionText φ] (R : Rules φ)

/-- A grammar reads phrases at every offset of every text, in every environment. -/
def Reads (g : Grammar φ) (L : Phrases (Value φ)) (more : Char → Prop) : Prop :=
  ∀ s env i, ReadsAt (R.Answers s env g i) L more s i

/-- The same of a sequence. -/
def ReadsSeq (ps : List (Grammar φ)) (L : Phrases (List (Value φ))) (more : Char → Prop) : Prop :=
  ∀ s env i, ReadsAt (R.AnswersSeq s env ps i) L more s i

variable {R} {g : Grammar φ} {ps : List (Grammar φ)} {L M : Phrases (Value φ)}
  {Ls : Phrases (List (Value φ))} {more more₁ : Char → Prop}

theorem Reads.mono (h : R.Reads g L more₁) (hmore : ∀ c, more₁ c → more c) : R.Reads g L more :=
  fun s env i => (h s env i).mono hmore

theorem Reads.equiv (h : R.Reads g L more) (e : L.Tree ≃ M.Tree)
    (htext : ∀ t, M.text (e t) = L.text t) (hvalue : ∀ t, M.value (e t) = L.value t) :
    R.Reads g M more := fun s env i =>
  (h s env i).equiv e htext (fun t _ ht => (hvalue t).symm ▸ ht) id

theorem Reads.object {r : Ref} (h : R.Reads (R.rule r) L more) : R.Reads (.object r) L more :=
  fun s env i => (h s env i).equiv (.refl _) (fun _ => rfl) (fun _ _ => answers_object)
    answers_object

theorem Reads.mapEnv {f : Callback φ} (h : R.Reads g L more) (e : L.Tree ≃ M.Tree)
    (htext : ∀ t, M.text (e t) = L.text t)
    (hf : ∀ t env, R.Settles (fun h => f.run h.call (L.value t) env) (M.value (e t))) :
    R.Reads (.mapEnv g f) M more := fun s env i =>
  (h s env i).equiv e htext (fun t _ ht => answers_mapEnv ht (hf t env)) (answers_mapEnv_none f)

/-! ## Sequences -/

theorem Reads.last (h : R.Reads g L more) : R.ReadsSeq [g] (L.map fun v => [v]) more :=
  fun s env i => (h s env i).equiv (.refl _) (fun _ => rfl)
    (fun _ _ ht => answersSeq_cons ht answersSeq_nil) answersSeq_cons_none

theorem ReadsSeq.mono (h : R.ReadsSeq ps Ls more₁) (hmore : ∀ c, more₁ c → more c) :
    R.ReadsSeq ps Ls more := fun s env i => (h s env i).mono hmore

theorem ReadsSeq.seq (h : R.ReadsSeq ps Ls more) : R.Reads (.seq ps) (Ls.map .list) more :=
  fun s env i => (h s env i).equiv (.refl _) (fun _ => rfl) (fun _ _ ht => answers_seq ht)
    fun hnone => answers_seq hnone

/-- What stands after a phrase must not begin with a character with which the phrase goes on. -/
theorem Reads.cons (h : R.Reads g L more₁) (hps : R.ReadsSeq ps Ls more)
    (hsep : Ls.BeginsIn fun c => ¬more₁ c)
    (hnil : ∀ t, Ls.text t = [] → ∀ c, more₁ c → more c) :
    R.ReadsSeq (g :: ps) (L.followedBy Ls) more := by
  intro s env i
  have hends : ∀ {j k} (t : Ls.Tree), Lies s j (Ls.text t) k → (Ls.text t = [] → Ends more s k) →
      Ends more₁ s j := fun t ht hk =>
    ht.ends (hsep t) fun htext => (hk htext).mono (hnil t htext)
  cases h s env i with
  | absent hnone hno =>
    refine .absent (answersSeq_cons_none hnone) fun t k ht => ?_
    obtain ⟨j, ht, -⟩ := lies_append.1 ht
    exact hno t.1 j ht
  | found t j hlies ht hunique =>
    cases hps s env j with
    | found ts k hlies' hts hunique' =>
      refine .found (t, ts) k (lies_append.2 ⟨j, hlies, hlies'⟩) (answersSeq_cons ht hts) ?_
      rintro ⟨t', ts'⟩ k' ht' hk'
      obtain ⟨j', ht', hts'⟩ := lies_append.1 ht'
      obtain rfl := hunique t' j' ht' (hends ts' hts' fun _ => hk')
      obtain rfl := hlies.stop_unique ht'
      rw [hunique' ts' k' hts' hk']
    | absent hnone hno =>
      refine .absent (answersSeq_cons ht hnone) ?_
      rintro ⟨t', ts'⟩ k' ht'
      obtain ⟨j', ht', hts'⟩ := lies_append.1 ht'
      -- an empty phrase would stand anywhere
      have hne : Ls.text ts' ≠ [] := fun hempty => hno ts' j (by rw [hempty]; exact rfl)
      obtain rfl := hunique t' j' ht' (hends ts' hts' fun hempty => absurd hempty hne)
      obtain rfl := hlies.stop_unique ht'
      exact hno ts' k' hts'

/-! ## Options and repetitions -/

theorem Reads.option (v : Value φ) (h : R.Reads g L more₁) (hmore : ∀ c, more₁ c → more c)
    (hstart : L.StartsIn more) : R.Reads (Grammar.option v g) (L.option v) more := by
  intro s env i
  cases h s env i with
  | found t j hlies ht hunique =>
    refine .found (some t) j hlies (answers_alt_first ht) fun t' j' ht' hends => ?_
    cases t' with
    | some t' => rw [hunique t' j' ht' (hends.mono hmore)]
    | none =>
      obtain rfl : i = j' := ht'
      obtain ⟨c, cs, htext, hc⟩ := hstart t
      rw [htext] at hlies
      exact absurd hc (hends c hlies.1)
  | absent hnone hno =>
    refine .found none i rfl (answers_alt_later hnone (answersAlt_first ?_)) fun t' j' ht' _ => ?_
    · exact answers_leaf (f := Leaf.succeed v) (fun _ => rfl) rfl
    · cases t' with
      | none => rfl
      | some t' => exact absurd ht' (hno t' j')

/-- The matches of a repetition, by induction on the rest of the text: they are all the phrases up
to one that is not followed by another. -/
theorem Reads.repeated (h : R.Reads g L more₁) (hmore : ∀ c, more₁ c → more c)
    (hstart : L.StartsIn more) (hsep : L.StartsIn fun c => ¬more₁ c) (s : Input) (env : Value φ)
    (i : Nat) : ∃ ts k, Lies s i (L.many.text ts) k ∧
      R.AnswersOptional s env g .infinite i k (L.many.value ts) ∧
      ∀ ts' k', Lies s i (L.many.text ts') k' → Ends more s k' → ts' = ts := by
  induction hn : s.length - i using Nat.strong_induction_on generalizing i with
  | _ n ih =>
    cases h s env i with
    | absent hnone hno =>
      refine ⟨[], i, rfl, answersOptional_stop _ hnone, fun ts' k' hts' _ => ?_⟩
      cases ts' with
      | nil => rfl
      | cons t' ts' =>
        obtain ⟨j', ht', -⟩ := lies_append.1 hts'
        exact absurd ht' (hno t' j')
    | found t j hlies ht hunique =>
      obtain ⟨c, cs, htext, hc⟩ := hstart t
      have hstop : j = i + (cs.length + 1) := by rw [hlies.stop_eq, htext, List.length_cons]
      have hat : s[i]? = some c := by
        rw [htext] at hlies
        exact hlies.1
      obtain ⟨hi, -⟩ := List.getElem?_eq_some_iff.1 hat
      obtain ⟨ts, k, hlies', hts, hunique'⟩ := ih (s.length - j) (by omega) j rfl
      refine ⟨t :: ts, k, lies_append.2 ⟨j, hlies, hlies'⟩,
        answersOptional_again ht (by omega) hts, fun ts' k' hts' hends => ?_⟩
      cases ts' with
      | nil =>
        obtain rfl : i = k' := hts'
        exact absurd hc (hends c hat)
      | cons t' ts' =>
        obtain ⟨j', ht', hts'⟩ := lies_append.1 hts'
        have hj' : Ends more₁ s j' :=
          hts'.ends (hsep.many ts') fun _ => hends.mono hmore
        obtain rfl := hunique t' j' ht' hj'
        obtain rfl := hlies.stop_unique ht'
        rw [hunique' ts' k' hts' hends]

theorem Reads.many (h : R.Reads g L more₁) (hmore : ∀ c, more₁ c → more c)
    (hstart : L.StartsIn more) (hsep : L.StartsIn fun c => ¬more₁ c) :
    R.Reads (Grammar.many g) (L.many.map .list) more := by
  intro s env i
  obtain ⟨ts, k, hlies, hts, hunique⟩ := h.repeated hmore hstart hsep s env i
  exact .found ts k hlies (answers_times (by nofun) answersMandatory_zero hts) hunique

/-! ## Operators and runs -/

/-- An operator does what its table says: its parser takes the symbol and gives the function, and
the function is total on values of `D`, and stays in `D`. -/
structure Implements (R : Rules φ) (D : Value φ → Prop) (op : Operator φ) : Prop where
  found {s : Input} {i : Nat} (env : Value φ) : s[i]? = some op.symbol →
    R.Answers s env (.object op.parser) i (some (i + 1, .function op.function))
  absent {s : Input} {i : Nat} (env : Value φ) : s[i]? ≠ some op.symbol →
    R.Answers s env (.object op.parser) i none
  apply {args : List (Value φ)} : args.length = (if op.fixity = .between then 2 else 1) →
    (∀ v ∈ args, D v) → R.apply op.function args = .ok (op.meaning args) ∧ D (op.meaning args)

section

variable {D : Value φ → Prop} {op : Operator φ} {ops : List (Operator φ)}

/-- One operator more to choose from, where `answers` is what the choice answers and `rest` what the
other operators answer. -/
theorem readsAt_symbols_cons {answers rest : Option (Nat × Value φ) → Prop} {s : Input}
    {env : Value φ} {i : Nat} (hop : R.Implements D op)
    (hnodup : ((op :: ops).map Operator.symbol).Nodup)
    (hrest : ReadsAt rest (.symbols ops) (fun _ => False) s i)
    (hfirst : ∀ x, R.Answers s env (.object op.parser) i (some x) → answers (some x))
    (hlater : ∀ o, R.Answers s env (.object op.parser) i none → rest o → answers o) :
    ReadsAt answers (.symbols (op :: ops)) (fun _ => False) s i := by
  rw [List.map_cons, List.nodup_cons] at hnodup
  by_cases hs : s[i]? = some op.symbol
  · refine .found ⟨op, List.mem_cons_self⟩ (i + 1) ⟨hs, rfl⟩ (hfirst _ (hop.found env hs)) ?_
    rintro ⟨op', hmem⟩ j' ⟨hs', -⟩ -
    have hsymbol : op'.symbol = op.symbol := Option.some.inj (hs'.symm.trans hs)
    rcases List.mem_cons.1 hmem with rfl | hmem
    · rfl
    · exact absurd (List.mem_map.2 ⟨op', hmem, hsymbol⟩) hnodup.1
  · have hnone := hop.absent env hs
    cases hrest with
    | found t j hlies ht hunique =>
      refine .found ⟨t.1, List.mem_cons_of_mem _ t.2⟩ j hlies (hlater _ hnone ht) ?_
      rintro ⟨op', hmem⟩ j' hlies' hends
      rcases List.mem_cons.1 hmem with rfl | hmem
      · exact absurd hlies'.1 hs
      · obtain rfl := hunique ⟨op', hmem⟩ j' hlies' hends
        rfl
    | absent hn hno =>
      refine .absent (hlater _ hnone hn) ?_
      rintro ⟨op', hmem⟩ j' hlies'
      rcases List.mem_cons.1 hmem with rfl | hmem
      · exact hs hlies'.1
      · exact hno ⟨op', hmem⟩ j' hlies'

theorem readsAt_symbols (hops : ∀ op ∈ ops, R.Implements D op)
    (hnodup : (ops.map Operator.symbol).Nodup) (s : Input) (env : Value φ) (i : Nat) :
    ReadsAt (R.AnswersAlt s env ((ops.map Operator.parser).map .object) i) (.symbols ops)
      (fun _ => False) s i := by
  induction ops with
  | nil => exact .absent answersAlt_nil fun op => absurd op.2 List.not_mem_nil
  | cons op ops ih =>
    have hrest := ih (fun op' hop' => hops op' (List.mem_cons_of_mem _ hop')) hnodup.of_cons
    exact readsAt_symbols_cons (hops op List.mem_cons_self) hnodup hrest
      (fun _ => answersAlt_first) fun _ => answersAlt_later

/-- The first of several operators that matches is the one whose symbol is there. -/
theorem reads_symbols (hops : ∀ op' ∈ op :: ops, R.Implements D op')
    (hnodup : ((op :: ops).map Operator.symbol).Nodup) :
    R.Reads (.alt (.object op.parser) ((ops.map Operator.parser).map .object))
      (.symbols (op :: ops)) fun _ => False := by
  intro s env i
  have hrest := readsAt_symbols (fun op' hop' => hops op' (List.mem_cons_of_mem _ hop'))
    hnodup.of_cons s env i
  exact readsAt_symbols_cons (hops op List.mem_cons_self) hnodup hrest
    (fun _ => answers_alt_first) fun _ => answers_alt_later

end

/-- A grammar takes the longest run of characters of a class, which must not be empty, for a
value. -/
def TakesRuns (R : Rules φ) (g : Grammar φ) (cls : Char → Bool) (value : List Char → Value φ) :
    Prop :=
  ∀ s env i, R.Answers s env g i <|
    if (s.drop i).takeWhile cls = [] then none
    else some (i + ((s.drop i).takeWhile cls).length, value ((s.drop i).takeWhile cls))

theorem takeWhile_of_lies {cls : Char → Bool} {s : Input} {i j : Nat} {cs : List Char}
    (h : Lies s i cs j) (hcs : ∀ c ∈ cs, cls c) :
    (s.drop i).takeWhile cls = cs ++ (s.drop j).takeWhile cls := by
  obtain ⟨⟨rest, hrest⟩, rfl⟩ := lies_iff.1 h
  rw [← List.drop_drop, ← hrest, List.drop_left, List.takeWhile_append_of_pos hcs]

theorem takeWhile_of_ends {cls : Char → Bool} {s : Input} {i : Nat}
    (h : Ends (fun c => cls c) s i) : (s.drop i).takeWhile cls = [] := by
  have hhead : s[i]? = (s.drop i)[0]? := by rw [List.getElem?_drop, Nat.add_zero]
  cases hrest : s.drop i with
  | nil => rfl
  | cons c cs =>
    rw [hrest] at hhead
    exact List.takeWhile_cons_of_neg (h c hhead)

/-- A grammar that takes the longest runs reads runs. -/
theorem TakesRuns.reads {cls : Char → Bool} {value : List Char → Value φ}
    (h : R.TakesRuns g cls value) : R.Reads g (.runs cls value) fun c => cls c := by
  intro s env i
  have hanswers := h s env i
  by_cases hrun : (s.drop i).takeWhile cls = []
  · rw [if_pos hrun] at hanswers
    refine .absent hanswers ?_
    rintro ⟨cs, hne, hcs⟩ j hlies
    rw [takeWhile_of_lies hlies hcs] at hrun
    exact hne (List.append_eq_nil_iff.1 hrun).1
  · rw [if_neg hrun] at hanswers
    refine .found ⟨_, hrun, List.all_eq_true.1 List.all_takeWhile⟩ _
      (lies_iff.2 ⟨List.takeWhile_prefix _, rfl⟩) hanswers ?_
    rintro ⟨cs, hne, hcs⟩ j' hlies hends
    have heq := takeWhile_of_lies hlies hcs
    rw [takeWhile_of_ends hends, List.append_nil] at heq
    exact Subtype.ext heq.symm

/-! ## Literals -/

/-- A grammar takes one character of a class, and nothing else. -/
structure TakesOne (R : Rules φ) (g : Grammar φ) (cls : Char → Bool) : Prop where
  found {s : Input} {i : Nat} {c : Char} (env : Value φ) : s[i]? = some c → cls c →
    R.Answers s env g i (some (i + 1, .text c.toString))
  absent {s : Input} {i : Nat} (env : Value φ) : Ends (fun c => cls c) s i →
    R.Answers s env g i none

theorem TakesOne.object {r : Ref} {cls : Char → Bool} (h : R.TakesOne (R.rule r) cls) :
    R.TakesOne (.object r) cls :=
  ⟨fun env hat hc => answers_object (h.found env hat hc),
    fun env hends => answers_object (h.absent env hends)⟩

theorem TakesRuns.object {r : Ref} {cls : Char → Bool} {value : List Char → Value φ}
    (h : R.TakesRuns (R.rule r) cls value) : R.TakesRuns (.object r) cls value := fun s env i =>
  answers_object (h s env i)

theorem takesOne_string (c : Char) : R.TakesOne (.string c.toString) (· == c) := by
  have htoList : c.toString.toList = [c] := String.toList_singleton c
  have hlies : ∀ {s : Input} {i}, c.toString.toList <+: s.drop i ↔ s[i]? = some c := by
    intro s i
    have h : Lies s i [c] (i + 1) ↔ _ := lies_iff
    rw [htoList]
    simpa [Lies] using h.symm
  refine ⟨fun {s i d} env hat hd => ?_, fun {s i} env hends => ?_⟩
  · obtain rfl : d = c := by simpa using hd
    obtain ⟨hi, -⟩ := List.getElem?_eq_some_iff.1 hat
    have hstring : R.Answers s env (.string d.toString) i _ :=
      answers_string ⟨hlies.2 hat, Nat.le_of_lt hi⟩
    rwa [htoList] at hstring
  · exact answers_string_none fun h => hends c (hlies.1 h.1) (by simp)

theorem takeWhile_of_head {cls : Char → Bool} {s : Input} {i : Nat} {c : Char}
    (hat : s[i]? = some c) (hc : cls c) :
    (s.drop i).takeWhile cls = c :: (s.drop (i + 1)).takeWhile cls :=
  takeWhile_of_lies (show Lies s i [c] (i + 1) from ⟨hat, rfl⟩) (by simpa using hc)

theorem exists_of_not_ends {more : Char → Prop} {s : Input} {i : Nat} (h : ¬Ends more s i) :
    ∃ c, s[i]? = some c ∧ more c := by
  simpa [Ends] using h

/-- The repetition of what takes one character takes the rest of a run. -/
theorem TakesOne.answersOptional {cls : Char → Bool} (h : R.TakesOne g cls) (s : Input)
    (env : Value φ) (i : Nat) : R.AnswersOptional s env g .infinite i
      (i + ((s.drop i).takeWhile cls).length)
      (((s.drop i).takeWhile cls).map fun c => .text c.toString) := by
  induction hn : s.length - i using Nat.strong_induction_on generalizing i with
  | _ n ih =>
    by_cases hends : Ends (fun c => cls c) s i
    · rw [takeWhile_of_ends hends]
      exact answersOptional_stop _ (h.absent env hends)
    · obtain ⟨c, hat, hc⟩ := exists_of_not_ends hends
      obtain ⟨hi, -⟩ := List.getElem?_eq_some_iff.1 hat
      have hrest := ih (s.length - (i + 1)) (by omega) (i + 1) rfl
      rw [takeWhile_of_head hat hc, List.length_cons, Nat.add_comm _ 1, ← Nat.add_assoc]
      exact answersOptional_again (h.found env hat hc) (Nat.succ_ne_self i) hrest

/-- A repetition of one character takes runs. -/
theorem TakesOne.many1 {cls : Char → Bool} (h : R.TakesOne g cls) :
    R.TakesRuns (.many1 g) cls fun cs => .list (cs.map fun c => .text c.toString) := by
  intro s env i
  by_cases hends : Ends (fun c => cls c) s i
  · rw [if_pos (takeWhile_of_ends hends)]
    exact answers_times_none _ (answersMandatory_succ_none 0 (h.absent env hends))
  · obtain ⟨c, hat, hc⟩ := exists_of_not_ends hends
    rw [takeWhile_of_head hat hc, if_neg (List.cons_ne_nil _ _), List.length_cons,
      Nat.add_comm _ 1, ← Nat.add_assoc]
    exact answers_times (by nofun)
      (answersMandatory_succ (h.found env hat hc) answersMandatory_zero)
      (h.answersOptional s env (i + 1))

/-- A literal that is mapped to a function is an operator. -/
theorem implements_of_literal {D : Value φ → Prop} {op : Operator φ} {literal : Ref} {mapper : φ}
    (hparser : R.rule op.parser = .mapEnv (.object literal) (.value (.function mapper)))
    (hliteral : R.rule literal = .string op.symbol.toString)
    (hmapper : R.apply mapper [.text op.symbol.toString] = .ok (.function op.function))
    (happly : ∀ args : List (Value φ), args.length = (if op.fixity = .between then 2 else 1) →
      (∀ v ∈ args, D v) → R.apply op.function args = .ok (op.meaning args) ∧ D (op.meaning args)) :
    R.Implements D op := by
  have hone : R.TakesOne (.object literal) (· == op.symbol) :=
    TakesOne.object (hliteral ▸ takesOne_string op.symbol)
  refine ⟨fun {s i} env hs => answers_object ?_, fun {s i} env hs => answers_object ?_, happly _⟩
  · rw [hparser]
    exact answers_mapEnv (hone.found env hs (by simp)) (R.settles_call_function.2 hmapper)
  · rw [hparser]
    refine answers_mapEnv_none _ (hone.absent env fun c hc heq => hs ?_)
    rw [hc, beq_iff_eq.1 heq]

end Rules

end Furthest
