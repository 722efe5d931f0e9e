import Furthest.Proofs.Expressions.Reading

/-!
# The levels of an operator table

If the grammar of one level reads its phrases, so does the grammar of the next one
(`Rules.Readable.level`), and from this the grammar of a whole table does (`Rules.Readable.table`).
A level is put together from the same parts as its grammar: optional operators around an operand,
and pairs of an operator and a second operand.

What keeps the parts apart is carried from level to level: the characters that phrases begin with,
none of which is the symbol of a looser operator before an operand, and those that phrases go on
with, none of which is the symbol of a looser operator after or between operands.
-/

namespace Furthest

variable {φ : Type} [FunctionText φ]

/-! ## Chains by how they are read -/

namespace Chain

variable {row : Row φ} {T : Type}

/-- A chain of a row whose operators group. -/
def ofList (h : row.assoc ≠ .none) : T × List (row.Op .between × T) ≃ Chain row T where
  toFun t := ⟨t.1, t.2, fun hnone => absurd hnone h⟩
  invFun x := (x.first, x.rest)
  left_inv _ := rfl
  right_inv _ := rfl

/-- A chain of a row whose operators do not group. -/
def ofOption (h : row.assoc = .none) : T × Option (row.Op .between × T) ≃ Chain row T where
  toFun t := ⟨t.1, t.2.toList, fun _ => by cases t.2 <;> simp⟩
  invFun x := (x.first, x.rest.head?)
  left_inv := by
    rintro ⟨first, _ | y⟩ <;> rfl
  right_inv := by
    rintro ⟨first, rest, hshort⟩
    match rest, hshort h with
    | [], _ | [y], _ => rfl

/-- A chain of a row without operators between operands. -/
def ofSingle (h : row.operatorsAt .between = []) : T ≃ Chain row T where
  toFun first := ⟨first, [], fun _ => Nat.zero_le 1⟩
  invFun := first
  left_inv _ := rfl
  right_inv := by
    rintro ⟨first, rest, hshort⟩
    cases rest with
    | nil => rfl
    | cons y rest => exact absurd y.1.2 (by simp [h])

end Chain

namespace Rules

variable {R : Rules φ} {D : Value φ → Prop} {g : Grammar φ} {L : Phrases (Value φ)}
  {start more : Char → Prop} {row : Row φ} {place : Fixity}

/-- A grammar reads phrases; what these begin with, what they go on with, and which values they
have. -/
structure Readable (R : Rules φ) (D : Value φ → Prop) (g : Grammar φ) (L : Phrases (Value φ))
    (start more : Char → Prop) : Prop where
  reads : R.Reads g L more
  starts : L.StartsIn start
  value_mem (t : L.Tree) : D (L.value t)

/-- The operators of a row do what the row says, and their symbols differ where they may be taken
for each other. -/
structure Suits (R : Rules φ) (D : Value φ → Prop) (row : Row φ) : Prop where
  implements : ∀ op ∈ row.operators, R.Implements D op
  opening : (row.symbolsAt .before).Nodup
  closing : row.closing.Nodup

/-! ## Operators applied to values -/

theorem Suits.call_unary (h : R.Suits D row) (hplace : place ≠ .between) (op : row.Op place)
    {v : Value φ} (hv : D v) : R.apply op.1.function [v] = .ok (op.1.meaning [v]) ∧
      D (op.1.meaning [v]) := by
  obtain ⟨hmem, hfixity⟩ := Row.mem_operatorsAt.1 op.2
  refine (h.implements op.1 hmem).apply ?_ (by simpa using hv)
  rw [if_neg (hfixity.symm ▸ hplace)]
  rfl

theorem Suits.call_binary (h : R.Suits D row) (op : row.Op .between) {u v : Value φ} (hu : D u)
    (hv : D v) : R.apply op.1.function [u, v] = .ok (op.1.meaning [u, v]) ∧
      D (op.1.meaning [u, v]) := by
  obtain ⟨hmem, hfixity⟩ := Row.mem_operatorsAt.1 op.2
  refine (h.implements op.1 hmem).apply ?_ (by simpa using And.intro hu hv)
  rw [if_pos hfixity]
  rfl

theorem Suits.applied_mem (h : R.Suits D row) (hplace : place ≠ .between)
    (op : Option (row.Op place)) {v : Value φ} (hv : D v) : D (Row.applied op v) := by
  cases op with
  | none => exact hv
  | some op => exact (h.call_unary hplace op hv).2

/-- The functions of optional operators, as lists of one item or none. -/
theorem Suits.applyOptional (h : R.Suits D row) (hplace : place ≠ .between) (b : Nat × Nat)
    (op : Option (row.Op place)) {v : Value φ} (hv : D v) :
    Value.applyOptional (R.within b).call
      ((((Phrases.symbols (row.operatorsAt place)).map fun f => .list [f]).option (.list [])).value
        op) v = .ok (Row.applied op v) := by
  cases op with
  | none => rfl
  | some op => exact congrArg settled (h.call_unary hplace op hv).1

section

variable {T : Type} {value : T → Value φ}

theorem Suits.joinedLeft_mem (h : R.Suits D row) (hvalue : ∀ x, D (value x)) {v : Value φ}
    (hv : D v) (rest : List (row.Op .between × T)) : D (Row.joinedLeft value v rest) := by
  induction rest generalizing v with
  | nil => exact hv
  | cons y rest ih => exact ih (h.call_binary y.1 hv (hvalue y.2)).2

theorem Suits.joinedRight_mem (h : R.Suits D row) (hvalue : ∀ x, D (value x)) {v : Value φ}
    (hv : D v) (rest : List (row.Op .between × T)) : D (Row.joinedRight value v rest) := by
  induction rest generalizing v with
  | nil => exact hv
  | cons y rest ih => exact (h.call_binary y.1 hv (ih (hvalue y.2))).2

theorem Suits.foldPairsLeft (h : R.Suits D row) (hvalue : ∀ x, D (value x)) (b : Nat × Nat)
    {v : Value φ} (hv : D v) (rest : List (row.Op .between × T)) :
    Value.foldPairsLeft (R.within b).call v
        (rest.map fun y => .list [.function y.1.1.function, value y.2]) =
      .ok (Row.joinedLeft value v rest) := by
  induction rest generalizing v with
  | nil => rfl
  | cons y rest ih =>
    obtain ⟨hcall, hmem⟩ := h.call_binary y.1 hv (hvalue y.2)
    rw [List.map_cons, Value.foldPairsLeft]
    show (settled (R.apply y.1.1.function [v, value y.2]) >>= _) = _
    rw [hcall]
    exact ih hmem

theorem Suits.foldPairsRight (h : R.Suits D row) (hvalue : ∀ x, D (value x)) (b : Nat × Nat)
    {v : Value φ} (hv : D v) (rest : List (row.Op .between × T)) :
    Value.foldPairsRight (R.within b).call v
        (rest.map fun y => .list [.function y.1.1.function, value y.2]) =
      .ok (Row.joinedRight value v rest) := by
  induction rest generalizing v with
  | nil => rfl
  | cons y rest ih =>
    have hmem := h.joinedRight_mem hvalue (hvalue y.2) rest
    rw [List.map_cons, Value.foldPairsRight, ih (hvalue y.2)]
    exact congrArg settled (h.call_binary y.1 hv hmem).1

end

/-! ## Operands -/

/-- An operator that may be missing. -/
theorem reads_anyOptional {ops : List (Operator φ)} (hops : ∀ op ∈ ops, R.Implements D op)
    (hnodup : (ops.map Operator.symbol).Nodup) :
    R.Reads (Grammar.anyOptional ((ops.map Operator.parser).map .object))
      (((Phrases.symbols ops).map fun f => .list [f]).option (.list []))
      (· ∈ ops.map Operator.symbol) := by
  cases ops with
  | nil =>
    refine fun s env i => .found none i rfl ?_ fun t' j' _ _ => ?_
    · exact answers_leaf (f := Leaf.succeed (.list [])) (fun _ => rfl) rfl
    · cases t' with
      | none => rfl
      | some op => exact absurd op.2 List.not_mem_nil
  | cons op ops =>
    have hsymbols := (reads_symbols hops hnodup).mapEnv (f := .singleton)
      (M := (Phrases.symbols (op :: ops)).map fun f => .list [f]) (.refl _) (fun _ => rfl)
      fun _ _ => ⟨(0, 0), rfl⟩
    exact hsymbols.option (.list []) (fun _ h => h.elim) (Phrases.startsIn_symbols (op :: ops))

theorem Suits.reads_anyOptional (h : R.Suits D row) {place : Fixity}
    (hnodup : (row.symbolsAt place).Nodup) :
    R.Reads (Grammar.anyOptional ((row.parsersAt place).map .object))
      (((Phrases.symbols (row.operatorsAt place)).map fun f => .list [f]).option (.list []))
      (· ∈ row.symbolsAt place) :=
  Rules.reads_anyOptional (fun op hop => h.implements op (Row.mem_operatorsAt.1 hop).1) hnodup

/-- Operands go on as the phrases inside them do, or with an operator after them. -/
theorem Suits.reads_operands (h : R.Suits D row) (hg : R.Readable D g L start more)
    (hstart : ∀ c ∈ row.symbolsAt .before, ¬start c) (hmore : ∀ c ∈ row.symbolsAt .after, ¬more c) :
    R.Reads (Grammar.unary row.toOperatorRow g) (L.operands row)
      fun c => more c ∨ c ∈ row.symbolsAt .after := by
  have hafter := (h.reads_anyOptional (List.nodup_append.1 h.closing).2.1).last
  have hafters := (Phrases.startsIn_symbols (row.operatorsAt .after)).mono hmore
  have hinner := hg.reads.cons (hafter.mono fun c hc => Or.inr hc)
    (((hafters.map _).option _).map _) fun _ _ c hc => Or.inl hc
  have hstarts := (hg.starts.mono fun c hc hmem => hstart c hmem hc).followedBy
  have hall := (h.reads_anyOptional h.opening).cons hinner (hstarts _).beginsIn
    fun t htext => absurd htext ((hstarts _).text_ne_nil t)
  refine hall.seq.mapEnv ⟨fun t => ⟨t.1, t.2.1, t.2.2⟩, fun x => (x.before, x.inner, x.after),
    fun _ => rfl, fun _ => rfl⟩ ?_ ?_
  · rintro ⟨b, t, a⟩
    cases b <;> cases a <;> rfl
  · rintro ⟨(b : Option (row.Op .before)), t, (a : Option (row.Op .after))⟩ env
    refine ⟨(0, 0), ?_⟩
    have hbefore := h.applyOptional (by decide) (0, 0) b (hg.value_mem t)
    have happlied := h.applied_mem (by decide) b (hg.value_mem t)
    show (Value.applyOptional _ _ _ >>= Value.applyOptional _ _) = _
    rw [hbefore]
    exact h.applyOptional (by decide) (0, 0) a happlied

/-! ## Chains -/

/-- Operators between operands, each with its second operand. -/
def pairs (row : Row φ) (P : Phrases (Value φ)) : Phrases (Value φ) :=
  ((Phrases.symbols (row.operatorsAt .between)).followedBy (P.map fun v => [v])).map .list

section

variable {P : Phrases (Value φ)} {p : Grammar φ} {r : Ref} {rs : List Ref}

omit [FunctionText φ] in
theorem startsIn_pairs : (pairs row P).StartsIn (· ∈ row.symbolsAt .between) :=
  (Phrases.startsIn_symbols (row.operatorsAt .between)).followedBy _

theorem Suits.reads_pairs (h : R.Suits D row) (hrs : row.parsersAt .between = r :: rs)
    (hp : R.Reads p P more) :
    R.Reads (.seq [.alt (.object r) (rs.map .object), p]) (pairs row P) more := by
  have hops : ∀ op ∈ row.operatorsAt .between, R.Implements D op := fun op hop =>
    h.implements op (Row.mem_operatorsAt.1 hop).1
  have hnodup := (List.nodup_append.1 h.closing).1
  unfold Row.parsersAt at hrs
  unfold Row.symbolsAt at hnodup
  unfold pairs
  generalize row.operatorsAt .between = ops at hops hnodup hrs
  cases ops with
  | nil => cases hrs
  | cons op ops =>
    cases hrs
    exact ((reads_symbols hops hnodup).cons hp.last (fun _ _ _ _ h => h)
      fun _ _ _ h => h.elim).seq

/-- Operands with any number of operators between, where `f` joins their values. -/
theorem Suits.reads_chains (h : R.Suits D row) (hrs : row.parsersAt .between = r :: rs)
    (hassoc : row.assoc ≠ .none) (hp : R.Reads p P more)
    (hmore : ∀ c ∈ row.symbolsAt .between, ¬more c) (f : Callback φ)
    (hf : ∀ x (rest : List (row.Op .between × P.Tree)) env, f.run (R.within (0, 0)).call
      (.list [P.value x, .list (rest.map fun y => .list [.function y.1.1.function, P.value y.2])])
      env = .ok (Row.joined P.value (P.value x) rest)) :
    R.Reads (.mapEnv (.seq [p, .many (.seq [.alt (.object r) (rs.map .object), p])]) f)
      (P.chains row) fun c => more c ∨ c ∈ row.symbolsAt .between := by
  have hpairs := (h.reads_pairs hrs hp).many (fun c hc => Or.inl hc)
    (startsIn_pairs.mono fun c hc => Or.inr hc) (startsIn_pairs.mono hmore)
  have hall := hp.cons hpairs.last ((((startsIn_pairs.mono hmore).many).map _).map _)
    fun _ _ c hc => Or.inl hc
  exact hall.seq.mapEnv (Chain.ofList hassoc) (fun _ => rfl) fun t env => ⟨(0, 0), hf t.1 t.2 env⟩

/-- Operands with one operator between at most. -/
theorem Suits.reads_chains_once (h : R.Suits D row) (hrs : row.parsersAt .between = r :: rs)
    (hassoc : row.assoc = .none) (hp : R.Readable D p P start more)
    (hmore : ∀ c ∈ row.symbolsAt .between, ¬more c) :
    R.Reads (.mapEnv (.seq [p, .option .null (.seq [.alt (.object r) (rs.map .object), p])])
      .infixOnce) (P.chains row) fun c => more c ∨ c ∈ row.symbolsAt .between := by
  have hpairs := (h.reads_pairs hrs hp.reads).option .null (fun c hc => Or.inl hc)
    (startsIn_pairs.mono fun c hc => Or.inr hc)
  have hall := hp.reads.cons hpairs.last ((((startsIn_pairs.mono hmore).option _)).map _)
    fun _ _ c hc => Or.inl hc
  refine hall.seq.mapEnv (Chain.ofOption hassoc) ?_ ?_
  · rintro ⟨x, _ | y⟩
    · rfl
    · exact congrArg (P.text x ++ ·) (List.append_nil _)
  · rintro ⟨x, _ | y⟩ env <;> refine ⟨(0, 0), ?_⟩
    · exact congrArg Except.ok (Row.joined_nil P.value (P.value x)).symm
    · have hcall := (h.call_binary y.1 (hp.value_mem x) (hp.value_mem y.2)).1
      exact (congrArg settled hcall).trans
        (congrArg Except.ok (Row.joined_single P.value (P.value x) y).symm)

/-- Where no operator stands between operands, a chain is a single one. -/
theorem reads_chains_single (hops : row.operatorsAt .between = []) (hp : R.Reads p P more) :
    R.Reads p (P.chains row) more :=
  hp.equiv (Chain.ofSingle hops) (fun _ => List.append_nil _) fun x =>
    Row.joined_nil P.value (P.value x)

end

/-! ## Levels -/

theorem Suits.joined_mem (h : R.Suits D row) {T : Type} {value : T → Value φ}
    (hvalue : ∀ x, D (value x)) {v : Value φ} (hv : D v) (rest : List (row.Op .between × T)) :
    D (Row.joined value v rest) := by
  unfold Row.joined
  split
  · exact h.joinedRight_mem hvalue hv rest
  · exact h.joinedLeft_mem hvalue hv rest

theorem Suits.readable_operands (h : R.Suits D row) (hg : R.Readable D g L start more)
    (hstart : ∀ c ∈ row.symbolsAt .before, ¬start c) (hmore : ∀ c ∈ row.symbolsAt .after, ¬more c) :
    R.Readable D (Grammar.unary row.toOperatorRow g) (L.operands row)
      (fun c => start c ∨ c ∈ row.symbolsAt .before)
      fun c => more c ∨ c ∈ row.symbolsAt .after where
  reads := h.reads_operands hg hstart hmore
  starts := by
    rintro ⟨_ | op, t, a⟩
    · obtain ⟨c, cs, htext, hc⟩ := hg.starts t
      exact ⟨c, cs ++ Row.symbolOf a, congrArg (· ++ Row.symbolOf a) htext, Or.inl hc⟩
    · exact ⟨op.1.symbol, _, rfl, Or.inr (List.mem_map_of_mem op.2)⟩
  value_mem x := h.applied_mem (by decide) _ (h.applied_mem (by decide) _ (hg.value_mem x.inner))

theorem Suits.readable_chains (h : R.Suits D row) {p : Grammar φ} {P : Phrases (Value φ)}
    (hp : R.Readable D p P start more) (hmore : ∀ c ∈ row.symbolsAt .between, ¬more c) :
    R.Readable D (Grammar.joinOnce (Grammar.joinRight (Grammar.joinLeft p
      row.toOperatorRow.leftInfixes) row.toOperatorRow.rightInfixes) row.toOperatorRow.plainInfixes)
      (P.chains row) start fun c => more c ∨ c ∈ row.symbolsAt .between where
  reads := by
    cases hrs : row.parsersAt .between with
    | nil =>
      have hsingle := reads_chains_single (List.map_eq_nil_iff.1 hrs) hp.reads
      simp only [Row.toOperatorRow, Row.joiners, hrs, ite_self, List.map_nil]
      exact hsingle.mono fun c hc => Or.inl hc
    | cons r rs =>
      simp only [Row.toOperatorRow, Row.joiners, hrs]
      cases hassoc : row.assoc with
      | none => exact h.reads_chains_once hrs hassoc hp hmore
      | left =>
        refine h.reads_chains hrs (by simp [hassoc]) hp.reads hmore .foldLeft fun x rest _ => ?_
        simp only [Row.joined, hassoc]
        exact h.foldPairsLeft hp.value_mem (0, 0) (hp.value_mem x) rest
      | right =>
        refine h.reads_chains hrs (by simp [hassoc]) hp.reads hmore .foldRight fun x rest _ => ?_
        simp only [Row.joined, hassoc]
        exact h.foldPairsRight hp.value_mem (0, 0) (hp.value_mem x) rest
  starts x := by
    obtain ⟨c, cs, htext, hc⟩ := hp.starts x.first
    exact ⟨c, cs ++ Row.restText P.text x.rest, congrArg (· ++ Row.restText P.text x.rest) htext,
      hc⟩
  value_mem x := h.joined_mem hp.value_mem (hp.value_mem x.first) x.rest

/-- The grammar of a level reads the level, if the grammar of the tighter one reads that. -/
theorem Readable.level (hg : R.Readable D g L start more) (h : R.Suits D row)
    (hstart : ∀ c ∈ row.symbolsAt .before, ¬start c) (hmore : ∀ c ∈ row.closing, ¬more c) :
    R.Readable D (Grammar.level row.toOperatorRow g) (L.level row)
      (fun c => start c ∨ c ∈ row.symbolsAt .before) fun c => more c ∨ c ∈ row.closing := by
  have hoperands := h.readable_operands hg hstart fun c hc =>
    hmore c (List.mem_append_right _ hc)
  have hchains := h.readable_chains hoperands fun c hc hmem => by
    rcases hmem with hmem | hmem
    · exact hmore c (List.mem_append_left _ hc) hmem
    · exact (List.nodup_append.1 h.closing).2.2 c hc c hmem rfl
  refine ⟨hchains.reads.mono fun c hc => ?_, hchains.starts, hchains.value_mem⟩
  rcases hc with (hc | hc) | hc
  · exact Or.inl hc
  · exact Or.inr (List.mem_append_right _ hc)
  · exact Or.inr (List.mem_append_left _ hc)

/-- The operators of a table do what the table says, and their symbols differ over the whole table
where they may be taken for each other. -/
structure SuitsAll (R : Rules φ) (D : Value φ → Prop) (rows : List (Row φ)) : Prop where
  implements : ∀ row ∈ rows, ∀ op ∈ row.operators, R.Implements D op
  opening : (rows.flatMap (Row.symbolsAt · .before)).Nodup
  closing : (rows.flatMap Row.closing).Nodup

/-- The grammar of a table reads the top level, if the grammar of the terms reads them. -/
theorem Readable.table {rows : List (Row φ)} (hg : R.Readable D g L start more)
    (h : R.SuitsAll D rows) (hstart : ∀ c ∈ rows.flatMap (Row.symbolsAt · .before), ¬start c)
    (hmore : ∀ c ∈ rows.flatMap Row.closing, ¬more c) :
    ∃ start' more', R.Readable D (Grammar.operatorTable (rows.map Row.toOperatorRow) g)
      (L.table rows) start' more' := by
  induction rows generalizing g L start more with
  | nil => exact ⟨start, more, hg⟩
  | cons row rows ih =>
    obtain ⟨himplements, hopening, hclosing⟩ := h
    rw [List.flatMap_cons] at hopening hclosing hstart hmore
    obtain ⟨hopening₁, hopening₂, hopening⟩ := List.nodup_append.1 hopening
    obtain ⟨hclosing₁, hclosing₂, hclosing⟩ := List.nodup_append.1 hclosing
    have hlevel := hg.level
      ⟨fun op hop => himplements row List.mem_cons_self op hop, hopening₁, hclosing₁⟩
      (fun c hc => hstart c (List.mem_append_left _ hc))
      fun c hc => hmore c (List.mem_append_left _ hc)
    refine ih hlevel ⟨fun row' hrow' => himplements row' (List.mem_cons_of_mem _ hrow'), hopening₂,
      hclosing₂⟩ (fun c hc hmem => ?_) fun c hc hmem => ?_
    · rcases hmem with hmem | hmem
      · exact hstart c (List.mem_append_right _ hc) hmem
      · exact hopening c hmem c hc rfl
    · rcases hmem with hmem | hmem
      · exact hmore c (List.mem_append_right _ hc) hmem
      · exact hclosing c hmem c hc rfl

end Rules

end Furthest
