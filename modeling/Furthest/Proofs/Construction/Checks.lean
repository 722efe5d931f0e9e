import Furthest.Grammar.Checked
import Furthest.Proofs.Construction.Parts

/-!
# Checks of parts

`Built.Checks` says of something that is built from values, some of which are to be parsers, that it
is built if they all are, and that otherwise one that is not is refused by name.  The rules follow
the order in which a computation looks at its values, so each constructor has its parts checked
wherever the check is made: by itself, by the basic parser it expands to, or level by level in an
operator table.

What is built refers to the given parsers and no others (`Guards`).
-/

namespace Furthest

theorem Number.lt_self (n : Number) : n.lt n = false := by
  unfold Number.lt
  cases n.place <;> simp

theorem Value.isParser_iff {φ : Type} {v : Value φ} : v.isParser = true ↔ ∃ r, v = .parser r := by
  cases v <;> simp [isParser]

namespace Checked

open Grammar

variable {φ : Type}

/-- Something is built if some values are all parsers, and otherwise one that is not is refused. -/
structure Built.Checks {α : Type} (x : Built φ α) (parts : List (Value φ)) (Q : α → Prop) :
    Prop where
  accepts : (∀ v ∈ parts, v.isParser = true) → ∃ a, x = .ok a ∧ Q a
  refuses : (∃ v ∈ parts, v.isParser = false) →
    ∃ asker, ∃ v ∈ parts, v.isParser = false ∧ x = .error (.unfit asker .parser v)

section Rules

variable {α β : Type} {x : Built φ α} {f : α → Built φ β} {Q : α → Prop} {R : β → Prop}
  {parts parts' : List (Value φ)}

theorem checks_ok {a : α} (h : Q a) : Built.Checks (.ok a : Built φ α) [] Q where
  accepts _ := ⟨a, rfl, h⟩
  refuses h := by simp at h

/-- Parts that are checked later do not matter when one is refused before. -/
theorem Built.Checks.bind (hx : x.Checks parts Q) (hf : ∀ a, Q a → (f a).Checks parts' R) :
    Built.Checks (x >>= f) (parts ++ parts') R where
  accepts h := by
    rw [List.forall_mem_append] at h
    obtain ⟨a, rfl, ha⟩ := hx.accepts h.1
    exact (hf a ha).accepts h.2
  refuses h := by
    by_cases hparts : ∃ v ∈ parts, v.isParser = false
    · obtain ⟨asker, v, hv, hunfit, rfl⟩ := hx.refuses hparts
      exact ⟨asker, v, List.mem_append_left _ hv, hunfit, rfl⟩
    · have hall : ∀ v ∈ parts, v.isParser = true := by simpa using hparts
      obtain ⟨a, rfl, ha⟩ := hx.accepts hall
      have hlater : ∃ v ∈ parts', v.isParser = false := by
        obtain ⟨v, hv, hunfit⟩ := h
        rcases List.mem_append.1 hv with hv | hv
        · exact absurd (hall v hv) (by simp [hunfit])
        · exact ⟨v, hv, hunfit⟩
      obtain ⟨asker, v, hv, hunfit, hfault⟩ := (hf a ha).refuses hlater
      exact ⟨asker, v, List.mem_append_right _ hv, hunfit, hfault⟩

/-- What comes after the checks has nothing to refuse. -/
theorem Built.Checks.bind_ok (hx : x.Checks parts Q)
    (hf : ∀ a, Q a → ∃ b, f a = .ok b ∧ R b) : Built.Checks (x >>= f) parts R := by
  rw [← List.append_nil parts]
  refine hx.bind fun a ha => ?_
  obtain ⟨b, hb, hR⟩ := hf a ha
  exact hb ▸ checks_ok hR

/-- So has what comes before, if it goes well. -/
theorem Built.Checks.of_bind {a : α} (hx : x = .ok a) (hf : (f a).Checks parts R) :
    Built.Checks (x >>= f) parts R := by
  subst hx
  exact hf

theorem Built.Checks.mono {R : α → Prop} (h : x.Checks parts Q) (hQ : ∀ a, Q a → R a) :
    x.Checks parts R where
  accepts hall :=
    let ⟨a, hx, ha⟩ := h.accepts hall
    ⟨a, hx, hQ a ha⟩
  refuses := h.refuses

/-- The order in which parts are checked does not matter to what is accepted. -/
theorem Built.Checks.of_mem (h : x.Checks parts Q) (hmem : ∀ v, v ∈ parts ↔ v ∈ parts') :
    x.Checks parts' Q where
  accepts hall := h.accepts fun v hv => hall v ((hmem v).1 hv)
  refuses hunfit := by
    obtain ⟨v, hv, hunfit⟩ := hunfit
    obtain ⟨asker, v, hv, hunfit, hfault⟩ := h.refuses ⟨v, (hmem v).2 hv, hunfit⟩
    exact ⟨asker, v, (hmem v).1 hv, hunfit, hfault⟩

theorem checks_part (asker : String) (v : Value φ) :
    (parser asker v).Checks [v] fun g => ∃ r, v = .parser r ∧ g = .object r := by
  cases v with
  | parser r => exact ⟨fun _ => ⟨_, rfl, r, rfl, rfl⟩, fun h => by simp [Value.isParser] at h⟩
  | _ => exact ⟨fun h => by simp [Value.isParser] at h, fun _ => ⟨asker, _, by simp, rfl, rfl⟩⟩

theorem checks_parts (asker : String) (vs : List (Value φ)) :
    (parsers asker vs).Checks vs fun gs =>
      ∃ rs : List Ref, vs = rs.map .parser ∧ gs = rs.map .object := by
  induction vs with
  | nil => exact checks_ok ⟨[], rfl, rfl⟩
  | cons v vs ih =>
    unfold parsers at ih ⊢
    rw [List.mapM_cons]
    refine (checks_part asker v).bind fun _ hg => ?_
    obtain ⟨r, rfl, rfl⟩ := hg
    refine ih.bind_ok fun _ hgs => ?_
    obtain ⟨rs, rfl, rfl⟩ := hgs
    exact ⟨_, rfl, r :: rs, rfl, rfl⟩

end Rules

/-! ## Parsers of a few parts -/

@[simp] theorem behaviour_unnamed (g : Grammar φ) : (unnamed g).behaviour = g := rfl

@[simp] theorem behaviour_labelled (g : Grammar φ) (label : String) :
    (labelled g label).behaviour = g := rfl

/-- An object is built of some parts: it refers to these and no others. -/
abbrev Guards (x : Built φ (Cell φ)) (parts : List (Value φ)) : Prop :=
  x.Checks parts fun c => c.behaviour.Holds parts

section Shapes

variable {p q r : Value φ} {asker asker' asker'' : String}

theorem guards_one {f : Grammar φ → Built φ (Cell φ)}
    (h : ∀ a, ∃ c, f (.object a) = .ok c ∧ c.behaviour.Holds [.parser a]) :
    Guards (do f (← parser asker p)) [p] := by
  refine (checks_part asker p).bind_ok fun _ hp => ?_
  obtain ⟨a, rfl, rfl⟩ := hp
  exact h a

theorem guards_two {f : Grammar φ → Grammar φ → Built φ (Cell φ)}
    (h : ∀ a b, ∃ c, f (.object a) (.object b) = .ok c ∧
      c.behaviour.Holds [.parser a, .parser b]) :
    Guards (do
      let p ← parser asker p
      let q ← parser asker' q
      f p q) [p, q] := by
  refine (checks_part asker p).bind fun _ hp => (checks_part asker' q).bind_ok fun _ hq => ?_
  obtain ⟨a, rfl, rfl⟩ := hp
  obtain ⟨b, rfl, rfl⟩ := hq
  exact h a b

theorem guards_three {f : Grammar φ → Grammar φ → Grammar φ → Built φ (Cell φ)}
    (h : ∀ a b c, ∃ cell, f (.object a) (.object b) (.object c) = .ok cell ∧
      cell.behaviour.Holds [.parser a, .parser b, .parser c]) :
    Guards (do
      let p ← parser asker p
      let q ← parser asker' q
      let r ← parser asker'' r
      f p q r) [p, q, r] := by
  refine (checks_part asker p).bind fun _ hp => (checks_part asker' q).bind fun _ hq =>
    (checks_part asker'' r).bind_ok fun _ hr => ?_
  obtain ⟨a, rfl, rfl⟩ := hp
  obtain ⟨b, rfl, rfl⟩ := hq
  obtain ⟨c, rfl, rfl⟩ := hr
  exact h a b c

/-- Lists with separators look at the separator first. -/
theorem guards_listParts {f : Grammar φ × Grammar φ → Built φ (Cell φ)}
    (h : ∀ a b, ∃ c, f (.object a, .object b) = .ok c ∧
      c.behaviour.Holds [.parser a, .parser b]) :
    Guards (do f (← listParts p q)) [p, q] := by
  have hparts : (listParts p q).Checks [q, p] fun parts =>
      ∃ a b, p = .parser a ∧ q = .parser b ∧ parts = (.object a, .object b) := by
    refine (checks_part "seq" q).bind fun _ hq => (checks_part "seq" p).bind_ok fun _ hp => ?_
    obtain ⟨b, rfl, rfl⟩ := hq
    obtain ⟨a, rfl, rfl⟩ := hp
    exact ⟨_, rfl, a, b, rfl, rfl, rfl⟩
  have hbuilt : Built.Checks (do f (← listParts p q)) [q, p] fun c =>
      c.behaviour.Holds [p, q] := by
    refine hparts.bind_ok fun _ hpq => ?_
    obtain ⟨a, b, rfl, rfl, rfl⟩ := hpq
    exact h a b
  exact hbuilt.of_mem (by simp [or_comm])

end Shapes

/-! ## Constructors -/

section Constructors

variable (p q : Value φ) (f : φ)

theorem guards_mark : Guards (mark p) [p] :=
  guards_one fun _ => ⟨_, rfl, by constructor <;> simp⟩

theorem guards_markPositions : Guards (markPositions p) [p] :=
  guards_one fun _ => ⟨_, rfl, by constructor <;> simp⟩

theorem guards_lookAhead : Guards (lookAhead p) [p] :=
  guards_one fun _ => ⟨_, rfl, by constructor <;> simp⟩

theorem guards_many : Guards (many p) [p] :=
  guards_one fun _ => ⟨_, rfl, by constructor <;> simp⟩

theorem guards_many1 : Guards (many1 p) [p] :=
  guards_one fun _ => ⟨_, rfl, by constructor <;> simp⟩

theorem guards_skipMany : Guards (skipMany p) [p] :=
  guards_one fun _ => ⟨_, rfl, by constructor <;> simp⟩

theorem guards_skipMany1 : Guards (skipMany1 p) [p] :=
  guards_one fun _ => ⟨_, rfl, by constructor <;> simp⟩

theorem guards_option (v : Value φ) : Guards (option v p) [p] :=
  guards_one fun _ => ⟨_, rfl, by constructor <;> simp⟩

theorem guards_optional : Guards (optional p) [p] :=
  guards_one fun _ => ⟨_, rfl, by constructor <;> simp⟩

theorem guards_notFollowedBy : Guards (notFollowedBy p) [p] :=
  guards_one fun _ => ⟨_, rfl, by constructor <;> simp⟩

theorem guards_trace (label : Value φ) : Guards (trace p label) [p] :=
  guards_one fun _ => ⟨_, rfl, by constructor <;> simp⟩

theorem guards_relabel (label : String) : Guards (relabel p (.text label)) [p] :=
  guards_one fun _ => ⟨_, rfl, by constructor <;> simp⟩

theorem guards_map : Guards (map p (.function f)) [p] :=
  guards_one fun _ => ⟨_, rfl, by constructor <;> simp⟩

theorem guards_mapEnv : Guards (mapEnv p (.function f)) [p] :=
  guards_one fun _ => ⟨_, rfl, by constructor <;> simp⟩

theorem guards_chain : Guards (chain p (.function f)) [p] :=
  guards_one fun _ => ⟨_, rfl, by constructor <;> simp⟩

theorem guards_chainEnv : Guards (chainEnv p (.function f)) [p] :=
  guards_one fun _ => ⟨_, rfl, by constructor <;> simp⟩

theorem guards_subEnv : Guards (subEnv p (.function f)) [p] :=
  guards_one fun _ => ⟨_, rfl, by constructor <;> simp⟩

theorem guards_except : Guards (except p q) [p, q] :=
  guards_two fun _ _ => ⟨_, rfl, by constructor <;> simp⟩

theorem guards_skip : Guards (skip p q) [p, q] :=
  guards_two fun _ _ => ⟨_, rfl, by constructor <;> simp⟩

theorem guards_skipLeft : Guards (skipLeft p q) [p, q] :=
  guards_two fun _ _ => ⟨_, rfl, by constructor <;> simp⟩

theorem guards_endBy : Guards (endBy p q) [p, q] :=
  guards_two fun _ _ => ⟨_, rfl, by constructor <;> simp⟩

theorem guards_manyTill : Guards (manyTill p q) [p, q] :=
  guards_two fun _ _ => ⟨_, rfl, by constructor <;> simp⟩

theorem guards_sepBy1 : Guards (sepBy1 p q) [p, q] :=
  guards_listParts fun _ _ => ⟨_, rfl, by constructor <;> simp⟩

theorem guards_sepBy : Guards (sepBy p q) [p, q] :=
  guards_listParts fun _ _ => ⟨_, rfl, by constructor <;> simp⟩

theorem guards_sepEndBy : Guards (sepEndBy p q) [p, q] :=
  guards_listParts fun _ _ => ⟨_, rfl, by constructor <;> simp⟩

theorem guards_chainLeft : Guards (chainLeft p q) [p, q] :=
  guards_listParts fun _ _ => ⟨_, rfl, by constructor <;> simp⟩

theorem guards_chainRight : Guards (chainRight p q) [p, q] :=
  guards_listParts fun _ _ => ⟨_, rfl, by constructor <;> simp⟩

theorem guards_between (opening closing : Value φ) :
    Guards (between opening closing p) [opening, p, closing] :=
  guards_three fun _ _ _ => ⟨_, rfl, by constructor <;> simp⟩

/-! ### Repetitions between bounds -/

theorem guards_times {min max : Number} (hmin : min.lt (.int 0) = false)
    (hmax : max.lt min = false) : Guards (times p (.number min) (.number max)) [p] := by
  have hbounds : (bounds min max : Built φ (Limit × Limit)) = .ok (min.limit, max.limit) := by
    simp [bounds, hmin, hmax]
  have hrepeated : (repeated p (.number min) (.number max)).Checks [p] fun g =>
      ∃ a, p = .parser a ∧ g = .times (.object a) min.limit max.limit := by
    refine (checks_part "times" p).bind_ok fun _ hp => ?_
    obtain ⟨a, rfl, rfl⟩ := hp
    refine ⟨_, ?_, a, rfl, rfl⟩
    change (bounds min max >>= fun most => pure (Grammar.times (.object a) most.1 most.2)) = _
    rw [hbounds]
    rfl
  refine hrepeated.bind_ok fun _ hg => ?_
  obtain ⟨a, rfl, rfl⟩ := hg
  exact ⟨_, rfl, by constructor <;> simp⟩

/-! ### Any number of parts -/

theorem guards_seq (ps : List (Value φ)) : Guards (seq ps) ps := by
  refine (checks_parts "seq" ps).bind_ok fun _ hps => ?_
  obtain ⟨rs, rfl, rfl⟩ := hps
  exact ⟨_, rfl, by constructor <;> simp +contextual⟩

theorem guards_alt (ps : List (Value φ)) : Guards (alt (p :: ps)) (p :: ps) := by
  have hparts : (alternatives (p :: ps)).Checks (p :: ps) fun g =>
      ∃ rs : List Ref, p :: ps = rs.map .parser ∧ g.objects = rs := by
    refine (checks_part "alt" p).bind fun _ hp => ?_
    refine (checks_parts "alt" ps).bind_ok fun _ hps => ?_
    obtain ⟨r, rfl, rfl⟩ := hp
    obtain ⟨rs, rfl, rfl⟩ := hps
    exact ⟨_, rfl, r :: rs, rfl, by simp⟩
  refine hparts.bind_ok fun g hg => ?_
  obtain ⟨rs, hrs, hg⟩ := hg
  exact ⟨_, rfl, by constructor <;> simp +contextual [hrs, hg]⟩

theorem guards_seqMap (ps : List (Value φ)) : Guards (seqMap (ps ++ [.function f])) ps := by
  simp only [seqMap, List.getLast?_concat, List.dropLast_concat]
  refine (checks_parts "seq" ps).bind_ok fun _ hps => ?_
  obtain ⟨rs, rfl, rfl⟩ := hps
  exact ⟨_, rfl, by constructor <;> simp +contextual⟩

end Constructors

/-! ## Operator tables -/

/-- The parser of an operator. -/
def operatorPart : Value φ → Option (Value φ)
  | .infixOp p _ | .prefixOp p | .postfixOp p => some p
  | _ => none

namespace RawRow

/-- The operators of a row, of whichever kind. -/
def parts (row : RawRow φ) : List (Value φ) :=
  row.prefixes ++ row.postfixes ++ row.leftInfixes ++ row.rightInfixes ++ row.plainInfixes

theorem mem_parts {row : RawRow φ} {v : Value φ} :
    v ∈ row.parts ↔ v ∈ row.prefixes ∨ v ∈ row.postfixes ∨ v ∈ row.leftInfixes ∨
      v ∈ row.rightInfixes ∨ v ∈ row.plainInfixes := by
  simp [parts]

/-- A row of operators can be sorted, which leaves out none and adds none. -/
theorem ofValues_parts {ops parts : List (Value φ)} (h : ops.mapM operatorPart = some parts) :
    ∃ row : RawRow φ, ofValues ops = .ok row ∧ ∀ v, v ∈ row.parts ↔ v ∈ parts := by
  induction ops generalizing parts with
  | nil =>
    cases h
    exact ⟨{}, rfl, by simp [mem_parts]⟩
  | cons op ops ih =>
    simp only [List.mapM_cons, Option.bind_eq_bind, Option.bind_eq_some_iff] at h
    obtain ⟨p, hp, ps, hps, ⟨⟩⟩ := h
    obtain ⟨row, hrow, hmem⟩ := ih hps
    -- The first operator goes to one of the five kinds, in front of those that are there.
    have hadd : ∀ row' : RawRow φ, ofValues (op :: ops) = .ok row' →
        (∀ v, v ∈ row'.parts ↔ v = p ∨ v ∈ row.parts) →
        ∃ row : RawRow φ, ofValues (op :: ops) = .ok row ∧ ∀ v, v ∈ row.parts ↔ v ∈ p :: ps :=
      fun row' hrow' hp => ⟨row', hrow', fun v => by rw [hp, hmem, List.mem_cons]⟩
    cases op with
    | infixOp q assoc =>
      cases hp
      cases assoc with
      | none =>
        refine hadd _ (by rw [ofValues, hrow]; rfl) fun v => ?_
        simp only [mem_parts, List.mem_cons]
        tauto
      | left =>
        refine hadd _ (by rw [ofValues, hrow]; rfl) fun v => ?_
        simp only [mem_parts, List.mem_cons]
        tauto
      | right =>
        refine hadd _ (by rw [ofValues, hrow]; rfl) fun v => ?_
        simp only [mem_parts, List.mem_cons]
        tauto
    | prefixOp q =>
      cases hp
      refine hadd _ (by rw [ofValues, hrow]; rfl) fun v => ?_
      simp only [mem_parts, List.mem_cons, or_assoc]
    | postfixOp q =>
      cases hp
      refine hadd _ (by rw [ofValues, hrow]; rfl) fun v => ?_
      simp only [mem_parts, List.mem_cons]
      tauto
    | _ => cases hp

end RawRow

/-- A level checks what its term checks and the operators of its row, and refers to what its term
refers to and these. -/
theorem checks_level (row : RawRow φ) {term : Built φ (Grammar φ)} {checked held : List (Value φ)}
    (ht : term.Checks checked fun g => g.Holds held) :
    (level row term).Checks (checked ++ row.parts) fun g => g.Holds (held ++ row.parts) := by
  -- The unary operators are looked at first, then the term, then the operators between operands.
  have hmem : ∀ vs v, v ∈ row.prefixes ++ (row.postfixes ++ (vs ++ (row.leftInfixes ++
      (row.rightInfixes ++ row.plainInfixes)))) ↔ v ∈ vs ++ row.parts := by
    intro vs v
    simp only [RawRow.mem_parts, List.mem_append]
    tauto
  refine Built.Checks.of_mem ?_ (hmem checked)
  refine (checks_parts "alt" _).bind fun _ hprefixes => ?_
  refine (checks_parts "alt" _).bind fun _ hpostfixes => ht.bind fun g hg => ?_
  refine (checks_parts "alt" _).bind fun _ hleft => ?_
  refine (checks_parts "alt" _).bind fun _ hright => ?_
  refine (checks_parts "alt" _).bind_ok fun _ hplain => ⟨_, rfl, ?_⟩
  obtain ⟨prefixes, hprefixes, rfl⟩ := hprefixes
  obtain ⟨postfixes, hpostfixes, rfl⟩ := hpostfixes
  obtain ⟨left, hleft, rfl⟩ := hleft
  obtain ⟨right, hright, rfl⟩ := hright
  obtain ⟨plain, hplain, rfl⟩ := hplain
  refine Grammar.Holds.of_mem ?_ (hmem held)
  rw [hprefixes, hpostfixes, hleft, hright, hplain]
  constructor
  · intro o ho
    have hterm := hg.all o
    simp only [List.mem_append, List.mem_map, Value.parser.injEq, exists_eq_right] at ho
    simp only [mem_objects_level, objectsAll_map_object]
    tauto
  · intro o ho
    have hterm := hg.only o
    simp only [mem_objects_level, objectsAll_map_object] at ho
    simp only [List.mem_append, List.mem_map, Value.parser.injEq, exists_eq_right]
    tauto

/-- A row holds the operators of some parsers. -/
def RowParts (row : Value φ) (parts : List (Value φ)) : Prop :=
  ∃ ops, items row = .ok ops ∧ ops.mapM operatorPart = some parts

/-- A row is sorted before anything in it is checked. -/
theorem RowParts.checks {row : Value φ} {term : Built φ (Grammar φ)}
    {checked held parts : List (Value φ)} (h : RowParts row parts)
    (ht : term.Checks checked fun g => g.Holds held) :
    ∃ ops raw, items row = .ok ops ∧ RawRow.ofValues ops = .ok raw ∧
      (level raw term).Checks (checked ++ parts) fun g => g.Holds (held ++ parts) := by
  obtain ⟨ops, hops, hparts⟩ := h
  obtain ⟨raw, hraw, hmem⟩ := RawRow.ofValues_parts hparts
  have hmem' : ∀ vs v, v ∈ vs ++ raw.parts ↔ v ∈ vs ++ parts := by
    simp [hmem]
  exact ⟨ops, raw, hops, hraw,
    ((checks_level raw ht).mono fun g hg => hg.of_mem (hmem' held)).of_mem (hmem' checked)⟩

/-- Row by row, the operators that are left are checked. -/
theorem checks_levels {term : Grammar φ} {held : List (Value φ)} (ht : term.Holds held)
    {rows : List (Value φ)} {parts : List (List (Value φ))}
    (hrows : List.Forall₂ RowParts rows parts) :
    (levels term rows).Checks parts.flatten fun g => g.Holds (held ++ parts.flatten) := by
  induction hrows generalizing term held with
  | nil => exact checks_ok (by simpa using ht)
  | @cons row rowParts rows parts hrow _ ih =>
    obtain ⟨ops, raw, hops, hraw, hlevel⟩ := hrow.checks (checks_ok ht)
    refine Built.Checks.of_bind hops (Built.Checks.of_bind hraw ?_)
    refine hlevel.bind fun g hg => ?_
    rw [List.flatten_cons, ← List.append_assoc]
    exact ih hg

/-- A table with rows checks its term and all its operators, whatever the row. -/
theorem checks_operatorTable {table : Value φ} (term : Value φ) {rows : List (Value φ)}
    {parts : List (List (Value φ))} (hitems : items table = .ok rows) (hne : rows ≠ [])
    (hrows : List.Forall₂ RowParts rows parts) :
    (operatorTable table term).Checks (term :: parts.flatten) fun made =>
      ∃ c, made = some c ∧ c.behaviour.Holds (term :: parts.flatten) := by
  cases hrows with
  | nil => exact absurd rfl hne
  | @cons row rowParts rows parts hrow hrows =>
    have hterm : (parser "seq" term).Checks [term] fun g => g.Holds [term] :=
      (checks_part "seq" term).mono fun _ hg => by
        obtain ⟨r, rfl, rfl⟩ := hg
        constructor <;> simp
    obtain ⟨ops, raw, hops, hraw, hlevel⟩ := hrow.checks hterm
    refine Built.Checks.of_bind hitems (Built.Checks.of_bind hops (Built.Checks.of_bind hraw ?_))
    refine hlevel.bind fun first hfirst => ?_
    refine (checks_levels hfirst hrows).bind_ok fun g hg => ⟨_, rfl, _, rfl, ?_⟩
    exact hg

/-- A table without rows checks nothing: the term is not even looked at. -/
theorem operatorTable_of_empty {table : Value φ} (term : Value φ) (hitems : items table = .ok []) :
    operatorTable table term = .ok none := by
  simp only [operatorTable, hitems]
  rfl

end Checked

end Furthest
