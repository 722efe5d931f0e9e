import Furthest.Grammar.Checked

/-!
# The grammar of an operator table

A table has a row of operators for each level, the tightest first.  The phrases of a level are
`Chain`s of `Operand`s: an operand is a phrase of the tighter level with at most one operator before
it and at most one after it, and a chain joins operands by the operators between them, in any number
or, where these do not group, at most once.  `Phrases` keeps derivations apart from their texts, so
that a text may or may not have a derivation, or have several.

This says nothing of parsers.  `Checked.operatorTable_rows` gives the grammar that is built from the
same rows.
-/

namespace Furthest

variable {φ α : Type}

/-- Derivations, with the text that each derives and the value that it has. -/
structure Phrases (α : Type) where
  Tree : Type
  text : Tree → List Char
  value : Tree → α

/-- Where an operator stands. -/
inductive Fixity where
  | before
  | between
  | after
  deriving DecidableEq

/-- An operator: where it stands, the character it is written as, the object that parses it, the
function that this gives, and what the function computes from its arguments. -/
structure Operator (φ : Type) where
  fixity : Fixity
  symbol : Char
  parser : Ref
  function : φ
  meaning : List (Value φ) → Value φ

/-- The operators of one level, and how those between operands group. -/
structure Row (φ : Type) where
  operators : List (Operator φ)
  assoc : Assoc

namespace Row

variable (row : Row φ)

/-- The operators that stand in one place. -/
def operatorsAt (place : Fixity) : List (Operator φ) :=
  row.operators.filter fun op => op.fixity = place

/-- An operator of the row that stands in one place. -/
abbrev Op (place : Fixity) : Type := { op : Operator φ // op ∈ row.operatorsAt place }

/-- The symbols of the operators that stand in one place. -/
def symbolsAt (place : Fixity) : List Char := (row.operatorsAt place).map Operator.symbol

/-- The symbols that may follow an operand. -/
def closing : List Char := row.symbolsAt .between ++ row.symbolsAt .after

theorem mem_operatorsAt {row : Row φ} {place : Fixity} {op : Operator φ} :
    op ∈ row.operatorsAt place ↔ op ∈ row.operators ∧ op.fixity = place := by
  simp [operatorsAt]

end Row

/-! ## Derivations -/

/-- A tree with at most one operator before it and at most one after it. -/
structure Operand (row : Row φ) (T : Type) where
  before : Option (row.Op .before)
  inner : T
  after : Option (row.Op .after)

/-- Trees with operators between them. -/
structure Chain (row : Row φ) (T : Type) where
  first : T
  rest : List (row.Op .between × T)
  short : row.assoc = .none → rest.length ≤ 1

namespace Row

variable {row : Row φ} {place : Fixity} {T : Type}

/-- The text of an operator, if there is one. -/
def symbolOf : Option (row.Op place) → List Char
  | none => []
  | some op => [op.1.symbol]

/-- An operator, if there is one, applied to a value. -/
def applied : Option (row.Op place) → Value φ → Value φ
  | none, v => v
  | some op, v => op.1.meaning [v]

/-- Operators with their second operands, applied to a value from the left. -/
def joinedLeft (value : T → Value φ) : Value φ → List (row.Op place × T) → Value φ
  | v, [] => v
  | v, (op, x) :: rest => joinedLeft value (op.1.meaning [v, value x]) rest

/-- Operators with their second operands, applied to a value from the right. -/
def joinedRight (value : T → Value φ) : Value φ → List (row.Op place × T) → Value φ
  | v, [] => v
  | v, (op, x) :: rest => op.1.meaning [v, joinedRight value (value x) rest]

/-- Operators with their second operands, applied to a value as the row groups them. -/
def joined (value : T → Value φ) (v : Value φ) (rest : List (row.Op place × T)) : Value φ :=
  match row.assoc with
  | .right => joinedRight value v rest
  | _ => joinedLeft value v rest

theorem joined_nil (value : T → Value φ) (v : Value φ) :
    joined value v ([] : List (row.Op place × T)) = v := by
  unfold joined
  split <;> rfl

theorem joined_single (value : T → Value φ) (v : Value φ) (y : row.Op place × T) :
    joined value v [y] = y.1.1.meaning [v, value y.2] := by
  unfold joined
  split <;> rfl

/-- The text of operators with their second operands. -/
def restText (text : T → List Char) (rest : List (row.Op place × T)) : List Char :=
  rest.flatMap fun y => y.1.1.symbol :: text y.2

end Row

namespace Phrases

/-- The runs of characters of a class; none is empty. -/
def runs (cls : Char → Bool) (value : List Char → Value φ) : Phrases (Value φ) where
  Tree := { cs : List Char // cs ≠ [] ∧ ∀ c ∈ cs, cls c }
  text := Subtype.val
  value cs := value cs.1

variable (row : Row φ) (L : Phrases (Value φ))

/-- The operands of a row: the operator before is applied first. -/
def operands : Phrases (Value φ) where
  Tree := Operand row L.Tree
  text x := Row.symbolOf x.before ++ (L.text x.inner ++ Row.symbolOf x.after)
  value x := Row.applied x.after (Row.applied x.before (L.value x.inner))

/-- The chains of a row. -/
def chains : Phrases (Value φ) where
  Tree := Chain row L.Tree
  text x := L.text x.first ++ Row.restText L.text x.rest
  value x := Row.joined L.value (L.value x.first) x.rest

/-- One level above `L`. -/
def level : Phrases (Value φ) := (L.operands row).chains row

/-- The top level of a table over `L`. -/
def table (rows : List (Row φ)) : Phrases (Value φ) := rows.foldl (fun L row => L.level row) L

end Phrases

/-! ## What is built from a table -/

/-- An operator as the table builder takes it. -/
def Operator.toValue (assoc : Assoc) (op : Operator φ) : Value φ :=
  match op.fixity with
  | .before => .prefixOp (.parser op.parser)
  | .between => .infixOp (.parser op.parser) assoc
  | .after => .postfixOp (.parser op.parser)

namespace Row

variable (row : Row φ)

/-- A row as the table builder takes it. -/
def toValue : Value φ := .list (row.operators.map (Operator.toValue row.assoc))

/-- The parsers of the operators that stand in one place. -/
def parsersAt (place : Fixity) : List Ref := (row.operatorsAt place).map Operator.parser

/-- The parsers of the operators between operands, if they group in one way. -/
def joiners (assoc : Assoc) : List Ref :=
  if row.assoc = assoc then row.parsersAt .between else []

/-- The row of grammars that is built from a row of operators. -/
def toOperatorRow : OperatorRow φ where
  prefixes := (row.parsersAt .before).map .object
  postfixes := (row.parsersAt .after).map .object
  leftInfixes := (row.joiners .left).map .object
  rightInfixes := (row.joiners .right).map .object
  plainInfixes := (row.joiners .none).map .object

end Row

namespace Checked

/-- A row of operators by kind, as it is before any check. -/
def rawOf (row : Row φ) : RawRow φ where
  prefixes := (row.parsersAt .before).map .parser
  postfixes := (row.parsersAt .after).map .parser
  leftInfixes := (row.joiners .left).map .parser
  rightInfixes := (row.joiners .right).map .parser
  plainInfixes := (row.joiners .none).map .parser

theorem rawRow_ofValues (assoc : Assoc) (ops : List (Operator φ)) :
    RawRow.ofValues (ops.map (Operator.toValue assoc)) = .ok (rawOf ⟨ops, assoc⟩) := by
  induction ops with
  | nil => cases assoc <;> rfl
  | cons op ops ih =>
    obtain ⟨place, symbol, parser, function, meaning⟩ := op
    cases place <;> cases assoc <;>
    · simp only [List.map_cons, Operator.toValue, RawRow.ofValues]
      rw [ih]
      rfl

theorem parsers_map (asker : String) (rs : List Ref) :
    parsers asker (rs.map Value.parser) = .ok (rs.map Grammar.object : List (Grammar φ)) := by
  induction rs with
  | nil => rfl
  | cons r rs ih =>
    unfold parsers at ih ⊢
    rw [List.map_cons, List.mapM_cons, ih]
    rfl

theorem built_bind {β γ : Type} (b : β) (f : β → Built φ γ) : (.ok b >>= f) = f b := rfl

theorem level_rawOf (row : Row φ) (term : Grammar φ) :
    level (rawOf row) (.ok term) = .ok (.level row.toOperatorRow term) := by
  simp only [level, rawOf, parsers_map, built_bind]
  rfl

theorem levels_rows (rows : List (Row φ)) (term : Grammar φ) :
    levels term (rows.map Row.toValue) =
      .ok (Grammar.operatorTable (rows.map Row.toOperatorRow) term) := by
  induction rows generalizing term with
  | nil => rfl
  | cons row rows ih =>
    simp only [List.map_cons, levels, Row.toValue, items, built_bind, rawRow_ofValues, level_rawOf]
    exact ih _

/-- The grammar that is built from the rows of a table over a term. -/
theorem operatorTable_rows (row : Row φ) (rows : List (Row φ)) (term : Ref) :
    operatorTable (.list ((row :: rows).map Row.toValue)) (.parser term) = .ok (some (unnamed
      (Grammar.operatorTable ((row :: rows).map Row.toOperatorRow) (.object term)))) := by
  simp only [operatorTable, List.map_cons, items, Row.toValue, built_bind, rawRow_ofValues, parser,
    level_rawOf, levels_rows]
  rfl

end Checked

end Furthest
