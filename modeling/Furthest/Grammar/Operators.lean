import Furthest.Grammar.Derived

/-!
# Operator tables

A row of a table holds the operators of one precedence.  A level of the grammar wraps the operands
of the tighter level in the row's unary operators and joins them by its binary ones: first those
that group to the left, then those that group to the right, then at most one that does not group.
-/

namespace Furthest

/-- The operators of one precedence; each is a parser of the function to apply. -/
structure OperatorRow (φ : Type) where
  prefixes : List (Grammar φ) := []
  postfixes : List (Grammar φ) := []
  leftInfixes : List (Grammar φ) := []
  rightInfixes : List (Grammar φ) := []
  plainInfixes : List (Grammar φ) := []

namespace Grammar

variable {φ : Type}

/-- Any of several parsers, and the empty list where there are none of them or none matches; a
value is the only item of a list. -/
def anyOptional : List (Grammar φ) → Grammar φ
  | [] => .succeed (.list [])
  | p :: ps => .alt (.mapEnv (.alt p ps) .singleton) [.succeed (.list [])]

/-- An operand with at most one unary operator on either side. -/
def unary (row : OperatorRow φ) (term : Grammar φ) : Grammar φ :=
  .mapEnv (.seq [anyOptional row.prefixes, term, anyOptional row.postfixes]) .surround

/-- Operands joined by operators that group to the left, if there are such operators. -/
def joinLeft (operand : Grammar φ) : List (Grammar φ) → Grammar φ
  | [] => operand
  | p :: ps => chainLeft operand (.alt p ps)

/-- Operands joined by operators that group to the right, if there are such operators. -/
def joinRight (operand : Grammar φ) : List (Grammar φ) → Grammar φ
  | [] => operand
  | p :: ps => chainRight operand (.alt p ps)

/-- At most two operands, joined by an operator that does not group. -/
def joinOnce (operand : Grammar φ) : List (Grammar φ) → Grammar φ
  | [] => operand
  | p :: ps =>
    .mapEnv (.seq [operand, option .null (.seq [.alt p ps, operand])]) .infixOnce

/-- One level: the operands of a tighter level and the operators of a row. -/
def level (row : OperatorRow φ) (term : Grammar φ) : Grammar φ :=
  joinOnce (joinRight (joinLeft (unary row term) row.leftInfixes) row.rightInfixes)
    row.plainInfixes

/-- The grammar of a table, its tightest row first. -/
def operatorTable (rows : List (OperatorRow φ)) (term : Grammar φ) : Grammar φ :=
  rows.foldl (fun term row => level row term) term

end Grammar

end Furthest
