import Furthest.Text.LetterCase
import Furthest.Value.Basic

/-!
# Grammars

A `Grammar` is the description of a parser as data: parser objects can be rebound, so what they do
has to be stored and exchanged.  A parser object inside another parser appears by its reference
(`Grammar.object`), and everything else is a tree.

The functions in a grammar are either given by the user, as values, or ones of this library that
take a value apart and put it together again (`Callback`, `Test`).
-/

namespace Furthest

/-- A reference to the state of a deferred parser. -/
abbrev DeferralRef := Nat

/-- Functions on the value of a parser. -/
inductive Callback (φ : Type) where
  /-- A user's function of the value. -/
  | value (f : Value φ)
  /-- A user's function of the value and the environment. -/
  | valueAndEnv (f : Value φ)
  /-- A user's function of the items of a list. -/
  | spread (f : Value φ)
  /-- One item of a list. -/
  | item (k : Nat)
  /-- Always the same value. -/
  | constant (v : Value φ)
  /-- A list of the value alone. -/
  | singleton
  /-- The first item of a list before those of the second. -/
  | cons
  /-- Texts joined to one. -/
  | concat
  /-- A mark of start, value and end. -/
  | mark
  /-- An operand and pairs of operator and operand, grouped to the left. -/
  | foldLeft
  /-- An operand and pairs of operator and operand, grouped to the right. -/
  | foldRight
  /-- An operand between an optional operator before it and one after it. -/
  | surround
  /-- An operand and, optionally, an operator with its second operand. -/
  | infixOnce

/-- Tests of one character. -/
inductive Test (φ : Type) where
  /-- A user's function of the character. -/
  | value (f : Value φ)
  /-- A user's function of the character and the environment. -/
  | valueAndEnv (f : Value φ)
  | oneOf (cs : List Char)
  | noneOf (cs : List Char)
  | digit
  | blank
  | upper
  | lower
  | letter
  | letterOrNumeral

/-- A parser as data. -/
inductive Grammar (φ : Type) where
  /-- What a parser object does when it comes to it. -/
  | object (r : Ref)
  /-- A user's function of text, offset and environment. -/
  | custom (f : Value φ)
  | succeed (v : Value φ)
  | fail (label : String)
  | offset
  | position
  | eof
  | anyChar
  | rest
  | string (literal : String)
  | regex (p : Pattern) (group : GroupName) (label : String)
  | satisfy (test : Test φ) (label : String)
  | takeWhile (test : Test φ)
  | seq (ps : List (Grammar φ))
  | alt (p : Grammar φ) (ps : List (Grammar φ))
  | times (p : Grammar φ) (min max : Limit)
  | mapEnv (p : Grammar φ) (f : Callback φ)
  | chainEnv (p : Grammar φ) (f : Callback φ)
  | relabel (p : Grammar φ) (label : String)
  | except (allowed forbidden : Grammar φ)
  | lookAhead (p : Grammar φ)
  | trace (p : Grammar φ) (label : Value φ)
  | subEnv (p : Grammar φ) (derive : Value φ)
  | fromEnv (lookup : Value φ)
  /-- A parser that is made when it is first used. -/
  | deferred (d : DeferralRef)

instance {φ : Type} : Inhabited (Grammar φ) := ⟨.rest⟩

/-! ## The shared parser objects -/

namespace Ref

/-- The parser of the offset. -/
def offset : Ref := 0

/-- The parser of the offset with line and column. -/
def position : Ref := 1

/-- The parser of the end of the text. -/
def eof : Ref := 2

/-- The parser of any character. -/
def anyChar : Ref := 3

/-- The parser of the rest of the text. -/
def rest : Ref := 4

end Ref

end Furthest
