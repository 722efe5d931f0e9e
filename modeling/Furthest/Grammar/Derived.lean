import Furthest.Grammar.Basic

/-!
# Parsers put together from others

Repetitions, lists with separators, chains of operators and the like, each as a grammar over the
basic ones.
-/

namespace Furthest.Grammar

variable {φ : Type}

/-! ## Sequences -/

/-- One of the values of a sequence. -/
def seqItem (ps : List (Grammar φ)) (k : Nat) : Grammar φ := .mapEnv (.seq ps) (.item k)

/-- `p`, then `after`, whose value is dropped. -/
def skip (p after : Grammar φ) : Grammar φ := seqItem [p, after] 0

/-- `before`, whose value is dropped, then `p`. -/
def skipLeft (before p : Grammar φ) : Grammar φ := seqItem [before, p] 1

/-- `p` between two others. -/
def between (opening closing p : Grammar φ) : Grammar φ := seqItem [opening, p, closing] 1

/-- A user's function of the values of a sequence. -/
def seqMap (ps : List (Grammar φ)) (f : Value φ) : Grammar φ := .mapEnv (.seq ps) (.spread f)

/-- `p`, and then the end of the text. -/
def whole (p : Grammar φ) : Grammar φ := skip p (.object Ref.eof)

/-- A value with the offsets where it started and ended. -/
def mark (p : Grammar φ) : Grammar φ :=
  .mapEnv (.seq [.object Ref.offset, p, .object Ref.offset]) .mark

/-- A value with the positions where it started and ended. -/
def markPositions (p : Grammar φ) : Grammar φ :=
  .mapEnv (.seq [.object Ref.position, p, .object Ref.position]) .mark

/-! ## Repetition -/

/-- As many as there are. -/
def many (p : Grammar φ) : Grammar φ := .times p (.finite 0) .infinite

/-- As many as there are, and at least one. -/
def many1 (p : Grammar φ) : Grammar φ := .times p (.finite 1) .infinite

/-- `p`, whose value is dropped. -/
def void (p : Grammar φ) : Grammar φ := .mapEnv p (.constant .null)

/-- As many as there are; their values are dropped. -/
def skipMany (p : Grammar φ) : Grammar φ := void (many p)

/-- As many as there are, and at least one; their values are dropped. -/
def skipMany1 (p : Grammar φ) : Grammar φ := void (many1 p)

/-! ## Options -/

/-- `p`, or a value in its place. -/
def option (v : Value φ) (p : Grammar φ) : Grammar φ := .alt p [.succeed v]

/-- `p` if it matches; its value is dropped. -/
def optional (p : Grammar φ) : Grammar φ := option .null (void p)

/-- Matches nothing, where `p` does not match. -/
def notFollowedBy (p : Grammar φ) : Grammar φ := .except (.succeed .null) p

/-! ## Lists -/

/-- One or more `p` with `sep` between them. -/
def sepBy1 (p sep : Grammar φ) : Grammar φ := .mapEnv (.seq [p, many (skipLeft sep p)]) .cons

/-- Any number of `p` with `sep` between them. -/
def sepBy (p sep : Grammar φ) : Grammar φ :=
  .alt (sepBy1 p sep) [.mapEnv (.succeed .null) (.constant (.list []))]

/-- Any number of `p`, each with `sep` after it. -/
def endBy (p sep : Grammar φ) : Grammar φ := many (skip p sep)

/-- Any number of `p` with `sep` between them and, optionally, after the last. -/
def sepEndBy (p sep : Grammar φ) : Grammar φ := skip (sepBy p sep) (optional sep)

/-- Any number of `p`, up to the first `stop`. -/
def manyTill (p stop : Grammar φ) : Grammar φ := skip (many (.except p stop)) stop

/-! ## Chains of operators -/

/-- `p` with operators between, grouped to the left. -/
def chainLeft (p op : Grammar φ) : Grammar φ :=
  .mapEnv (.seq [p, many (.seq [op, p])]) .foldLeft

/-- `p` with operators between, grouped to the right. -/
def chainRight (p op : Grammar φ) : Grammar φ :=
  .mapEnv (.seq [p, many (.seq [op, p])]) .foldRight

/-! ## Characters -/

/-- A character that passes a test, under a label of its own. -/
def charOf (test : Test φ) (label : String) : Grammar φ := .relabel (.satisfy test label) label

/-- The members of a set in order, each once, as one text. -/
def membersText (members : List String) : String :=
  "".intercalate ((members.mergeSort fun a b => !decide (b < a)).eraseDups)

/-- The members of a set that are single characters. -/
def memberChars (members : List String) : List Char :=
  members.filterMap fun s => match s.toList with
    | [c] => some c
    | _ => none

/-- The label of a character of a set. -/
def oneOfLabel (members : List String) : String := "one of " ++ membersText members

/-- The label of a character outside a set. -/
def noneOfLabel (members : List String) : String := "none of " ++ membersText members

/-- A character of a set. -/
def oneOf (members : List String) : Grammar φ :=
  charOf (.oneOf (memberChars members)) (oneOfLabel members)

/-- A character outside a set. -/
def noneOf (members : List String) : Grammar φ :=
  charOf (.noneOf (memberChars members)) (noneOfLabel members)

/-- An ASCII digit. -/
def digit : Grammar φ := charOf .digit "digit"

/-- ASCII digits as one text. -/
def digits (min : Limit) : Grammar φ := .mapEnv (.times digit min .infinite) .concat

/-- A character of white space. -/
def space : Grammar φ := charOf .blank "space"

/-- White space, as much as there is. -/
def spaces : Grammar φ := .takeWhile .blank

/-- A line break. -/
def newline : Grammar φ := .relabel (.string "\n") "lf new-line"

/-- An upper-case letter. -/
def upper : Grammar φ := charOf .upper "uppercase letter"

/-- A lower-case letter. -/
def lower : Grammar φ := charOf .lower "lowercase letter"

/-- A letter. -/
def letter : Grammar φ := charOf .letter "letter"

/-- A letter or numeral. -/
def letterOrNumeral : Grammar φ := charOf .letterOrNumeral "letter or digit"

end Furthest.Grammar
