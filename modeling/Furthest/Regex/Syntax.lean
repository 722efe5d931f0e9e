/-!
# Syntax of regular expressions

The tree of a regular expression.  Every option that changes how a part matches (ignoring case,
whether `.` takes a line break, ASCII classes) is recorded in the part it governs.
-/

namespace Furthest.Regex

/-- How characters are compared when case is to be ignored. -/
inductive Fold where
  /-- Case counts. -/
  | exact
  /-- Upper and lower case of ASCII letters are equal. -/
  | ascii
  /-- Upper and lower case of any script are equal. -/
  | full
  deriving DecidableEq, Inhabited

/-- The classes with a letter of their own. -/
inductive Category where
  | digit
  | word
  | space
  deriving DecidableEq, Inhabited

/-- A member of a bracketed set. -/
inductive SetItem where
  | char (code : Nat)
  | range (first last : Nat)
  | category (kind : Category) (negated : Bool)
  deriving DecidableEq, Inhabited

/-- A set of characters. -/
structure CharSet where
  items : List SetItem
  negated : Bool
  fold : Fold
  /-- Whether categories hold ASCII characters only. -/
  ascii : Bool
  deriving DecidableEq, Inhabited

/-- Conditions on the place between two characters. -/
inductive Anchor where
  | textStart
  | lineStart
  | textEnd
  /-- The end, or the place before a line break that ends the text. -/
  | lastLineEnd
  | lineEnd
  | wordEdge (ascii : Bool)
  | noWordEdge (ascii : Bool)
  deriving DecidableEq, Inhabited

/-- A regular expression. -/
inductive Node where
  | empty
  | char (code : Nat) (fold : Fold)
  | any (lineBreaks : Bool)
  | set (s : CharSet)
  | anchor (a : Anchor)
  /-- A capturing group. -/
  | group (number : Nat) (body : Node)
  /-- The text that a group captured last. -/
  | backReference (number : Nat) (fold : Fold)
  | seq (first second : Node)
  | alt (first second : Node)
  /-- One expression or another, by whether a group has captured a text. -/
  | conditional (number : Nat) (yes no : Node)
  /-- From `min` to `max` times, as often as possible if `greedy` and else as rarely. -/
  | loop (min : Nat) (max : Option Nat) (greedy : Bool) (body : Node)
  /-- The first match of the body, which stands whatever comes after it. -/
  | atomic (body : Node)
  | lookAhead (negated : Bool) (body : Node)
  | lookBehind (negated : Bool) (body : Node)
  deriving DecidableEq, Inhabited

namespace Node

/-- An expression and the rest of a sequence, if there is any. -/
def followedBy (item : Node) : Node → Node
  | .empty => item
  | rest => .seq item rest

/-- The number of characters an expression takes, where that does not depend on the text. -/
def width : Node → Nat
  | .char .. | .any _ | .set _ => 1
  | .group _ body | .atomic body => body.width
  | .seq a b => a.width + b.width
  | .alt a _ | .conditional _ a _ => a.width
  | .loop min _ _ body => min * body.width
  | .empty | .anchor _ | .backReference .. | .lookAhead .. | .lookBehind .. => 0

end Node

end Furthest.Regex
