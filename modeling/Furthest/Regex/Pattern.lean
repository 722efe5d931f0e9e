import Furthest.Regex.Reader
import Furthest.Regex.Matcher
import Furthest.Text.Quoted

/-!
# Patterns

A regular expression together with its text and options.  A pattern of bytes can be built and shown
but not run.
-/

namespace Furthest

open Regex

/-- A regular expression, ready to run. -/
structure Pattern where
  text : String
  options : Options
  ofBytes : Bool
  root : Node
  groups : Groups
  deriving Inhabited

/-- A group, by number or by name; number `0` is the whole match. -/
inductive GroupName where
  | number (n : Int)
  | name (s : String)
  deriving DecidableEq, Inhabited

/-- A match: where it ended, the text it took, and what its groups captured. -/
structure PatternMatch where
  stop : Nat
  text : List Char
  captures : Captures

namespace Pattern

/-- The pattern of a text. -/
def ofText (options : Options) (ofBytes : Bool) (text : String) : Option Pattern :=
  (readPattern options text.toList).map fun parsed =>
    ⟨text, parsed.options, ofBytes, parsed.root, parsed.groups⟩

/-- The pattern without the caret it begins with: at an offset, a match is anchored already. -/
def dropCaret (p : Pattern) : Pattern :=
  match p.ofBytes, p.text.toList with
  | false, '^' :: rest => (ofText p.options false (String.ofList rest)).getD p
  | _, _ => p

/-- The first match at an offset; past the end of the text it is tried at the end. -/
def matchAt (p : Pattern) (text : List Char) (offset : Nat) : Option PatternMatch :=
  (p.root.matchAt text offset).map fun (c, captures) =>
    let start := min offset text.length
    ⟨c.offset, (text.drop start).take (c.offset - start), captures⟩

/-- The number of a group, if the pattern has it. -/
def groupNumber? (p : Pattern) : GroupName → Option Nat
  | .number n => if 0 ≤ n && n ≤ p.groups.count then some n.toNat else none
  | .name s => p.groups.names.lookup s

/-- The letters and words of the options that are set. -/
def optionNames (o : Options) : List String :=
  [(o.ignoreCase, "re.IGNORECASE"), (o.multiLine, "re.MULTILINE"), (o.dotAll, "re.DOTALL"),
    (o.verbose, "re.VERBOSE"), (o.ascii, "re.ASCII")].filterMap fun (set, name) =>
    if set then some name else none

/-- The text between slashes in a label. -/
def labelText (p : Pattern) : String :=
  if p.ofBytes then Text.quotedBytes p.text else p.text

/-- How a pattern is shown: its quoted text, cut after 200 characters, and its options. -/
def display (p : Pattern) : String :=
  let quoted := if p.ofBytes then Text.quotedBytes p.text else Text.quoted p.text
  let shown := String.ofList (quoted.toList.take 200)
  let names := optionNames p.options
  "re.compile(" ++ shown ++ (if names.isEmpty then "" else ", " ++ "|".intercalate names) ++ ")"

end Pattern

namespace PatternMatch

/-- What a group captured, if it took part; group `0` is the whole match. -/
def group? (m : PatternMatch) (number : Nat) : Option String :=
  if number = 0 then some (String.ofList m.text)
  else (m.captures.lookup number).map String.ofList

end PatternMatch

end Furthest
