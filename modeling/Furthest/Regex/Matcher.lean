import Furthest.Regex.Syntax
import Furthest.Text.Blank
import Furthest.Text.Letter
import Furthest.Text.CaseFold

/-!
# Matching regular expressions

A backtracking matcher: the first way to match wins, where the left branch of an alternative comes
before the right one, and one more round of a greedy loop before none.  A matcher is told what has
to match afterwards (its continuation), and tries its ways in turn until that succeeds.

A loop past its minimum starts another round only where the text has moved on since the last such
round began, so a round that takes no text ends the loop (`Node.run`, `rounds`).
-/

namespace Furthest.Regex

/-- A place in a text, with the characters before it (nearest first) and after it. -/
structure Cursor where
  offset : Nat
  before : List Char
  after : List Char
  deriving Inhabited

namespace Cursor

/-- The place at an offset; past the end it is the end. -/
def ofOffset (text : List Char) (offset : Nat) : Cursor :=
  let before := text.take offset
  ⟨before.length, before.reverse, text.drop offset⟩

/-- One character back. -/
def back (c : Cursor) : Option Cursor :=
  match c.before with
  | [] => none
  | x :: before => some ⟨c.offset - 1, before, x :: c.after⟩

/-- Several characters back. -/
def backBy : Nat → Cursor → Option Cursor
  | 0, c => some c
  | n + 1, c => c.back.bind (backBy n)

/-- The text between a place and a later one. -/
def textTo (start stop : Cursor) : List Char := start.after.take (stop.offset - start.offset)

end Cursor

/-- The texts that groups have captured, the latest first. -/
abbrev Captures := List (Nat × List Char)

/-- Where a match ended, and what its groups captured. -/
abbrev Found := Cursor × Captures

/-- What has to match afterwards. -/
abbrev Continuation := Cursor → Captures → Option Found

/-! ## Single characters -/

/-- Whether a character is one that `\w` takes. -/
def isWord (ascii : Bool) (c : Char) : Bool :=
  c = '_' || if ascii then c.isAlphanum else Text.isLetterOrNumeral c

/-- Whether a character is of a category. -/
def Category.has (k : Category) (ascii : Bool) (c : Char) : Bool :=
  match k with
  | .digit => if ascii then c.isDigit else Text.isDecimal c
  | .word => isWord ascii c
  | .space => if ascii then " \t\n\r\x0b\x0c".toList.contains c else Text.isBlank c

/-- The form in which characters are compared. -/
def Fold.key : Fold → Nat → Nat
  | .exact, n => n
  | .ascii, n => Text.lowerCaseAscii n
  | .full, n => Text.lowerCase n

/-- Whether two characters are the same, or differ in case only. -/
def Fold.same (f : Fold) (a b : Nat) : Bool :=
  match f with
  | .full => (Text.caseVariants (Text.lowerCase a)).contains (Text.lowerCase b)
  | f => f.key a == f.key b

/-- All code points that are the same as `n` under a fold. -/
def Fold.sources (f : Fold) (n : Nat) : List Nat :=
  match f with
  | .exact => [n]
  | .ascii =>
    let l := Text.lowerCaseAscii n
    if 97 ≤ l && l ≤ 122 then [l, l - 32] else [l]
  | .full =>
    (Text.caseVariants (Text.lowerCase n)).flatMap fun l =>
      l :: Text.caseShifts.filterMap fun s =>
        let source := ((l : Int) - s.shift).toNat
        if s.contains source then some source else none

/-- Whether a set holds a character. -/
def CharSet.has (s : CharSet) (c : Char) : Bool :=
  let sources := s.fold.sources c.toNat
  let found := s.items.any fun
    | .char code => sources.contains code
    | .range first last => sources.any fun n => decide (first ≤ n) && decide (n ≤ last)
    | .category kind negated => kind.has s.ascii (Char.ofNat (s.fold.key c.toNat)) != negated
  found != s.negated

/-- Whether a place lies between a word character and another one or an end. -/
def atWordEdge (ascii : Bool) (c : Cursor) : Bool :=
  (c.before.head?.any (isWord ascii)) != (c.after.head?.any (isWord ascii))

/-- Whether a condition holds at a place.  An empty text has neither edges of words nor places
without one. -/
def Anchor.holds : Anchor → Cursor → Bool
  | .textStart, c => c.before.isEmpty
  | .lineStart, c => c.before.isEmpty || c.before.head? == some '\n'
  | .textEnd, c => c.after.isEmpty
  | .lastLineEnd, c => c.after.isEmpty || c.after == ['\n']
  | .lineEnd, c => c.after.isEmpty || c.after.head? == some '\n'
  | .wordEdge ascii, c => atWordEdge ascii c
  | .noWordEdge ascii, c =>
    !(c.before.isEmpty && c.after.isEmpty) && !atWordEdge ascii c

/-- Takes one character that passes a test. -/
def takeChar (test : Char → Bool) (k : Continuation) : Continuation := fun c caps =>
  match c.after with
  | [] => none
  | x :: after => if test x then k ⟨c.offset + 1, x :: c.before, after⟩ caps else none

/-- Takes a given text. -/
def takeText (fold : Fold) : List Char → Continuation → Continuation
  | [], k => k
  | x :: text, k => takeChar (fun y => fold.same x.toNat y.toNat) (takeText fold text k)

/-! ## Loops and the whole expression -/

/-- The rounds of a loop that has begun `count` of them.  `last` is where the last round past the
minimum began; `fuel` bounds the rounds still to come. -/
def rounds (round : Continuation → Continuation) (min : Nat) (max : Option Nat) (greedy : Bool)
    (k : Continuation) : (fuel count : Nat) → (last : Option Nat) → Continuation
  | 0, _, _, _, _ => none
  | fuel + 1, count, last, c, caps =>
    if count < min then round (rounds round min max greedy k fuel (count + 1) last) c caps
    else
      let another : Unit → Option Found := fun _ =>
        if max.all (decide <| count < ·) && last != some c.offset then
          round (rounds round min max greedy k fuel (count + 1) (some c.offset)) c caps
        else none
      if greedy then another () <|> k c caps else k c caps <|> another ()

/-- Matches an expression, then the continuation.  Each round of a loop past the minimum takes text
or is the last, so the rounds of a loop are bounded by its minimum and the text that is left. -/
def Node.run : Node → Continuation → Continuation
  | .empty, k, c, caps => k c caps
  | .char code fold, k, c, caps => takeChar (fun x => fold.same code x.toNat) k c caps
  | .any lineBreaks, k, c, caps => takeChar (fun x => lineBreaks || x != '\n') k c caps
  | .set s, k, c, caps => takeChar s.has k c caps
  | .anchor a, k, c, caps => if a.holds c then k c caps else none
  | .group number body, k, c, caps =>
    body.run (fun c' caps' => k c' ((number, c.textTo c') :: caps')) c caps
  | .backReference number fold, k, c, caps =>
    match caps.lookup number with
    | some text => takeText fold text k c caps
    | none => none
  | .seq a b, k, c, caps => a.run (fun c' caps' => b.run k c' caps') c caps
  | .alt a b, k, c, caps => a.run k c caps <|> b.run k c caps
  | .conditional number yes no, k, c, caps =>
    if (caps.lookup number).isSome then yes.run k c caps else no.run k c caps
  | .loop min max greedy body, k, c, caps =>
    rounds (fun k' c' caps' => body.run k' c' caps') min max greedy k
      (min + c.after.length + 2) 0 none c caps
  | .atomic body, k, c, caps =>
    match body.run (fun c' caps' => some (c', caps')) c caps with
    | some (c', caps') => k c' caps'
    | none => none
  | .lookAhead negated body, k, c, caps =>
    match body.run (fun c' caps' => some (c', caps')) c caps with
    | some (_, caps') => if negated then none else k c caps'
    | none => if negated then k c caps else none
  | .lookBehind negated body, k, c, caps =>
    match (Cursor.backBy body.width c).bind fun start =>
        body.run (fun c' caps' => some (c', caps')) start caps with
    | some (_, caps') => if negated then none else k c caps'
    | none => if negated then k c caps else none

/-- The first match that starts at an offset. -/
def Node.matchAt (n : Node) (text : List Char) (offset : Nat) : Option Found :=
  n.run (fun c caps => some (c, caps)) (Cursor.ofOffset text offset) []

end Furthest.Regex
