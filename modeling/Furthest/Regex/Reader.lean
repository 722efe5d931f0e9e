import Furthest.Regex.Syntax

/-!
# Reading regular expressions

`readPattern` turns the text of a regular expression into its tree.  Each reader answers with what
it has read and the text that follows, or with nothing where the text is malformed.  Options given
at the start of the text (`(?m)`) govern all of it, those of a group (`(?i:…)`) the group.  Groups
are numbered in the order of their opening brackets, from 1.  Comments (`(?#…)`) may stand before
and after each item; a repetition behind a comment is that of the item before it.
-/

namespace Furthest.Regex

/-- The options of a regular expression. -/
structure Options where
  ignoreCase : Bool := false
  multiLine : Bool := false
  dotAll : Bool := false
  verbose : Bool := false
  ascii : Bool := false
  deriving DecidableEq, Inhabited

namespace Options

/-- How characters are compared under these options. -/
def fold (o : Options) : Fold :=
  if o.ignoreCase then (if o.ascii then .ascii else .full) else .exact

/-- Sets or clears the option of a letter. -/
def put (o : Options) (value : Bool) : Char → Option Options
  | 'i' => some { o with ignoreCase := value }
  | 'm' => some { o with multiLine := value }
  | 's' => some { o with dotAll := value }
  | 'x' => some { o with verbose := value }
  | 'a' => some { o with ascii := value }
  | 'u' => some { o with ascii := !value }
  | _ => none

/-- Sets or clears the options of several letters. -/
def putAll (o : Options) (value : Bool) (letters : List Char) : Option Options :=
  letters.foldlM (fun o c => o.put value c) o

end Options

/-- The groups that have been opened so far. -/
structure Groups where
  count : Nat := 0
  names : List (String × Nat) := []
  deriving Inhabited

/-! ## Numbers and escapes -/

/-- The value of a hexadecimal digit. -/
def hexValue (c : Char) : Option Nat :=
  if c.isDigit then some (c.toNat - 48)
  else if 'a' ≤ c && c ≤ 'f' then some (c.toNat - 87)
  else if 'A' ≤ c && c ≤ 'F' then some (c.toNat - 55)
  else none

/-- Reads a code point of `width` hexadecimal digits. -/
def readHex : (width : Nat) → (value : Nat) → List Char → Option (Nat × List Char)
  | 0, value, cs => some (value, cs)
  | width + 1, value, c :: cs => (hexValue c).bind fun d => readHex width (16 * value + d) cs
  | _ + 1, _, [] => none

/-- Whether a character is an octal digit. -/
def isOctal (c : Char) : Bool := '0' ≤ c && c ≤ '7'

/-- Reads up to `width` octal digits. -/
def readOctal : (width : Nat) → (value : Nat) → List Char → Nat × List Char
  | width + 1, value, c :: cs =>
    if isOctal c then readOctal width (8 * value + (c.toNat - 48)) cs else (value, c :: cs)
  | _, value, cs => (value, cs)

/-- The number that decimal digits write. -/
def decimalValue (digits : List Char) : Nat :=
  digits.foldl (fun n c => 10 * n + (c.toNat - 48)) 0

/-- Reads what follows a backslash that stands for a single character. -/
def readCharEscape : List Char → Option (Nat × List Char)
  | 'n' :: cs => some (10, cs)
  | 't' :: cs => some (9, cs)
  | 'r' :: cs => some (13, cs)
  | 'f' :: cs => some (12, cs)
  | 'v' :: cs => some (11, cs)
  | 'a' :: cs => some (7, cs)
  | 'x' :: cs => readHex 2 0 cs
  | 'u' :: cs => readHex 4 0 cs
  | 'U' :: cs => readHex 8 0 cs
  | '0' :: cs => some (readOctal 2 0 cs)
  | c :: cs => if c.isAlphanum then none else some (c.toNat, cs)
  | [] => none

/-- The category of an escape letter, and whether it is negated. -/
def categoryOf : Char → Option (Category × Bool)
  | 'd' => some (.digit, false)
  | 'D' => some (.digit, true)
  | 'w' => some (.word, false)
  | 'W' => some (.word, true)
  | 's' => some (.space, false)
  | 'S' => some (.space, true)
  | _ => none

/-! ## Bracketed sets -/

/-- Reads one member of a set, without the end of a range. -/
def readMember : List Char → Option (SetItem × List Char)
  | '\\' :: 'b' :: cs => some (.char 8, cs)
  | '\\' :: c :: cs =>
    match categoryOf c with
    | some (kind, negated) => some (.category kind negated, cs)
    | none =>
      if isOctal c then
        let (code, cs) := readOctal 3 0 (c :: cs)
        some (.char code, cs)
      else (readCharEscape (c :: cs)).map fun (code, cs) => (.char code, cs)
  | c :: cs => some (.char c.toNat, cs)
  | [] => none

/-- Reads one member of a set or a range of them.  A dash at the end of the set is a member. -/
def readMemberOrRange (cs : List Char) : Option (SetItem × List Char) := do
  let (item, cs) ← readMember cs
  match item, cs with
  | .char low, '-' :: c :: cs' =>
    if c = ']' then pure (item, cs)
    else
      let (high, cs) ← readMember (c :: cs')
      match high with
      | .char high => pure (.range low high, cs)
      | _ => none
  | item, cs => pure (item, cs)

/-- Reads the members of a set up to its closing bracket, which is a member if it comes first. -/
def readMembers : (fuel : Nat) → (first : Bool) → List Char → Option (List SetItem × List Char)
  | 0, _, _ => none
  | fuel + 1, first, cs =>
    match first, cs with
    | false, ']' :: cs => some ([], cs)
    | _, cs => do
      let (item, cs) ← readMemberOrRange cs
      let (items, cs) ← readMembers fuel false cs
      pure (item :: items, cs)

/-- Reads a set from its first member on. -/
def readSetMembers (o : Options) (negated : Bool) (cs : List Char) : Option (Node × List Char) :=
  (readMembers (cs.length + 1) true cs).map fun (items, cs) =>
    (.set ⟨items, negated, o.fold, o.ascii⟩, cs)

/-- Reads a set after its opening bracket. -/
def readSet (o : Options) : List Char → Option (Node × List Char)
  | '^' :: cs => readSetMembers o true cs
  | cs => readSetMembers o false cs

/-! ## Repetition -/

/-- Reads the bounds of a repetition, if one comes next.  A brace that does not enclose bounds is an
ordinary character. -/
def readBounds : List Char → Option ((Nat × Option Nat) × List Char)
  | '*' :: cs => some ((0, none), cs)
  | '+' :: cs => some ((1, none), cs)
  | '?' :: cs => some ((0, some 1), cs)
  | '{' :: cs =>
    let (low, rest) := cs.span Char.isDigit
    match low, rest with
    | _ :: _, '}' :: rest => some ((decimalValue low, some (decimalValue low)), rest)
    | low, ',' :: rest =>
      let (high, rest) := rest.span Char.isDigit
      match rest with
      | '}' :: rest =>
        some ((decimalValue low, if high.isEmpty then none else some (decimalValue high)), rest)
      | _ => none
    | _, _ => none
  | _ => none

/-- With what the items begin that cannot be repeated: conditions on a place. -/
def fixedMarks : List (List Char) :=
  [['^'], ['$'], ['\\', 'A'], ['\\', 'Z'], ['\\', 'b'], ['\\', 'B']]

/-- Whether a text begins with an item that cannot be repeated. -/
def beginsFixed (cs : List Char) : Bool := fixedMarks.any (·.isPrefixOf cs)

/-- Repeats an expression, if it is not `fixed`, as the text that follows says: as often as
possible, as rarely as possible where a question mark follows the bounds, and without giving back
any round where a plus does. -/
def readRepetition (fixed : Bool) (item : Node) (cs : List Char) : Option (Node × List Char) :=
  match readBounds cs with
  | none => some (item, cs)
  | some ((low, high), cs) =>
    if fixed || high.any (decide <| · < low) then none
    else match cs with
      | '?' :: cs => some (.loop low high false item, cs)
      | '+' :: cs => some (.atomic (.loop low high true item), cs)
      | cs => some (.loop low high true item, cs)

/-- Drops the blanks and comments of a verbose expression. -/
def skipBlanks : (fuel : Nat) → List Char → List Char
  | fuel + 1, c :: cs =>
    if " \t\n\r\x0b\x0c".toList.contains c then skipBlanks fuel cs
    else if c = '#' then skipBlanks fuel (cs.dropWhile (· != '\n'))
    else c :: cs
  | _, cs => cs

/-- Drops what the options leave out. -/
def Options.skip (o : Options) (cs : List Char) : List Char :=
  if o.verbose then skipBlanks (cs.length + 1) cs else cs

/-- Reads up to a character, which has to come and is left out. -/
def readUntil (stop : Char) : List Char → Option (List Char × List Char)
  | [] => none
  | c :: cs =>
    if c = stop then some ([], cs)
    else (readUntil stop cs).map fun (text, cs) => (c :: text, cs)

/-- Drops what the options leave out, and comments in brackets, which have to be closed. -/
def Options.pass (o : Options) : (fuel : Nat) → List Char → Option (List Char)
  | 0, _ => none
  | fuel + 1, cs =>
    match o.skip cs with
    | '(' :: '?' :: '#' :: cs => do
      let (_, cs) ← readUntil ')' cs
      o.pass fuel cs
    | cs => some cs

/-! ## Expressions -/

/-- The number of a group, by its name. -/
def Groups.find (g : Groups) (name : List Char) : Option Nat :=
  g.names.lookup (String.ofList name)

/-- The number of a group, by its digits or its name. -/
def Groups.number? (g : Groups) (text : List Char) : Option Nat :=
  if text.all Char.isDigit then
    if decimalValue text = 0 then none else some (decimalValue text)
  else g.find text

/-- Reads what follows a backslash and a digit other than zero outside a set: three octal digits are
a character, and other digits, two at most, the number of a group. -/
def readGroupEscape (o : Options) (c : Char) : List Char → Node × List Char
  | d :: e :: cs =>
    if isOctal c && isOctal d && isOctal e then (.char (readOctal 3 0 [c, d, e]).1 o.fold, cs)
    else if d.isDigit then (.backReference (decimalValue [c, d]) o.fold, e :: cs)
    else (.backReference (decimalValue [c]) o.fold, d :: e :: cs)
  | [d] =>
    if d.isDigit then (.backReference (decimalValue [c, d]) o.fold, [])
    else (.backReference (decimalValue [c]) o.fold, [d])
  | [] => (.backReference (decimalValue [c]) o.fold, [])

/-- Reads what follows a backslash outside a set. -/
def readEscape (o : Options) : List Char → Option (Node × List Char)
  | [] => none
  | c :: cs =>
    match categoryOf c with
    | some (kind, negated) => some (.set ⟨[.category kind negated], false, .exact, o.ascii⟩, cs)
    | none =>
      match c with
      | 'A' => some (.anchor .textStart, cs)
      | 'Z' => some (.anchor .textEnd, cs)
      | 'b' => some (.anchor (.wordEdge o.ascii), cs)
      | 'B' => some (.anchor (.noWordEdge o.ascii), cs)
      | c =>
        if c.isDigit && c != '0' then some (readGroupEscape o c cs)
        else (readCharEscape (c :: cs)).map fun (code, cs) => (.char code o.fold, cs)

/-- The kinds of round brackets. -/
inductive Bracket where
  | capture (name : Option String)
  | plain (options : Options)
  | look (ahead negated : Bool)
  | atomic
  | conditional (number : Nat)
  /-- A bracket that is complete in itself. -/
  | closed (node : Node)

/-- Reads the letters of options, and sets or clears these. -/
def readOptions (o : Options) (value : Bool) (cs : List Char) : Option (Options × List Char) :=
  let (letters, cs) := cs.span Char.isAlpha
  (o.putAll value letters).map fun o => (o, cs)

/-- Reads options, up to the body that they govern. -/
def readOptionBracket (o : Options) (cs : List Char) : Option (Bracket × List Char) := do
  let (o, cs) ← readOptions o true cs
  match cs with
  | ':' :: cs => some (.plain o, cs)
  | '-' :: cs => do
    let (o, cs) ← readOptions o false cs
    match cs with
    | ':' :: cs => some (.plain o, cs)
    | _ => none
  | _ => none

/-- Reads what follows an opening round bracket, up to the body. -/
def readBracket (o : Options) (g : Groups) : List Char → Option (Bracket × List Char)
  | '?' :: ':' :: cs => some (.plain o, cs)
  | '?' :: '>' :: cs => some (.atomic, cs)
  | '?' :: '=' :: cs => some (.look true false, cs)
  | '?' :: '!' :: cs => some (.look true true, cs)
  | '?' :: '<' :: '=' :: cs => some (.look false false, cs)
  | '?' :: '<' :: '!' :: cs => some (.look false true, cs)
  | '?' :: 'P' :: '<' :: cs =>
    (readUntil '>' cs).map fun (name, cs) => (.capture (some (String.ofList name)), cs)
  | '?' :: 'P' :: '=' :: cs => do
    let (name, cs) ← readUntil ')' cs
    (g.find name).map fun n => (.closed (.backReference n o.fold), cs)
  | '?' :: '(' :: cs => do
    let (name, cs) ← readUntil ')' cs
    (g.number? name).map fun n => (.conditional n, cs)
  | '?' :: cs => readOptionBracket o cs
  | cs => some (.capture none, cs)

/-- Closes a round bracket. -/
def closeBracket : List Char → Option (List Char)
  | ')' :: cs => some cs
  | _ => none

mutual

/-- Reads alternatives up to a closing bracket or the end. -/
def readAlternatives (o : Options) (g : Groups) (cs : List Char) :
    (fuel : Nat) → Option ((Node × Groups) × List Char)
  | 0 => none
  | fuel + 1 => do
    let ((first, g), cs) ← readSequence o g cs fuel
    match cs with
    | '|' :: cs =>
      let ((second, g), cs) ← readAlternatives o g cs fuel
      pure ((.alt first second, g), cs)
    | cs => pure ((first, g), cs)

/-- Reads items one after another. -/
def readSequence (o : Options) (g : Groups) (cs : List Char) :
    (fuel : Nat) → Option ((Node × Groups) × List Char)
  | 0 => none
  | fuel + 1 => do
    match ← o.pass (cs.length + 1) cs with
    | [] => some ((.empty, g), [])
    | '|' :: cs => some ((.empty, g), '|' :: cs)
    | ')' :: cs => some ((.empty, g), ')' :: cs)
    | c :: cs => do
      let ((item, g), rest) ← readItem o g (c :: cs) fuel
      let rest ← o.pass (rest.length + 1) rest
      let (item, rest) ← readRepetition (beginsFixed (c :: cs)) item rest
      let ((others, g), rest) ← readSequence o g rest fuel
      pure ((item.followedBy others, g), rest)

/-- Reads one item without its repetition.  Bounds are no item: there is nothing they repeat. -/
def readItem (o : Options) (g : Groups) (cs : List Char) :
    (fuel : Nat) → Option ((Node × Groups) × List Char)
  | 0 => none
  | fuel + 1 =>
    match cs with
    | [] => none
    | '.' :: cs => some ((.any o.dotAll, g), cs)
    | '^' :: cs => some ((.anchor (if o.multiLine then .lineStart else .textStart), g), cs)
    | '$' :: cs => some ((.anchor (if o.multiLine then .lineEnd else .lastLineEnd), g), cs)
    | '[' :: cs => (readSet o cs).map fun (n, cs) => ((n, g), cs)
    | '\\' :: cs => (readEscape o cs).map fun (n, cs) => ((n, g), cs)
    | '(' :: cs => do
      let (bracket, cs) ← readBracket o g cs
      match bracket with
      | .closed node => pure ((node, g), cs)
      | .plain o' =>
        let ((body, g), cs) ← readAlternatives o' g cs fuel
        pure ((body, g), ← closeBracket cs)
      | .look ahead negated =>
        let ((body, g), cs) ← readAlternatives o g cs fuel
        let node := if ahead then Node.lookAhead negated body else Node.lookBehind negated body
        pure ((node, g), ← closeBracket cs)
      | .atomic =>
        let ((body, g), cs) ← readAlternatives o g cs fuel
        pure ((.atomic body, g), ← closeBracket cs)
      | .conditional number =>
        let ((yes, g), cs) ← readSequence o g cs fuel
        match cs with
        | '|' :: cs =>
          let ((no, g), cs) ← readSequence o g cs fuel
          pure ((.conditional number yes no, g), ← closeBracket cs)
        | cs => pure ((.conditional number yes .empty, g), ← closeBracket cs)
      | .capture name =>
        let number := g.count + 1
        let names := match name with
          | some name => (name, number) :: g.names
          | none => g.names
        let ((body, g), cs) ← readAlternatives o ⟨number, names⟩ cs fuel
        pure ((.group number body, g), ← closeBracket cs)
    | c :: cs =>
      if (readBounds (c :: cs)).isSome then none else some ((.char c.toNat o.fold, g), cs)

end

/-- Options at the start of an expression, and what follows them. -/
def readLeadingOptions (o : Options) (cs : List Char) : Options × List Char :=
  match cs with
  | '(' :: '?' :: rest =>
    match readOptions o true rest with
    | some (o', ')' :: rest) => (o', rest)
    | _ => (o, cs)
  | cs => (o, cs)

/-- An expression with its options and groups. -/
structure Parsed where
  options : Options
  root : Node
  groups : Groups

/-- Reads a whole expression. -/
def readPattern (o : Options) (text : List Char) : Option Parsed :=
  let (o, cs) := readLeadingOptions o text
  match readAlternatives o {} cs (3 * cs.length + 3) with
  | some ((root, groups), []) => some ⟨o, root, groups⟩
  | _ => none

end Furthest.Regex
