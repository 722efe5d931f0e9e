import Furthest.Text.Printable

/-!
# Quoted text

How text is shown inside other text: between quotes, with a backslash before what the quotes would
not survive.  Single quotes enclose it, or double quotes when it holds a single quote and no double
quote.  An unprintable character is written by its code point, in two, four or eight hexadecimal
digits.
-/

namespace Furthest.Text

/-- A hexadecimal digit, in lower case. -/
def hexDigit (n : Nat) : Char :=
  if n < 10 then Char.ofNat (48 + n) else Char.ofNat (87 + n)

/-- The last `width` hexadecimal digits of a number. -/
def hexDigits : (width : Nat) → Nat → List Char
  | 0, _ => []
  | width + 1, n => hexDigits width (n / 16) ++ [hexDigit (n % 16)]

/-- An unprintable character by its code point. -/
def escapeCode (n : Nat) : List Char :=
  if n < 0x100 then '\\' :: 'x' :: hexDigits 2 n
  else if n < 0x10000 then '\\' :: 'u' :: hexDigits 4 n
  else '\\' :: 'U' :: hexDigits 8 n

/-- One character inside the given quotes. -/
def escapeChar (quote c : Char) : List Char :=
  if c = quote || c = '\\' then ['\\', c]
  else if c = '\n' then ['\\', 'n']
  else if c = '\r' then ['\\', 'r']
  else if c = '\t' then ['\\', 't']
  else if isPrintable c then [c]
  else escapeCode c.toNat

/-- The quote that encloses a text. -/
def quoteFor (text : List Char) : Char :=
  if text.contains '\'' && !text.contains '"' then '"' else '\''

/-- A text between quotes. -/
def quote (text : List Char) : List Char :=
  let q := quoteFor text
  q :: text.flatMap (escapeChar q) ++ [q]

/-- A text between quotes, as a string. -/
def quoted (text : String) : String := String.ofList (quote text.toList)

/-- One byte inside the given quotes: only ASCII is shown as itself. -/
def escapeByte (q c : Char) : List Char :=
  if c.toNat < 127 then escapeChar q c else escapeCode c.toNat

/-- Bytes between quotes, each given as the character of the same number. -/
def quotedBytes (bytes : String) : String :=
  let text := bytes.toList
  let q := quoteFor text
  String.ofList ('b' :: q :: text.flatMap (escapeByte q) ++ [q])

end Furthest.Text
