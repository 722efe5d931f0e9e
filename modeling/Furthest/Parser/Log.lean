import Furthest.Message
import Furthest.Value.Printer

/-!
# The log of attempts

What a run tells about itself: where it starts and fails, and each attempt of a traced parser.
-/

namespace Furthest

/-- An entry of the log. -/
inductive LogEntry (φ : Type) where
  /-- A whole text of so many characters is parsed. -/
  | parsing (length : Nat) (parser : Ref)
  /-- It did not match. -/
  | parseFailed (report : Report)
  /-- A traced parser starts at an offset, before some text. -/
  | trying (label : Value φ) (offset : Nat) (ahead : String)
  /-- It matched. -/
  | matched (label : Value φ) (start stop : Nat) (value : Value φ)
  /-- It failed. -/
  | failed (label : Value φ) (report : Report)

namespace LogEntry

variable {φ : Type} [FunctionText φ]

/-- A report in the words of the log. -/
def reportText (r : Report) : String :=
  "failed at " ++ toString r.furthest ++ ", expected " ++ Value.textsDisplay r.expected

/-- The wording of an entry. -/
def render (names : Ref → Option String) : LogEntry φ → String
  | .parsing length p =>
    "parsing " ++ toString length ++ " characters with " ++ Value.parserText (names p)
  | .parseFailed r => "parse " ++ reportText r
  | .trying label offset ahead =>
    label.describe names ++ ": trying at " ++ toString offset ++ ": " ++ Text.quoted ahead
  | .matched label start stop v =>
    label.describe names ++ ": matched " ++ toString start ++ ".." ++ toString stop ++ ": " ++
      v.display names
  | .failed label r => label.describe names ++ ": " ++ reportText r

end LogEntry

end Furthest
