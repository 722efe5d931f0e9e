import Furthest.Grammar.Denotation

/-!
# Watching a run

`Grammar.denoteWith` is the behaviour of a grammar where a `Watcher` may add something to the
parsers without parts that can fail, each with its label and the place of its failure, and to the
parsers that word their report by themselves.  With a watcher that adds nothing it is the behaviour
of the grammar (`Grammar.denoteWith_blind`).
-/

namespace Furthest

/-- What is added to the parsers in a run. -/
structure Watcher (m : Type → Type) (φ : Type) where
  /-- Added to a parser without parts that can fail. -/
  leaf : (label : String) → (place : Input → Nat → Nat) → Behaviour m φ → Behaviour m φ
  /-- Added to a parser that words its report by itself. -/
  foreign : Behaviour m φ → Behaviour m φ

variable {m : Type → Type} {φ : Type}

namespace Watcher

/-- A watcher that adds nothing. -/
def blind : Watcher m φ := ⟨fun _ _ p => p, fun p => p⟩

/-- A failure where the attempt started. -/
def start : Input → Nat → Nat := fun _ i => i

/-- A failure at the first character that differs from a given text. -/
def mismatch (literal : String) : Input → Nat → Nat :=
  fun s i => i + Leaf.commonPrefix literal.toList (s.drop i)

/-- Where a text is not found, it is the same up to the mismatch and differs there. -/
theorem mismatch_first {literal : String} {s : Input} {i : Nat}
    (h : ¬literal.toList <+: s.drop i) :
    literal.toList[mismatch literal s i - i]? ≠ s[mismatch literal s i]? ∧
      ∀ k, i + k < mismatch literal s i → literal.toList[k]? = s[i + k]? := by
  unfold mismatch
  refine ⟨?_, fun k hk => ?_⟩
  · rw [Nat.add_sub_cancel_left, ← List.getElem?_drop]
    exact Leaf.getElem?_commonPrefix_ne h
  · have hlt : k < Leaf.commonPrefix literal.toList (s.drop i) := Nat.lt_of_add_lt_add_left hk
    have htake := congrArg (·[k]?) (Leaf.take_commonPrefix literal.toList (s.drop i))
    simpa [List.getElem?_take, hlt] using htake

end Watcher

namespace Grammar

variable [Monad m] [MonadExceptOf (Halt φ) m]

section

variable (watcher : Watcher m φ) (host : Host m φ)

mutual

/-- The behaviour of a grammar under a watcher. -/
def denoteWith : Grammar φ → Behaviour m φ
  | .object r => host.object r
  | .custom f => watcher.foreign ((custom f).denote host)
  | .succeed v => Behaviour.leaf (Leaf.succeed v)
  | .fail label => watcher.leaf label Watcher.start (Behaviour.leaf (Leaf.fail label))
  | .offset => Behaviour.leaf Leaf.offset
  | .position => Behaviour.leaf Leaf.position
  | .eof => watcher.leaf "end of input" Watcher.start (Behaviour.leaf Leaf.eof)
  | .anyChar => watcher.leaf "any character" Watcher.start (Behaviour.leaf Leaf.anyChar)
  | .rest => Behaviour.leaf Leaf.rest
  | .string literal =>
    watcher.leaf ("'" ++ literal ++ "'") (Watcher.mismatch literal)
      (Behaviour.leaf (Leaf.string literal))
  | .regex p group label => watcher.leaf label Watcher.start (Behaviour.regex p group label)
  | .satisfy test label =>
    watcher.leaf label Watcher.start (Behaviour.satisfy (test.run host.call) label)
  | .takeWhile test => Behaviour.takeWhile fun c => test.run host.call c .null
  | .seq ps => Behaviour.seq (denoteAllWith ps)
  | .alt p ps => Behaviour.alt p.denoteWith (denoteAllWith ps)
  | .times p min max => Behaviour.times p.denoteWith min max host.budget
  | .mapEnv p f => Behaviour.mapEnv p.denoteWith (f.run host.call)
  | .chainEnv p f =>
    Behaviour.chainEnv p.denoteWith fun v env => do
      host.chosen (.unfit "chain" .parser) (← f.run host.call v env)
  | .relabel p label => watcher.foreign (Behaviour.relabel p.denoteWith label)
  | .except allowed forbidden =>
    watcher.foreign (Behaviour.except allowed.denoteWith forbidden.denoteWith host.describe)
  | .lookAhead p => Behaviour.lookAhead p.denoteWith
  | .trace p label => Behaviour.trace p.denoteWith label host.log
  | .subEnv p derive => Behaviour.subEnv p.denoteWith fun env => host.call derive [env]
  | .fromEnv lookup =>
    Behaviour.fromEnv fun env => do host.chosen (.notFound · lookup) (← host.call lookup [env])
  | .deferred d => host.deferred d

/-- The behaviours of several grammars under a watcher. -/
def denoteAllWith : List (Grammar φ) → List (Behaviour m φ)
  | [] => []
  | p :: ps => p.denoteWith :: denoteAllWith ps

end

mutual

/-- What nothing is added to does what it does. -/
theorem denoteWith_blind : (g : Grammar φ) → g.denoteWith .blind host = g.denote host
  | .seq ps => by
    show Behaviour.seq _ = Behaviour.seq _
    rw [denoteAllWith_blind ps]
  | .alt p ps => by
    show Behaviour.alt _ _ = Behaviour.alt _ _
    rw [denoteWith_blind p, denoteAllWith_blind ps]
  | .times p min max => by
    show Behaviour.times _ min max host.budget = _
    rw [denoteWith_blind p]
    rfl
  | .mapEnv p f => by
    show Behaviour.mapEnv _ (f.run host.call) = _
    rw [denoteWith_blind p]
    rfl
  | .chainEnv p f => by
    rw [denoteWith, denoteWith_blind p]
    rfl
  | .relabel p label => by
    show Behaviour.relabel _ label = Behaviour.relabel _ label
    rw [denoteWith_blind p]
  | .except allowed forbidden => by
    show Behaviour.except _ _ host.describe = Behaviour.except _ _ host.describe
    rw [denoteWith_blind allowed, denoteWith_blind forbidden]
  | .lookAhead p => by
    show Behaviour.lookAhead _ = Behaviour.lookAhead _
    rw [denoteWith_blind p]
  | .trace p label => by
    show Behaviour.trace _ label host.log = Behaviour.trace _ label host.log
    rw [denoteWith_blind p]
  | .subEnv p derive => by
    show Behaviour.subEnv (p.denoteWith .blind host) _ = Behaviour.subEnv (p.denote host) _
    rw [denoteWith_blind p]
  | .object _ | .custom _ | .succeed _ | .fail _ | .offset | .position | .eof | .anyChar | .rest
  | .string _ | .regex .. | .satisfy .. | .takeWhile _ | .fromEnv _ | .deferred _ => rfl

theorem denoteAllWith_blind :
    (ps : List (Grammar φ)) → denoteAllWith .blind host ps = denoteAll host ps
  | [] => rfl
  | p :: ps => by rw [denoteAllWith, denoteAll, denoteWith_blind p, denoteAllWith_blind ps]

end

end

end Grammar

end Furthest
