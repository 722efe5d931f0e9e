import Furthest.Grammar.Derived
import Furthest.Parser.Behaviour

/-!
# What a grammar does

`Grammar.denote` gives the behaviour of a grammar, by recursion on its tree.  Whatever lies outside
the tree is left to a `Host`: parser objects, deferred parsers, the user's functions, the wording of
values and the log.  `Host.parse` runs a parser object on a whole text.
-/

namespace Furthest

/-- What a grammar needs from outside. -/
structure Host (m : Type → Type) (φ : Type) where
  /-- Runs a parser object. -/
  object : Ref → Behaviour m φ
  /-- Runs a deferred parser. -/
  deferred : DeferralRef → Behaviour m φ
  /-- Calls a value with arguments. -/
  call : Value φ → List (Value φ) → m (Value φ)
  /-- Words a value. -/
  describe : Value φ → m String
  /-- Writes to the log. -/
  log : LogEntry φ → m PUnit
  /-- How often a repetition without an upper bound may match. -/
  budget : Nat

variable {m : Type → Type} [Monad m] {φ : Type}

namespace Value

/-- Applies the operators of `pairs` to a running value from the left. -/
def foldPairsLeft (call : Value φ → List (Value φ) → m (Value φ)) :
    Value φ → List (Value φ) → m (Value φ)
  | acc, .list [op, operand] :: pairs => do
    foldPairsLeft call (← call op [acc, operand]) pairs
  | acc, _ => pure acc

/-- Applies the operators of `pairs` from the right, where `first` stands before them. -/
def foldPairsRight (call : Value φ → List (Value φ) → m (Value φ)) :
    Value φ → List (Value φ) → m (Value φ)
  | first, .list [op, operand] :: pairs => do
    call op [first, ← foldPairsRight call operand pairs]
  | first, _ => pure first

/-- Applies the one operator of a list, if there is one. -/
def applyOptional (call : Value φ → List (Value φ) → m (Value φ)) (op operand : Value φ) :
    m (Value φ) :=
  match op with
  | .list [f] => call f [operand]
  | _ => pure operand

/-- The text of a value that is one. -/
def textOrEmpty : Value φ → String
  | .text s => s
  | _ => ""

end Value

namespace Callback

/-- Applies a callback to a value in an environment.  The forms that take a list apart are only
used on lists of that shape. -/
def run (call : Value φ → List (Value φ) → m (Value φ)) :
    Callback φ → Value φ → Value φ → m (Value φ)
  | .value f, v, _ => call f [v]
  | .valueAndEnv f, v, env => call f [v, env]
  | .spread f, .list items, _ => call f items
  | .item k, .list items, _ => pure (items[k]?.getD .null)
  | .constant v, _, _ => pure v
  | .singleton, v, _ => pure (.list [v])
  | .cons, .list [first, .list others], _ => pure (.list (first :: others))
  | .concat, .list items, _ => pure (.text ("".intercalate (items.map Value.textOrEmpty)))
  | .mark, .list [start, v, stop], _ => pure (.mark start v stop)
  | .foldLeft, .list [first, .list pairs], _ => Value.foldPairsLeft call first pairs
  | .foldRight, .list [first, .list pairs], _ => Value.foldPairsRight call first pairs
  | .surround, .list [before, operand, after], _ => do
    Value.applyOptional call after (← Value.applyOptional call before operand)
  | .infixOnce, .list [first, .list [op, second]], _ => call op [first, second]
  | .infixOnce, .list [first, _], _ => pure first
  | _, v, _ => pure v

end Callback

namespace Test

/-- Applies a test to a character in an environment. -/
def run (call : Value φ → List (Value φ) → m (Value φ)) : Test φ → Char → Value φ → m Bool
  | .value f, c, _ => do return (← call f [.text c.toString]).truthy
  | .valueAndEnv f, c, env => do return (← call f [.text c.toString, env]).truthy
  | .oneOf cs, c, _ => pure (cs.contains c)
  | .noneOf cs, c, _ => pure (!cs.contains c)
  | .digit, c, _ => pure c.isDigit
  | .blank, c, _ => pure (Text.isBlank c)
  | .upper, c, _ => pure (Text.isUpper c)
  | .lower, c, _ => pure (Text.isLower c)
  | .letter, c, _ => pure (Text.isLetter c)
  | .letterOrNumeral, c, _ => pure (Text.isLetterOrNumeral c)

end Test

variable [MonadExceptOf (Halt φ) m]

namespace Host

/-- The result in a custom parser's answer. -/
def resultOf : Value φ → m (Result (Value φ))
  | .result r => pure r
  | v => throw (.fault (.noField v "status"))

/-- Runs the parser that a value is. -/
def chosen (host : Host m φ) (complaint : Value φ → Fault φ) (v : Value φ) :
    m (Behaviour m φ) :=
  match v with
  | .parser r => pure (host.object r)
  | v => throw (.fault (complaint v))

end Host

namespace Grammar

mutual

/-- The behaviour of a grammar. -/
def denote (host : Host m φ) : Grammar φ → Behaviour m φ
  | .object r, s, i, env => host.object r s i env
  | .custom f, s, i, env => do
    Host.resultOf (← host.call f [.text (String.ofList s), .nat i, env])
  | .succeed v, s, i, env => Behaviour.leaf (Leaf.succeed v) s i env
  | .fail label, s, i, env => Behaviour.leaf (Leaf.fail label) s i env
  | .offset, s, i, env => Behaviour.leaf Leaf.offset s i env
  | .position, s, i, env => Behaviour.leaf Leaf.position s i env
  | .eof, s, i, env => Behaviour.leaf Leaf.eof s i env
  | .anyChar, s, i, env => Behaviour.leaf Leaf.anyChar s i env
  | .rest, s, i, env => Behaviour.leaf Leaf.rest s i env
  | .string literal, s, i, env => Behaviour.leaf (Leaf.string literal) s i env
  | .regex p group label, s, i, env => Behaviour.regex p group label s i env
  | .satisfy test label, s, i, env => Behaviour.satisfy (test.run host.call) label s i env
  | .takeWhile test, s, i, env =>
    Behaviour.takeWhile (fun c => test.run host.call c .null) s i env
  | .seq ps, s, i, env => Behaviour.seq (denoteAll host ps) s i env
  | .alt p ps, s, i, env => Behaviour.alt (p.denote host) (denoteAll host ps) s i env
  | .times p min max, s, i, env => Behaviour.times (p.denote host) min max host.budget s i env
  | .mapEnv p f, s, i, env => Behaviour.mapEnv (p.denote host) (f.run host.call) s i env
  | .chainEnv p f, s, i, env =>
    Behaviour.chainEnv (p.denote host)
      (fun v env => do host.chosen (.unfit "chain" .parser) (← f.run host.call v env)) s i env
  | .relabel p label, s, i, env => Behaviour.relabel (p.denote host) label s i env
  | .except allowed forbidden, s, i, env =>
    Behaviour.except (allowed.denote host) (forbidden.denote host) host.describe s i env
  | .lookAhead p, s, i, env => Behaviour.lookAhead (p.denote host) s i env
  | .trace p label, s, i, env => Behaviour.trace (p.denote host) label host.log s i env
  | .subEnv p derive, s, i, env =>
    Behaviour.subEnv (p.denote host) (fun env => host.call derive [env]) s i env
  | .fromEnv lookup, s, i, env =>
    Behaviour.fromEnv
      (fun env => do host.chosen (.notFound · lookup) (← host.call lookup [env])) s i env
  | .deferred d, s, i, env => host.deferred d s i env

/-- The behaviours of several grammars. -/
def denoteAll (host : Host m φ) : List (Grammar φ) → List (Behaviour m φ)
  | [] => []
  | p :: ps => p.denote host :: denoteAll host ps

end

theorem denoteAll_eq_map (host : Host m φ) (ps : List (Grammar φ)) :
    denoteAll host ps = ps.map (denote host) := by
  induction ps with
  | nil => rfl
  | cons p ps ih => rw [denoteAll, ih, List.map_cons]

/-! ## The denotation is compositional -/

section

variable (host : Host m φ)

theorem denote_object (r : Ref) : (object r).denote host = host.object r := rfl

theorem denote_deferred (d : DeferralRef) : (deferred d).denote host = host.deferred d := rfl

theorem denote_succeed (v : Value φ) :
    (succeed v).denote host = Behaviour.leaf (Leaf.succeed v) := rfl

theorem denote_fail (label : String) :
    (fail label : Grammar φ).denote host = Behaviour.leaf (Leaf.fail label) := rfl

theorem denote_string (literal : String) :
    (string literal : Grammar φ).denote host = Behaviour.leaf (Leaf.string literal) := rfl

theorem denote_satisfy (test : Test φ) (label : String) :
    (satisfy test label).denote host = Behaviour.satisfy (test.run host.call) label := rfl

theorem denote_seq (ps : List (Grammar φ)) :
    (seq ps).denote host = Behaviour.seq (ps.map (denote host)) := by
  rw [← denoteAll_eq_map]
  rfl

theorem denote_alt (p : Grammar φ) (ps : List (Grammar φ)) :
    (alt p ps).denote host = Behaviour.alt (p.denote host) (ps.map (denote host)) := by
  rw [← denoteAll_eq_map]
  rfl

theorem denote_times (p : Grammar φ) (min max : Limit) :
    (times p min max).denote host = Behaviour.times (p.denote host) min max host.budget := rfl

theorem denote_mapEnv (p : Grammar φ) (f : Callback φ) :
    (mapEnv p f).denote host = Behaviour.mapEnv (p.denote host) (f.run host.call) := rfl

theorem denote_relabel (p : Grammar φ) (label : String) :
    (relabel p label).denote host = Behaviour.relabel (p.denote host) label := rfl

theorem denote_except (allowed forbidden : Grammar φ) :
    (except allowed forbidden).denote host =
      Behaviour.except (allowed.denote host) (forbidden.denote host) host.describe := rfl

theorem denote_lookAhead (p : Grammar φ) :
    (lookAhead p).denote host = Behaviour.lookAhead (p.denote host) := rfl

theorem denote_trace (p : Grammar φ) (label : Value φ) :
    (trace p label).denote host = Behaviour.trace (p.denote host) label host.log := rfl

theorem denote_subEnv (p : Grammar φ) (derive : Value φ) :
    (subEnv p derive).denote host =
      Behaviour.subEnv (p.denote host) fun env => host.call derive [env] := rfl

end

end Grammar

/-! ## Whole texts -/

/-- The outcome that a result stands for. -/
def Result.outcome (r : Result (Value φ)) : Outcome φ :=
  if r.status then .ok r.value else .error r.toReport

/-- Parses a whole text with a parser object: it has to match up to the end. -/
def Host.parse (host : Host m φ) (r : Ref) (s : Input) (env : Value φ) : m (Outcome φ) := do
  host.log (.parsing s.length r)
  let result ← (Grammar.whole (.object r)).denote host s 0 env
  unless result.status do host.log (.parseFailed result.toReport)
  return result.outcome

end Furthest
