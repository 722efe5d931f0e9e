import Furthest.Fault
import Furthest.Parser.Leaf
import Furthest.Parser.Log

/-!
# Behaviours and how they combine

A `Behaviour` runs on a text at an offset in an environment and answers with a `Result`.  It may
have effects and faults: `m` is any monad that can halt.  The combinators here are all there are;
every other parser is put together from them.

Each combinator joins the report of every step it takes to what it has seen before, the newest
first, so that a success still tells how far its abandoned branches got.
-/

namespace Furthest

/-- What a parser does: given the text, an offset and the environment, it answers with a result. -/
abbrev Behaviour (m : Type → Type) (φ : Type) := Input → Nat → Value φ → m (Result (Value φ))

namespace Behaviour

variable {m : Type → Type} [Monad m] {φ : Type}

/-- A parser without parts. -/
def leaf (f : Input → Nat → Result (Value φ)) : Behaviour m φ := fun s i _ => pure (f s i)

/-! ## Sequences and alternatives -/

/-- Runs parsers one after another from an offset, given the values and the best result so far. -/
def seqFrom (s : Input) (env : Value φ) : List (Behaviour m φ) → Nat → Array (Value φ) →
    Option (Result (Value φ)) → m (Result (Value φ))
  | [], i, values, best => pure ((Result.success i (.list values.toList)).mergeWith best)
  | p :: ps, i, values, best => do
    let r := (← p s i env).mergeWith best
    if r.status then seqFrom s env ps r.index (values.push r.value) (some r) else pure r

/-- Runs parsers one after another and lists their values; the first failure ends it. -/
def seq (ps : List (Behaviour m φ)) : Behaviour m φ := fun s i env => seqFrom s env ps i #[] none

theorem seqFrom_nil (s : Input) (env : Value φ) (i : Nat) (values : Array (Value φ))
    (best : Option (Result (Value φ))) :
    seqFrom (m := m) s env [] i values best =
      pure ((Result.success i (.list values.toList)).mergeWith best) := rfl

/-- A sequence of nothing matches nothing. -/
theorem seq_nil (s : Input) (i : Nat) (env : Value φ) :
    seq (m := m) [] s i env = pure (.success i (.list [])) := rfl

/-- Tries more parsers after the attempts whose merged failure is `best`. -/
def altFrom (s : Input) (i : Nat) (env : Value φ) :
    List (Behaviour m φ) → Result (Value φ) → m (Result (Value φ))
  | [], best => pure best
  | p :: ps, best => do
    let r := (← p s i env).merge best
    if r.status then pure r else altFrom s i env ps r

/-- Tries parsers at one offset; the first success wins. -/
def alt (p : Behaviour m φ) (ps : List (Behaviour m φ)) : Behaviour m φ := fun s i env => do
  let r ← p s i env
  if r.status then pure r else altFrom s i env ps r

/-! ## Repetition -/

/-- How a repetition goes on from an offset with the values and the best result so far. -/
abbrev Repeat (m : Type → Type) (φ : Type) :=
  Nat → Array (Value φ) → Option (Result (Value φ)) → m (Result (Value φ))

/-- Ends a repetition: a success with the values so far. -/
def finish : Repeat m φ := fun i values best =>
  pure ((Result.success i (.list values.toList)).mergeWith best)

/-- Matches `p` so many times, then goes on with `next`. -/
def mandatory (p : Behaviour m φ) (s : Input) (env : Value φ) (next : Repeat m φ) :
    Nat → Repeat m φ
  | 0, i, values, best => next i values best
  | n + 1, i, values, best => do
    let r := (← p s i env).mergeWith best
    if r.status then mandatory p s env next n r.index (values.push r.value) (some r) else pure r

/-- The mandatory matches of a repetition are a sequence of copies. -/
theorem mandatory_finish (p : Behaviour m φ) (s : Input) (env : Value φ) (n i : Nat)
    (values : Array (Value φ)) (best : Option (Result (Value φ))) :
    mandatory p s env finish n i values best =
      seqFrom s env (List.replicate n p) i values best := by
  induction n generalizing i values best with
  | zero => rfl
  | succ n ih => simp only [mandatory, List.replicate_succ, seqFrom, ih]

/-- Bounds from here on are too large to tell whether they are finite. -/
def boundCeiling : Nat := Nat.pow 2 1024 - Nat.pow 2 970

section

variable [MonadExceptOf (Halt φ) m]

/-- A repetition that was not allowed to go on for so long. -/
def spent : Repeat m φ := fun _ _ _ => throw Halt.exhausted

/-- Matches `p` up to so many times and until it fails, then goes on with `next`.  Where there is
no upper bound (`max`), a match that consumed nothing is the last one. -/
def optional (p : Behaviour m φ) (max : Limit) (s : Input) (env : Value φ) (next : Repeat m φ) :
    Nat → Repeat m φ
  | 0, i, values, best => next i values best
  | n + 1, i, values, best => do
    let r := (← p s i env).mergeWith best
    if r.status then
      let values := values.push r.value
      if r.index = i then
        match max with
        | .infinite => finish i values (some r)
        | .finite bound =>
          if bound < boundCeiling then optional p max s env next n r.index values (some r)
          else throw (Halt.fault .boundTooLarge)
      else optional p max s env next n r.index values (some r)
    else finish i values (some r)

/-- Matches `p` at least `min` and at most `max` times and lists the values.  The attempt that ends
it consumes nothing, but its report is kept.  `budget` bounds the matches where `min` or `max` does
not. -/
def times (p : Behaviour m φ) (min max : Limit) (budget : Nat) : Behaviour m φ := fun s i env =>
  match min with
  | .infinite => mandatory p s env spent budget i #[] none
  | .finite least =>
    let next := match max with
      | .finite most => optional p max s env finish (most - least)
      | .infinite => optional p max s env spent budget
    mandatory p s env next least i #[] none

end

/-! ## Values and continuations -/

/-- Transforms the value of a success by a function that also sees the environment. -/
def mapEnv (p : Behaviour m φ) (f : Value φ → Value φ → m (Value φ)) : Behaviour m φ :=
  fun s i env => do
    let r ← p s i env
    if r.status then
      let v ← f r.value env
      pure ((Result.success r.index v).merge r)
    else pure r

/-- Runs the parser that a function makes of the value, from where that value was found. -/
def chainEnv (p : Behaviour m φ) (f : Value φ → Value φ → m (Behaviour m φ)) : Behaviour m φ :=
  fun s i env => do
    let r ← p s i env
    if r.status then
      let next ← f r.value env
      pure ((← next s r.index env).merge r)
    else pure r

/-- Replaces what a failure expected by one label. -/
def relabel (p : Behaviour m φ) (label : String) : Behaviour m φ := fun s i env => do
  let r ← p s i env
  if r.status then pure r
  else pure ⟨⟨r.furthest, [label]⟩, false, r.index, .null⟩

/-! ## Looking ahead -/

/-- Matches `allowed` where `forbidden` does not match. -/
def except (allowed forbidden : Behaviour m φ) (describe : Value φ → m String) : Behaviour m φ :=
  fun s i env => do
    let unwanted ← forbidden s i env
    if unwanted.status then
      pure (.failure i ("something that is not '" ++ (← describe unwanted.value) ++ "'"))
    else
      let r ← allowed s i env
      if r.status then pure r
      else
        pure (.failure i
          (expectedText r.expected ++ " (except " ++ expectedText unwanted.expected ++ ")"))

/-- Matches without consuming. -/
def lookAhead (p : Behaviour m φ) : Behaviour m φ := fun s i env => do
  let r ← p s i env
  if r.status then pure { r with index := i } else pure r

/-! ## Environments and the log -/

/-- Runs in an environment made from the current one. -/
def subEnv (p : Behaviour m φ) (derive : Value φ → m (Value φ)) : Behaviour m φ :=
  fun s i env => do p s i (← derive env)

/-- Runs the parser that a function finds in the environment. -/
def fromEnv (lookup : Value φ → m (Behaviour m φ)) : Behaviour m φ := fun s i env => do
  let p ← lookup env
  p s i env

/-- Logs an attempt and its outcome. -/
def trace (p : Behaviour m φ) (label : Value φ) (log : LogEntry φ → m PUnit) : Behaviour m φ :=
  fun s i env => do
    log (.trying label i (String.ofList ((s.drop i).take 30)))
    let r ← p s i env
    if r.status then log (.matched label i r.index r.value) else log (.failed label r.toReport)
    pure r

/-! ## Characters and patterns -/

/-- One character that passes a test. -/
def satisfy (test : Char → Value φ → m Bool) (label : String) : Behaviour m φ := fun s i env =>
  match s[i]? with
  | some c => do
    if ← test c env then pure (.success (i + 1) (.text c.toString)) else pure (.failure i label)
  | none => pure (.failure i label)

/-- The longest run of characters at the start of a text that pass a test. -/
def runOf (test : Char → m Bool) : List Char → m (List Char)
  | [] => pure []
  | c :: cs => do if ← test c then return c :: (← runOf test cs) else pure []

/-- The longest run of characters that pass a test; it may be empty. -/
def takeWhile (test : Char → m Bool) : Behaviour m φ := fun s i _ => do
  let run ← runOf test (s.drop i)
  pure (.success (i + run.length) (.text (String.ofList run)))

/-- A match of a pattern, with one of its groups as the value; a group that took no part gives
none. -/
def regex [MonadExceptOf (Halt φ) m] (p : Pattern) (group : GroupName) (label : String) :
    Behaviour m φ := fun s i _ =>
  match p.matchAt s i with
  | none => pure (.failure i label)
  | some found =>
    match p.groupNumber? group with
    | none => throw (Halt.fault .noSuchGroup)
    | some number =>
      pure (.success found.stop (((found.group? number).map Value.text).getD .null))

end Behaviour

end Furthest
