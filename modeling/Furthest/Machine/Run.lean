import Furthest.Grammar.Denotation
import Furthest.Machine.World

/-!
# Running parser objects

Objects run each other and the user's functions, which may run objects in turn.  `Tools` are the two
ways into such a run; `tools` ties the knot by a bound on how deep it may go and one on how long a
repetition without an upper bound may go on.

A deferred parser is made by its function when it is first used, and the object that was made with
it is rebound to the result, before the run and once more after it (`adopt`): the result may
itself have been a deferred parser that this run has made.

Inside a grammar a parser has to come to a result.  An object that is called by itself may answer
something else: a custom parser's function may, and so may what hands on another object's answer
without looking at it (`answer`).
-/

namespace Furthest

/-- What a computation needs to run parser objects and to call functions. -/
structure Tools (φ : Type) where
  /-- Calls a value with arguments. -/
  call : Value φ → List (Value φ) → Machine φ (Value φ)
  /-- Runs a parser object. -/
  run : Ref → Behaviour (Machine φ) φ
  /-- How often a repetition without an upper bound may match. -/
  budget : Nat

namespace Machine

variable {φ : Type} [FunctionText φ]

/-- Uses a deferred parser for the first time: it becomes what its function has made. -/
def adopt {α : Type} (use : Value φ → Machine φ α) (d : DeferralRef) (self : Ref)
    (made : Value φ) : Machine φ α := do
  modify (·.resolve d made)
  match made with
  | .parser r =>
    replace self r
    let answer ← use (.parser r)
    replace self r
    return answer
  | v => fault (.unfit "lazy" .parser v)

/-- Uses what a deferred parser was made into, and makes it before that if need be. -/
def useDeferred {α : Type} (t : Tools φ) (use : Value φ → Machine φ α) (d : DeferralRef) :
    Machine φ α := do
  let state := (← get).deferral d
  match state.target with
  | .null => do adopt use d state.self (← t.call state.thunk [])
  | target => use target

/-- Runs what a deferred parser was made into. -/
def runTarget (t : Tools φ) (s : Input) (i : Nat) (env : Value φ) :
    Value φ → Machine φ (Result (Value φ))
  | .parser r => t.run r s i env
  | v => do Host.resultOf (← t.call v [.text (String.ofList s), .nat i, env])

/-- Runs a deferred parser. -/
def runDeferred (t : Tools φ) (d : DeferralRef) : Behaviour (Machine φ) φ := fun s i env =>
  useDeferred t (runTarget t s i env) d

/-- What grammars need, from the tools at hand. -/
def host (t : Tools φ) : Host (Machine φ) φ where
  object := t.run
  deferred := runDeferred t
  call := t.call
  describe := describe
  log := log
  budget := t.budget

/-- Runs what an object does now. -/
def runObject (t : Tools φ) (r : Ref) : Behaviour (Machine φ) φ := fun s i env => do
  let c ← cell r
  c.behaviour.denote (host t) s i env

/-- What a parser answers that is called by itself: whatever the function or the object answers to
which it hands the call on, and a result otherwise. -/
def answer (t : Tools φ) (text : String) (i : Nat) (env : Value φ) :
    Grammar φ → Machine φ (Value φ)
  | .object r => t.call (.parser r) [.text text, .nat i, env]
  | .custom f => t.call f [.text text, .nat i, env]
  | .subEnv (.object r) derive => do
    let inner ← t.call derive [env]
    t.call (.parser r) [.text text, .nat i, inner]
  | .fromEnv lookup => do
    match ← t.call lookup [env] with
    | .parser r => t.call (.parser r) [.text text, .nat i, env]
    | v => fault (.notFound v lookup)
  | .deferred d => useDeferred t (fun v => t.call v [.text text, .nat i, env]) d
  | g => return .result (← g.denote (host t) text.toList i env)

/-- Calls an object at an offset. -/
def invoke (t : Tools φ) (r : Ref) (text : String) (i : Nat) (env : Value φ) :
    Machine φ (Value φ) := do
  answer t text i env (← cell r).behaviour

/-- Calls a value: a function by `apply`, a parser object on a text. -/
def callValue (apply : Tools φ → φ → List (Value φ) → Machine φ (Value φ)) (t : Tools φ) :
    Value φ → List (Value φ) → Machine φ (Value φ)
  | .function f, args => apply t f args
  | .parser r, [.text s] => invoke t r s 0 .null
  | .parser r, [.text s, .number (.int i)] => invoke t r s i.toNat .null
  | .parser r, [.text s, .number (.int i), env] => invoke t r s i.toNat env
  | v, _ => fault (.notCallable v)

/-- The tools of a run of bounded depth, where `apply` calls functions. -/
def tools (apply : Tools φ → φ → List (Value φ) → Machine φ (Value φ)) (budget : Nat) :
    (depth : Nat) → Tools φ
  | 0 => ⟨fun _ _ => throw .exhausted, fun _ _ _ _ => throw .exhausted, budget⟩
  | depth + 1 =>
    { call := fun v args => callValue apply (tools apply budget depth) v args
      run := fun r s i env => runObject (tools apply budget depth) r s i env
      budget := budget }

end Machine

end Furthest
