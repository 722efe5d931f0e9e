import Mathlib.Algebra.Group.Nat.Defs
import Mathlib.Order.Filter.AtTopBot.Basic
import Furthest.Proofs.Deferred.Gives

/-!
# Ordered choice

What a grammar matches, without any diagnostics: either nothing, or an end and a value.  The relation
`Rules.Matches` follows the forms of grammars.  A sequence threads the offset and ends at the first
failure (`Rules.Threads`), a choice takes the first alternative that matches (`Rules.Chooses`), and a
repetition is so many matches that have to be there (`Rules.Requires`) and then as many more as there
are, up to a bound (`Rules.Greedy`).  An object matches what its rule does, and a deferred parser
what its target does.

What functions answer is taken from the runs: `Rules.Settles` says what a computation comes to
within some bounds.
-/

namespace Furthest

variable {φ : Type}

/-- A result without its diagnostics: where the match ends and its value. -/
def Result.erased (r : Result (Value φ)) : Option (Nat × Value φ) :=
  if r.status then some (r.index, r.value) else none

/-- How many matches are left after so many. -/
def Limit.minus : Limit → Nat → Limit
  | .finite most, n => .finite (most - n)
  | .infinite, _ => .infinite

namespace Rules

variable [FunctionText φ] (R : Rules φ)

/-- What grammars need, within bounds on the matches of a repetition and on the depth. -/
def within (b : Nat × Nat) : Host (Except (Halt φ)) φ := R.host (R.run b.1 b.2) b.1

/-- A computation comes to a value within some bounds. -/
def Settles {α : Type} (x : Host (Except (Halt φ)) φ → Except (Halt φ) α) (a : α) : Prop :=
  ∃ b, x (R.within b) = .ok a

/-- A function answers what the rules say. -/
theorem settles_call_function {f : φ} {args : List (Value φ)} {v : Value φ} :
    R.Settles (fun h => h.call (.function f) args) v ↔ R.apply f args = .ok v := by
  constructor
  · rintro ⟨b, h⟩
    exact settled_inj h
  · intro h
    exact ⟨(0, 0), congrArg settled h⟩

mutual

/-- What a grammar matches at an offset of a text in an environment. -/
inductive Matches (s : Input) : Grammar φ → Nat → Value φ → Option (Nat × Value φ) → Prop where
  | object {r : Ref} {i : Nat} {env : Value φ} {o : Option (Nat × Value φ)} :
    Matches s (R.rule r) i env o → Matches s (.object r) i env o
  | deferred {d : DeferralRef} {i : Nat} {env : Value φ} {o : Option (Nat × Value φ)} :
    Matches s (.object (R.target d)) i env o → Matches s (.deferred d) i env o
  | custom {f : Value φ} {i : Nat} {env : Value φ} {r : Result (Value φ)} :
    R.Settles (fun h => h.call f [.text (String.ofList s), .nat i, env]) (.result r) →
    Matches s (.custom f) i env r.erased
  | succeed (v : Value φ) (i : Nat) (env : Value φ) : Matches s (.succeed v) i env (some (i, v))
  | fail (label : String) (i : Nat) (env : Value φ) : Matches s (.fail label) i env none
  | offset (i : Nat) (env : Value φ) : Matches s .offset i env (some (i, .nat i))
  | position (i : Nat) (env : Value φ) :
    Matches s .position i env (some (i, .position (.ofOffset s i)))
  | eof {i : Nat} (env : Value φ) : s.length ≤ i → Matches s .eof i env (some (i, .null))
  | eof_none {i : Nat} (env : Value φ) : i < s.length → Matches s .eof i env none
  | anyChar {i : Nat} {c : Char} (env : Value φ) : s[i]? = some c →
    Matches s .anyChar i env (some (i + 1, .text c.toString))
  | anyChar_none {i : Nat} (env : Value φ) : s[i]? = none → Matches s .anyChar i env none
  | rest (i : Nat) (env : Value φ) :
    Matches s .rest i env (some (s.length, .text (String.ofList (s.drop i))))
  | string {literal : String} {i : Nat} (env : Value φ) :
    literal.toList <+: s.drop i → i ≤ s.length →
    Matches s (.string literal) i env (some (i + literal.toList.length, .text literal))
  | string_none {literal : String} {i : Nat} (env : Value φ) :
    ¬(literal.toList <+: s.drop i ∧ i ≤ s.length) → Matches s (.string literal) i env none
  | regex {p : Pattern} {group : GroupName} (label : String) {i number : Nat} (env : Value φ)
    {found : PatternMatch} : p.matchAt s i = some found → p.groupNumber? group = some number →
    Matches s (.regex p group label) i env
      (some (found.stop, ((found.group? number).map Value.text).getD .null))
  | regex_none {p : Pattern} (group : GroupName) (label : String) {i : Nat} (env : Value φ) :
    p.matchAt s i = none → Matches s (.regex p group label) i env none
  | satisfy {test : Test φ} (label : String) {i : Nat} {env : Value φ} {c : Char} :
    s[i]? = some c → R.Settles (fun h => test.run h.call c env) true →
    Matches s (.satisfy test label) i env (some (i + 1, .text c.toString))
  | satisfy_false {test : Test φ} (label : String) {i : Nat} {env : Value φ} {c : Char} :
    s[i]? = some c → R.Settles (fun h => test.run h.call c env) false →
    Matches s (.satisfy test label) i env none
  | satisfy_none (test : Test φ) (label : String) {i : Nat} (env : Value φ) : s[i]? = none →
    Matches s (.satisfy test label) i env none
  | takeWhile {test : Test φ} {i : Nat} (env : Value φ) {run : List Char} :
    R.Settles (fun h => Behaviour.runOf (fun c => test.run h.call c .null) (s.drop i)) run →
    Matches s (.takeWhile test) i env (some (i + run.length, .text (String.ofList run)))
  | seq {ps : List (Grammar φ)} {i : Nat} {env : Value φ} {o : Option (Nat × List (Value φ))} :
    Threads s ps i env o → Matches s (.seq ps) i env (o.map fun x => (x.1, .list x.2))
  | alt {p : Grammar φ} {ps : List (Grammar φ)} {i : Nat} {env : Value φ}
    {o : Option (Nat × Value φ)} : Chooses s (p :: ps) i env o → Matches s (.alt p ps) i env o
  | times {p : Grammar φ} {least : Nat} {max : Limit} {i j k : Nat} {env : Value φ}
    {vs ws : List (Value φ)} : Requires s p least i env (some (j, vs)) →
    Greedy s p (max.minus least) j env k ws →
    Matches s (.times p (.finite least) max) i env (some (k, .list (vs ++ ws)))
  | times_none {p : Grammar φ} {least : Nat} (max : Limit) {i : Nat} {env : Value φ} :
    Requires s p least i env none → Matches s (.times p (.finite least) max) i env none
  | mapEnv {p : Grammar φ} {f : Callback φ} {i j : Nat} {env v u : Value φ} :
    Matches s p i env (some (j, v)) → R.Settles (fun h => f.run h.call v env) u →
    Matches s (.mapEnv p f) i env (some (j, u))
  | mapEnv_none {p : Grammar φ} (f : Callback φ) {i : Nat} {env : Value φ} :
    Matches s p i env none → Matches s (.mapEnv p f) i env none
  | chainEnv {p : Grammar φ} {f : Callback φ} {i j : Nat} {env v : Value φ} {r : Ref}
    {o : Option (Nat × Value φ)} : Matches s p i env (some (j, v)) →
    R.Settles (fun h => f.run h.call v env) (.parser r) → Matches s (.object r) j env o →
    Matches s (.chainEnv p f) i env o
  | chainEnv_none {p : Grammar φ} (f : Callback φ) {i : Nat} {env : Value φ} :
    Matches s p i env none → Matches s (.chainEnv p f) i env none
  | relabel {p : Grammar φ} (label : String) {i : Nat} {env : Value φ}
    {o : Option (Nat × Value φ)} : Matches s p i env o → Matches s (.relabel p label) i env o
  | except {allowed forbidden : Grammar φ} {i : Nat} {env : Value φ} {o : Option (Nat × Value φ)} :
    Matches s forbidden i env none → Matches s allowed i env o →
    Matches s (.except allowed forbidden) i env o
  | except_none (allowed : Grammar φ) {forbidden : Grammar φ} {i j : Nat} {env v : Value φ} :
    Matches s forbidden i env (some (j, v)) → Matches s (.except allowed forbidden) i env none
  | lookAhead {p : Grammar φ} {i : Nat} {env : Value φ} {o : Option (Nat × Value φ)} :
    Matches s p i env o → Matches s (.lookAhead p) i env (o.map fun x => (i, x.2))
  | trace {p : Grammar φ} (label : Value φ) {i : Nat} {env : Value φ} {o : Option (Nat × Value φ)} :
    Matches s p i env o → Matches s (.trace p label) i env o
  | subEnv {p : Grammar φ} {derive : Value φ} {i : Nat} {env env' : Value φ}
    {o : Option (Nat × Value φ)} : R.Settles (fun h => h.call derive [env]) env' →
    Matches s p i env' o → Matches s (.subEnv p derive) i env o
  | fromEnv {lookup : Value φ} {i : Nat} {env : Value φ} {r : Ref} {o : Option (Nat × Value φ)} :
    R.Settles (fun h => h.call lookup [env]) (.parser r) → Matches s (.object r) i env o →
    Matches s (.fromEnv lookup) i env o

/-- What grammars match one after another, with all their values; the first failure ends it. -/
inductive Threads (s : Input) :
    List (Grammar φ) → Nat → Value φ → Option (Nat × List (Value φ)) → Prop where
  | nil (i : Nat) (env : Value φ) : Threads s [] i env (some (i, []))
  | cons {p : Grammar φ} {ps : List (Grammar φ)} {i j : Nat} {env v : Value φ}
    {o : Option (Nat × List (Value φ))} : Matches s p i env (some (j, v)) →
    Threads s ps j env o → Threads s (p :: ps) i env (o.map fun x => (x.1, v :: x.2))
  | cons_none {p : Grammar φ} (ps : List (Grammar φ)) {i : Nat} {env : Value φ} :
    Matches s p i env none → Threads s (p :: ps) i env none

/-- What the first of several grammars matches that does. -/
inductive Chooses (s : Input) :
    List (Grammar φ) → Nat → Value φ → Option (Nat × Value φ) → Prop where
  | nil (i : Nat) (env : Value φ) : Chooses s [] i env none
  | first {p : Grammar φ} (ps : List (Grammar φ)) {i : Nat} {env : Value φ} {x : Nat × Value φ} :
    Matches s p i env (some x) → Chooses s (p :: ps) i env (some x)
  | later {p : Grammar φ} {ps : List (Grammar φ)} {i : Nat} {env : Value φ}
    {o : Option (Nat × Value φ)} : Matches s p i env none → Chooses s ps i env o →
    Chooses s (p :: ps) i env o

/-- What a grammar matches so many times. -/
inductive Requires (s : Input) :
    Grammar φ → Nat → Nat → Value φ → Option (Nat × List (Value φ)) → Prop where
  | zero (p : Grammar φ) (i : Nat) (env : Value φ) : Requires s p 0 i env (some (i, []))
  | succ {p : Grammar φ} {n i j : Nat} {env v : Value φ} {o : Option (Nat × List (Value φ))} :
    Matches s p i env (some (j, v)) → Requires s p n j env o →
    Requires s p (n + 1) i env (o.map fun x => (x.1, v :: x.2))
  | succ_none {p : Grammar φ} (n : Nat) {i : Nat} {env : Value φ} : Matches s p i env none →
    Requires s p (n + 1) i env none

/-- What a grammar matches as often as it does, up to a bound.  Where there is no bound, a match that
consumes nothing is the last one. -/
inductive Greedy (s : Input) :
    Grammar φ → Limit → Nat → Value φ → Nat → List (Value φ) → Prop where
  | full (p : Grammar φ) (i : Nat) (env : Value φ) : Greedy s p (.finite 0) i env i []
  | stop {p : Grammar φ} (left : Limit) {i : Nat} {env : Value φ} : Matches s p i env none →
    Greedy s p left i env i []
  | more {p : Grammar φ} {n i j k : Nat} {env v : Value φ} {vs : List (Value φ)} :
    Matches s p i env (some (j, v)) → Greedy s p (.finite n) j env k vs →
    Greedy s p (.finite (n + 1)) i env k (v :: vs)
  | again {p : Grammar φ} {i j k : Nat} {env v : Value φ} {vs : List (Value φ)} :
    Matches s p i env (some (j, v)) → j ≠ i → Greedy s p .infinite j env k vs →
    Greedy s p .infinite i env k (v :: vs)
  | last {p : Grammar φ} {i : Nat} {env v : Value φ} : Matches s p i env (some (i, v)) →
    Greedy s p .infinite i env i [v]

end

end Rules

end Furthest
