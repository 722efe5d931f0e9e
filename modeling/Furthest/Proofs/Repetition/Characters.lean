import Furthest.Grammar.Denotation
import Furthest.Script.Eval

/-!
# Runs of characters

`Behaviour.takeWhile` goes through the text itself and takes the longest run of characters that pass
a test.  A repetition of `Behaviour.satisfy` takes the same run character by character and asks the
test in the same order, with all its effects (`Behaviour.times_satisfy`).  The two differ in what
they leave for later steps: the repetition tells where the run ended, and `takeWhile` tells nothing.
`Grammar.runs_agree` puts the two side by side, together with the digits, of which there have to be
so many.
-/

namespace Furthest

variable {φ : Type}

namespace Result

variable {best : Option (Result (Value φ))}

/-- A failure is what it is after results in which nothing failed. -/
theorem failure_mergeWith (h : ∀ b ∈ best, b.toReport = .silent) (i : Nat) (label : String) :
    (Result.failure i label : Result (Value φ)).mergeWith best = .failure i label := by
  cases best with
  | none => rfl
  | some b =>
    have hlt : Report.silent.furthest < (Report.single i label).furthest := by
      simp only [Report.silent, Report.single]
      omega
    rw [mergeWith_some, merge, h b rfl, failure, Report.join_of_lt hlt]

/-- So is a match in which nothing failed. -/
theorem success_mergeWith (h : ∀ b ∈ best, b.toReport = .silent) (i : Nat) (v : Value φ) :
    (Result.success i v).mergeWith best = .success i v := by
  cases best with
  | none => rfl
  | some b => rw [mergeWith_some, merge, h b rfl, success, Report.silent_join (Int.le_refl _)]

end Result

/-- The values of the characters of a run. -/
def characters (run : List Char) : List (Value φ) := run.map fun c => .text c.toString

namespace Behaviour

variable {m : Type → Type} [Monad m]

/-! ## How a run ends -/

/-- What a repetition comes to after a run from `i` on: the attempt after it is what failed. -/
def ran (label : String) (i : Nat) (values : Array (Value φ)) (run : List Char) :
    Result (Value φ) :=
  ⟨.single (i + run.length) label, true, i + run.length, .list (values.toList ++ characters run)⟩

theorem ran_cons (label : String) (i : Nat) (values : Array (Value φ)) (c : Char)
    (run : List Char) :
    ran label (i + 1) (values.push (.text c.toString)) run = ran label i values (c :: run) := by
  simp only [ran, characters, Array.toList_push, List.length_cons, List.map_cons,
    List.append_assoc, List.singleton_append, Nat.add_assoc, Nat.add_comm 1]

theorem finish_failure (label : String) (i : Nat) (values : Array (Value φ)) :
    finish (m := m) i values (some (.failure i label)) = pure (ran label i values []) := by
  have hle : -1 ≤ (Report.single i label).furthest := by
    simp only [Report.single]
    omega
  simp only [finish, Result.mergeWith_some, Result.merge, Result.success, Result.failure,
    Report.silent_join hle, ran, characters, List.length_nil, List.map_nil, List.append_nil,
    Nat.add_zero]

variable [LawfulMonad m]

theorem runOf_pure (pass : Char → Bool) (cs : List Char) :
    runOf (m := m) (fun c => pure (pass c)) cs = pure (cs.takeWhile pass) := by
  induction cs with
  | nil => rfl
  | cons c cs ih => cases h : pass c <;> simp [runOf, ih, h]

/-- A failure under the label that it has anyway. -/
theorem relabel_satisfy (test : Char → Value φ → m Bool) (label label' : String) :
    relabel (satisfy test label) label' = satisfy test label' := by
  funext s i env
  cases hc : s[i]? with
  | none => simp [relabel, satisfy, hc, Result.failure, Report.single, default]
  | some c =>
    simp only [relabel, satisfy, hc, bind_assoc]
    refine bind_congr fun passed => ?_
    cases passed <;> simp [Result.success, Result.failure, Report.single, default]

/-! ## The two phases of a repetition -/

variable [MonadExceptOf (Halt φ) m] {test : Char → Value φ → m Bool} {label : String} {s : Input}
  {env : Value φ}

/-- The optional phase takes the longest run.  The induction is on the budget, which stays above the
number of characters left. -/
theorem optional_satisfy (budget : Nat) {i : Nat} (values : Array (Value φ))
    {best : Option (Result (Value φ))} (hbest : ∀ b ∈ best, b.toReport = .silent)
    (hbudget : s.length - i < budget) :
    optional (satisfy test label) .infinite s env spent budget i values best =
      ran label i values <$> runOf (test · env) (s.drop i) := by
  induction budget generalizing i values best with
  | zero => exact absurd hbudget (Nat.not_lt_zero _)
  | succ budget ih =>
    rcases Nat.lt_or_ge i s.length with hi | hi
    · rw [List.drop_eq_getElem_cons hi]
      simp only [optional, satisfy, List.getElem?_eq_getElem hi, runOf, bind_assoc, map_bind]
      refine bind_congr fun passed => ?_
      cases passed with
      | true =>
        simp only [if_true, pure_bind, Result.success_mergeWith hbest]
        simp only [Result.success, if_true, Nat.succ_ne_self, if_false]
        rw [ih _ (fun b hb => by cases hb; rfl) (by omega)]
        simp only [map_eq_pure_bind, bind_assoc, pure_bind, ran_cons]
      | false =>
        simp only [Bool.false_eq_true, if_false, pure_bind, Result.failure_mergeWith hbest,
          LawfulApplicative.map_pure]
        exact finish_failure label i values
    · rw [List.drop_eq_nil_of_le hi]
      simp only [optional, satisfy, List.getElem?_eq_none hi, runOf, pure_bind,
        Result.failure_mergeWith hbest, LawfulApplicative.map_pure]
      exact finish_failure label i values

/-- A repetition of single characters lists the longest run. -/
theorem times_satisfy {budget i : Nat} (hbudget : s.length - i < budget) :
    times (satisfy test label) (.finite 0) .infinite budget s i env =
      ran label i #[] <$> runOf (test · env) (s.drop i) :=
  optional_satisfy budget #[] nofun hbudget

/-- The mandatory phase with a test without effects, and the optional one after it: the run has to
be long enough. -/
theorem mandatory_satisfy (pass : Char → Bool) {budget : Nat} (n : Nat) {i : Nat}
    (values : Array (Value φ)) {best : Option (Result (Value φ))}
    (hbest : ∀ b ∈ best, b.toReport = .silent) (hbudget : s.length - i < budget) :
    mandatory (m := m) (satisfy (fun c _ => pure (pass c)) label) s env
        (optional (satisfy (fun c _ => pure (pass c)) label) .infinite s env spent budget) n i
        values best =
      pure (if n ≤ ((s.drop i).takeWhile pass).length
        then ran label i values ((s.drop i).takeWhile pass)
        else .failure (i + ((s.drop i).takeWhile pass).length) label) := by
  induction n generalizing i values best with
  | zero => simp [mandatory, optional_satisfy budget values hbest hbudget, runOf_pure]
  | succ n ih =>
    rcases Nat.lt_or_ge i s.length with hi | hi
    · rw [List.drop_eq_getElem_cons hi]
      simp only [mandatory, satisfy, List.getElem?_eq_getElem hi, pure_bind]
      cases hc : pass s[i] with
      | true =>
        simp only [if_true, pure_bind, Result.success_mergeWith hbest]
        simp only [Result.success, if_true]
        rw [ih _ (fun b hb => by cases hb; rfl) (by omega)]
        simp only [List.takeWhile_cons_of_pos hc, List.length_cons, Nat.succ_le_succ_iff, ran_cons,
          Nat.add_assoc, Nat.add_comm 1]
      | false =>
        have hrun : (s[i] :: s.drop (i + 1)).takeWhile pass = [] :=
          List.takeWhile_cons_of_neg (by simp [hc])
        simp only [Bool.false_eq_true, if_false, pure_bind, Result.failure_mergeWith hbest, hrun,
          List.length_nil, Nat.add_zero]
        rfl
    · rw [List.drop_eq_nil_of_le hi]
      simp only [mandatory, satisfy, List.getElem?_eq_none hi, pure_bind,
        Result.failure_mergeWith hbest, List.takeWhile_nil, List.length_nil, Nat.add_zero]
      rfl

end Behaviour

/-! ## Their values as one text -/

namespace Callback

variable {m : Type → Type} [Monad m]

/-- It makes one text of the characters of a run. -/
def Joins (call : Value φ → List (Value φ) → m (Value φ)) (join : Callback φ) : Prop :=
  ∀ run env, join.run call (.list (characters run)) env = pure (.text (String.ofList run))

theorem intercalate_toString (run : List Char) :
    "".intercalate (run.map Char.toString) = String.ofList run := by
  induction run with
  | nil => rfl
  | cons c run ih =>
    cases run with
    | nil => simp
    | cons d run =>
      rw [List.map_cons, List.map_cons, String.intercalate_cons_cons, ← List.map_cons, ih]
      simp

theorem joins_concat (call : Value φ → List (Value φ) → m (Value φ)) : Joins call .concat := by
  intro run env
  have htexts : (characters run).map (Value.textOrEmpty (φ := φ)) = run.map Char.toString := by
    simp [characters, Value.textOrEmpty]
  rw [Callback.run, htexts, intercalate_toString]

end Callback

namespace Grammar

variable {m : Type → Type} [Monad m] [LawfulMonad m] [MonadExceptOf (Halt φ) m] (host : Host m φ)
  {s : Input} {i : Nat} {env : Value φ}

/-- A match with a run of characters from `i` on, whose report names what ended the run. -/
def runEnd (label : String) (i : Nat) (run : List Char) : Result (Value φ) :=
  ⟨.single (i + run.length) label, true, i + run.length, .text (String.ofList run)⟩

/-- Characters that are listed from `i` on are joined to one text. -/
theorem denote_mapEnv_ran {p : Grammar φ} {join : Callback φ}
    (hjoin : Callback.Joins host.call join) {label : String} {run : List Char}
    (hp : p.denote host s i env = pure (Behaviour.ran label i #[] run)) :
    (mapEnv p join).denote host s i env = pure (runEnd label i run) := by
  have hle : -1 ≤ (Report.single (i + run.length) label).furthest := by
    simp only [Report.single]
    omega
  rw [denote_mapEnv, Behaviour.mapEnv, hp, pure_bind, Behaviour.ran, if_pos rfl,
    List.nil_append, hjoin, pure_bind, Result.merge, Result.success, Report.silent_join hle, runEnd]

theorem denote_takeWhile {test : Test φ} {pass : Char → Bool}
    (htest : ∀ c, test.run host.call c .null = pure (pass c)) :
    (takeWhile test).denote host s i env =
      pure (.success (i + ((s.drop i).takeWhile pass).length)
        (.text (String.ofList ((s.drop i).takeWhile pass)))) := by
  show Behaviour.takeWhile (fun c => test.run host.call c .null) s i env = _
  rw [funext htest, Behaviour.takeWhile, Behaviour.runOf_pure, pure_bind]

theorem denote_many_satisfy {test : Test φ} {pass : Char → Bool}
    (htest : ∀ c, test.run host.call c env = pure (pass c)) (label : String)
    (hbudget : s.length - i < host.budget) :
    (many (satisfy test label)).denote host s i env =
      pure (Behaviour.ran label i #[] ((s.drop i).takeWhile pass)) := by
  rw [many, denote_times, denote_satisfy, Behaviour.times_satisfy hbudget, funext htest,
    Behaviour.runOf_pure, LawfulApplicative.map_pure]

theorem denote_digits (least : Nat) (hbudget : s.length - i < host.budget) :
    (digits (.finite least)).denote host s i env =
      pure (if least ≤ ((s.drop i).takeWhile Char.isDigit).length
        then runEnd "digit" i ((s.drop i).takeWhile Char.isDigit)
        else .failure (i + ((s.drop i).takeWhile Char.isDigit).length) "digit") := by
  have htimes : (times digit (.finite least) .infinite).denote host s i env = _ :=
    (congrArg (fun p => Behaviour.times p (.finite least) .infinite host.budget s i env)
      (Behaviour.relabel_satisfy _ "digit" "digit")).trans
      (Behaviour.mandatory_satisfy Char.isDigit least #[] nofun hbudget)
  by_cases hleast : least ≤ ((s.drop i).takeWhile Char.isDigit).length
  · rw [if_pos hleast] at htimes ⊢
    exact denote_mapEnv_ran host (Callback.joins_concat _) htimes
  · rw [if_neg hleast] at htimes ⊢
    rw [digits, denote_mapEnv, Behaviour.mapEnv, htimes, pure_bind]
    rfl

/-- With a test without effects, a loop over the text and a repetition of single characters take the
same run, the longest from `i` on; only the repetition reports where it ended.  Digits are such a
run, which has to be long enough: otherwise they fail at its end. -/
theorem runs_agree {test : Test φ} {pass : Char → Bool}
    (htest : ∀ c env, test.run host.call c env = pure (pass c)) {join : Callback φ}
    (hjoin : Callback.Joins host.call join) (label : String) (s : Input) (i : Nat) (env : Value φ)
    (hbudget : s.length - i < host.budget) :
    let run := (s.drop i).takeWhile pass
    let digitRun := (s.drop i).takeWhile Char.isDigit
    (takeWhile test).denote host s i env =
        pure ⟨⟨-1, []⟩, true, i + run.length, .text (String.ofList run)⟩ ∧
      (mapEnv (many (satisfy test label)) join).denote host s i env =
        pure ⟨⟨(i + run.length : Nat), [label]⟩, true, i + run.length,
          .text (String.ofList run)⟩ ∧
      ∀ least, (digits (.finite least)).denote host s i env =
        pure (if least ≤ digitRun.length
          then ⟨⟨(i + digitRun.length : Nat), ["digit"]⟩, true, i + digitRun.length,
            .text (String.ofList digitRun)⟩
          else ⟨⟨(i + digitRun.length : Nat), ["digit"]⟩, false, i + digitRun.length, .null⟩) :=
  ⟨denote_takeWhile host fun c => htest c .null,
    denote_mapEnv_ran host hjoin (denote_many_satisfy host (fun c => htest c env) label hbudget),
    fun least => denote_digits host least hbudget⟩

section

open Script (Function applyFunction)

/-- Two letters and then a digit: the letters are a run, which the digit ends, and no digit is
there where they start. -/
theorem runs_agree_letters :
    let host := Machine.host (Machine.tools (applyFunction []) 4 0)
    (takeWhile (.oneOf ['a', 'b'])).denote host "-ab1".toList 1 .null =
        pure ⟨⟨-1, []⟩, true, 3, .text "ab"⟩ ∧
      (mapEnv (many (satisfy (.oneOf ['a', 'b']) "a or b")) .concat).denote host "-ab1".toList 1
          .null = pure ⟨⟨3, ["a or b"]⟩, true, 3, .text "ab"⟩ ∧
      (digits (.finite 1)).denote host "-ab1".toList 1 .null =
        pure ⟨⟨1, ["digit"]⟩, false, 1, .null⟩ := by
  intro host
  have htest : ∀ c env, (Test.oneOf ['a', 'b']).run host.call c env =
      pure (['a', 'b'].contains c) := fun _ _ => rfl
  obtain ⟨hrun, hmany, hdigits⟩ := runs_agree host htest (Callback.joins_concat _) "a or b"
    "-ab1".toList 1 .null (by decide)
  exact ⟨hrun, hmany, hdigits 1⟩

end

end Grammar

end Furthest
