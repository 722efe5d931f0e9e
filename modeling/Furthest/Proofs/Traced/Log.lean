import Furthest.Proofs.Rebinding.Replace
import Furthest.Proofs.Traced.Runs

/-!
# The log of a parse

What parsing a whole text writes to the log, if it ends without a fault and no call of a function
writes to it: that the text is parsed, what the attempts of traced parsers say, and the report if
it did not match (`Machine.log_parse`).  The attempts are nested as they were made, so their lines
are: each is opened and closed once, around those made during it.
-/

namespace Furthest

variable {φ : Type} [FunctionText φ]

namespace Machine

/-- Parses a whole text with a parser object and notes the attempts of traced parsers. -/
def tracedParse (apply : Tools φ → φ → List (Value φ) → Machine φ (Value φ)) (budget depth : Nat)
    (r : Ref) (s : Input) (env : Value φ) : Tracing φ (Outcome φ) :=
  Host.parse (tracedHost (tools apply budget depth) (tracedRun apply budget depth)) r s env

/-! ### How the log words its entries -/

section

variable (names : Ref → Option String)

theorem render_parseFailed (report : Report) :
    (LogEntry.parseFailed report : LogEntry φ).render names =
      "parse failed at " ++ toString report.furthest ++ ", expected " ++
        Value.textsDisplay report.expected := by
  have hwords : "parse failed at " = "parse " ++ "failed at " := by decide
  rw [LogEntry.render, LogEntry.reportText, hwords]
  simp only [String.append_assoc]

theorem render_failed (label : Value φ) (report : Report) :
    (LogEntry.failed label report).render names =
      label.describe names ++ ": failed at " ++ toString report.furthest ++ ", expected " ++
        Value.textsDisplay report.expected := by
  have hwords : ": failed at " = ": " ++ "failed at " := by decide
  rw [LogEntry.render, LogEntry.reportText, hwords]
  simp only [String.append_assoc]

end

/-- What an attempt says: where it starts and at most 30 of the characters ahead, what the attempts
during it say, and where it ended and with which value, or how far it got and what was expected. -/
theorem lines_eq (s : Input) (a : TracedAttempt φ) :
    a.lines s = (a.label.describe a.opened ++ ": trying at " ++ toString a.start ++ ": " ++
        Text.quoted (String.ofList ((s.drop a.start).take 30))) ::
      (TracedAttempt.linesAll s a.inner ++ [if a.result.status then
        a.label.describe a.closed ++ ": matched " ++ toString a.start ++ ".." ++
          toString a.result.index ++ ": " ++ a.result.value.display a.closed
      else a.label.describe a.closed ++ ": failed at " ++ toString a.result.furthest ++
        ", expected " ++ Value.textsDisplay a.result.expected]) := by
  obtain ⟨label, start, result, opened, closed, inner⟩ := a
  rw [TracedAttempt.lines, LogEntry.outcome]
  split
  · rfl
  · rw [render_failed]
    rfl

/-! ### Parsing a whole text -/

/-- How the log ends: with the report of a failure. -/
def lastLines : Outcome φ → List String
  | .ok _ => []
  | .error report => ["parse failed at " ++ toString report.furthest ++ ", expected " ++
      Value.textsDisplay report.expected]

/-- The world when a whole text has been parsed. -/
def ended (w : World φ) (r : Result (Value φ)) : World φ :=
  if r.status then w else logged w (.parseFailed r.toReport)

/-- The report of a failure is the last that is logged. -/
theorem log_ended (w : World φ) (r : Result (Value φ)) :
    (ended w r).log.toList = w.log.toList ++ lastLines r.outcome := by
  unfold ended Result.outcome
  by_cases hs : r.status = true
  · simp [hs, lastLines]
  · simp [hs, lastLines, logged, render_parseFailed]

theorem parse_apply (t : Tools φ) (r : Ref) (s : Input) (env : Value φ) (w : World φ) :
    Host.parse (host t) r s env w =
      match (Grammar.whole (.object r)).denote (host t) s 0 env
        (logged w (.parsing s.length r)) with
      | .ok result w' => .ok result.outcome (ended w' result)
      | .error e w' => .error e w' := by
  show ((Grammar.whole (.object r)).denote (host t) s 0 env >>= _) (logged w _) = _
  rw [bind_apply]
  cases (Grammar.whole (.object r)).denote (host t) s 0 env (logged w (.parsing s.length r)) with
  | error e w' => rfl
  | ok result w' =>
    dsimp only [ended]
    cases result.status <;> rfl

/-- A parse that returns writes to the log, if no call of a function does: one line with the length
of the text, then what the attempts of traced parsers say, and last the report if the outcome is an
error.  An attempt says where it starts, then what the attempts during it say, and then what came of
it.  The run that notes the attempts is the same one. -/
theorem log_parse (apply : Tools φ → φ → List (Value φ) → Machine φ (Value φ)) (budget depth : Nat)
    {r : Ref} {s : Input} {env : Value φ} {w w' : World φ} {o : Outcome φ}
    (h : Host.parse (host (tools apply budget depth)) r s env w = .ok o w') :
    ∃ trail, (tracedParse apply budget depth r s env).run {} w = .ok (o, trail) w' ∧
      (trail.Quiet → w'.log.toList = w.log.toList ++
        (("parsing " ++ toString s.length ++ " characters with " ++
            Value.parserText (w.names r)) ::
          (TracedAttempt.linesAll s trail.attempts ++ lastLines o))) ∧
      (∀ report, o = .error report → lastLines o = ["parse failed at " ++
        toString report.furthest ++ ", expected " ++ Value.textsDisplay report.expected]) ∧
      ∀ a : TracedAttempt φ, a.lines s =
        (a.label.describe a.opened ++ ": trying at " ++ toString a.start ++ ": " ++
          Text.quoted (String.ofList ((s.drop a.start).take 30))) ::
        (TracedAttempt.linesAll s a.inner ++ [if a.result.status then
          a.label.describe a.closed ++ ": matched " ++ toString a.start ++ ".." ++
            toString a.result.index ++ ": " ++ a.result.value.display a.closed
        else a.label.describe a.closed ++ ": failed at " ++ toString a.result.furthest ++
          ", expected " ++ Value.textsDisplay a.result.expected]) := by
  rw [parse_apply] at h
  split at h
  · next result w₁ hrun =>
    cases h
    obtain ⟨a, trail, hx, hlog, ha⟩ :=
      Pairing.likeOn_denoteNoting (hosts_tracedHost fun r => follows_tools apply budget depth r)
        (noting_tracedAttempt _ _) (Grammar.whole (.object r)) () (le_refl _) s 0 env env rfl _ _ _
        hrun
    obtain rfl := Likeness.results_same.1 ha
    refine ⟨trail, ?_, fun hq => ?_, fun report ho => by rw [ho]; rfl, lines_eq s⟩
    · have hwhole : (Grammar.whole (.object r)).denoteNoting tracedAttempt (tracedHost _ _) s 0 env
          {} (logged w (.parsing s.length r)) = .ok (a, trail) w₁ := hx {}
      show EStateM.bind (fun w => (Grammar.whole (.object r)).denoteNoting tracedAttempt
        (tracedHost _ _) s 0 env {} w) _ (logged w _) = _
      simp only [EStateM.bind, hwhole, ended]
      cases a.status <;> rfl
    · rw [log_ended, hlog hq]
      simp [logged, LogEntry.render]
  · cases h

section

open Script (Function)

/-- A world with a deferred parser (object 5) of a traced one (object 6): a letter, which is traced
too, in any number of brackets. -/
def bracketing : World Function :=
  { World.initial with
    cells := World.initial.cells ++ #[⟨.deferred 0, .null⟩,
      ⟨.trace (.alt (.seq [.string "(", .object 5, .string ")"])
        [.trace (.string "x") (.text "letter")]) (.text "group"), .null⟩]
    deferrals := #[.fresh (.function (.closure none [] (.ref "p") [("p", .parser 6)])) 5] }

/-- A run in which a group is tried in a group, a letter at two places, and the text does not
match. -/
theorem log_parse_bracketing : ∃ o w' trail,
    Host.parse (host (tools lookUpOnly 9 9)) 5 "(x".toList .null bracketing = .ok o w' ∧
    (tracedParse lookUpOnly 9 9 5 "(x".toList .null).run {} bracketing = .ok (o, trail) w' ∧
    trail.Quiet ∧
    w'.log.toList = bracketing.log.toList ++
      (("parsing " ++ toString 2 ++ " characters with " ++ Value.parserText (bracketing.names 5)) ::
        (TracedAttempt.linesAll "(x".toList trail.attempts ++ lastLines o)) := by
  obtain ⟨o, w', hparse⟩ : ∃ o w',
      Host.parse (host (tools lookUpOnly 9 9)) 5 "(x".toList .null bracketing = .ok o w' :=
    ⟨_, _, rfl⟩
  obtain ⟨trail, hrun, hlog, -, -⟩ := log_parse lookUpOnly 9 9 hparse
  have hquiet : trail.Quiet := by
    obtain ⟨o', w'', trail', hrun', hquiet'⟩ : ∃ o' w'' trail',
        (tracedParse lookUpOnly 9 9 5 "(x".toList .null).run {} bracketing = .ok (o', trail') w'' ∧
          trail'.Quiet := ⟨_, _, _, rfl, fun call hcall => by cases hcall with
            | head => rfl
            | tail _ hcall => cases hcall⟩
    cases hrun.symm.trans hrun'
    exact hquiet'
  exact ⟨o, w', trail, hparse, hrun, hquiet, hlog hquiet⟩

example :
    (match Host.parse (host (tools lookUpOnly 9 9)) 5 "(x".toList .null bracketing with
      | .ok _ w' => w'.log
      | .error _ w' => w'.log) =
      #["parsing 2 characters with <Parser at 0x?>",
        "group: trying at 0: '(x'",
        "group: trying at 1: 'x'",
        "letter: trying at 1: 'x'",
        "letter: matched 1..2: 'x'",
        "group: matched 1..2: 'x'",
        "letter: trying at 0: '(x'",
        "letter: failed at 0, expected [\"'x'\"]",
        "group: failed at 2, expected [\"')'\"]",
        "parse failed at 2, expected [\"')'\"]"] := by
  decide

end

end Machine

end Furthest
