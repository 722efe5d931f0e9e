import Furthest.Proofs.EntryPoints.Library

/-!
# Whole texts

`Script.entryPoints_agree`: the functions that parse a whole text agree with the bare run of the
parser at the start of the text, and with each other.  The outcome is the run's value if it matched
up to the end, and otherwise an error that points at the deeper of where the run stopped and its
deepest failure (`Result.Decides`).  One function gives the outcome, one a pair of value and error,
and one the value or a fault whose message is worked out in `Report.errorText_wording`.

Parsing a whole text writes to the log before it runs the parser, and no run looks at the log
(`Script.logBlind_script`).
-/

namespace Furthest

variable {φ : Type}

/-! ## Messages -/

namespace Report

/-- What a message says to stand where a report points. -/
def found (r : Report) (text : List Char) : String :=
  let f := r.furthest.toNat
  if r.furthest = text.length then "end of input"
  else "'" ++ String.ofList ((text.drop f).take (min 10 (text.length - f))) ++
    (if 10 < text.length - f then "..." else "") ++ "'"

/-- The message about a report: what was expected, where, and what stands there. -/
def wording (r : Report) (text : List Char) : String :=
  "expected " ++ (match r.expected with
    | [label] => label
    | labels => "one of " ++ ", ".intercalate labels) ++
    " at character " ++ toString r.furthest ++ ", got " ++ r.found text

theorem placeIn_natCast (length n : Nat) : placeIn length (n : Int) = n := by
  rw [placeIn, if_neg (by omega), Int.toNat_natCast]

theorem excerpt_natCast (text : List Char) (f width : Nat) :
    excerpt text (f : Int) ((f : Int) + (width : Int)) =
      (text.drop f).take (min width (text.length - f)) := by
  rw [excerpt, ← Int.natCast_add, placeIn_natCast, placeIn_natCast, List.drop_take,
    Nat.add_sub_cancel_left, ← List.length_drop, ← List.take_eq_take_min]

/-- The message quotes at most ten characters, and dots stand for more. -/
theorem errorText_wording {r : Report} {text : List Char} (hnonneg : 0 ≤ r.furthest)
    (hle : r.furthest ≤ text.length) : r.errorText text defaultWidth = r.wording text := by
  obtain ⟨f, hf⟩ := Int.eq_ofNat_of_zero_le hnonneg
  have hgot : r.gotText text defaultWidth =
      " at character " ++ toString r.furthest ++ ", got " ++ r.found text := by
    simp only [gotText, found, hf, Int.toNat_natCast, defaultWidth]
    by_cases hend : (f : Int) = text.length
    · rw [if_pos hend, if_pos (Int.le_of_eq hend.symm)]
      simp [String.append_assoc]
    · have hquote : ", got '" = ", got " ++ "'" := by decide
      have hdots : ((10 : Int) < text.length - f) ↔ 10 < text.length - f := by omega
      have hexcerpt := excerpt_natCast text f 10
      rw [if_neg hend, if_neg (by omega), hquote]
      simp only [hdots, String.append_assoc]
      exact congrArg (fun cs => " at character " ++ (toString (f : Int) ++ (", got " ++ ("'" ++
        (String.ofList cs ++ _))))) hexcerpt
  have hlabels : expectedText r.expected = match r.expected with
      | [label] => label
      | labels => "one of " ++ ", ".intercalate labels := by
    rcases r.expected with _ | ⟨label, _ | ⟨label', labels⟩⟩ <;> rfl
  rw [errorText, hgot, wording, hlabels]
  simp only [String.append_assoc]

theorem found_eq_iff {r : Report} {text : List Char} :
    r.found text = "end of input" ↔ r.furthest = text.length := by
  unfold found
  refine ⟨fun h => ?_, fun h => if_pos h⟩
  by_contra hne
  rw [if_neg hne] at h
  have := congrArg String.toList h
  simp at this

end Report

/-! ## The end of the text -/

namespace Result

/-- The result of a run at the start of a text of `n` characters: it ends in the text, its report
points into the text or is silent, and a failure has a label. -/
structure Contained (r : Result (Value φ)) (n : Nat) : Prop where
  index_le : r.index ≤ n
  neg_one_le : -1 ≤ r.furthest
  furthest_le : r.furthest ≤ n
  of_failure : r.status = false → 0 ≤ r.furthest ∧ r.expected ≠ []

/-- A result after which the end of a text of `n` characters was asked for. -/
def closed (r : Result (Value φ)) (n : Nat) : Result (Value φ) :=
  if r.status = true ∧ r.index < n then (failure r.index "end of input").merge r else r

/-- What a run of a parser decides about the whole text. -/
structure Decides (r : Result (Value φ)) (n : Nat) (o : Outcome φ) : Prop where
  ok_iff (v : Value φ) : o = .ok v ↔ r.status = true ∧ r.value = v ∧ r.index = n
  of_failure : r.status = false → o = .error r.toReport
  of_early : r.status = true → r.index < n → o = .error ⟨max r.index r.furthest,
    if r.furthest < r.index then ["end of input"]
    else if r.furthest = r.index then "end of input" :: r.expected
    else r.expected⟩

variable {r : Result (Value φ)} {n : Nat}

theorem join_single (k : Nat) (label : String) (r : Report) :
    (Report.single k label).join r = ⟨max k r.furthest,
      if r.furthest < k then [label] else if r.furthest = k then label :: r.expected
      else r.expected⟩ := by
  rcases Int.lt_trichotomy k r.furthest with h | h | h
  · rw [Report.join_of_gt h, if_neg (by omega), if_neg (by omega), Int.max_eq_right (by omega)]
  · rw [Report.join_of_eq h, if_neg (by omega), if_pos h.symm, Int.max_eq_right (by omega)]
    rfl
  · rw [Report.join_of_lt h, if_pos h, Int.max_eq_left (by omega)]
    rfl

/-- What is decided is the outcome of asking for the end. -/
theorem Contained.decides (h : r.Contained n) : r.Decides n (r.closed n).outcome := by
  unfold closed
  cases hs : r.status with
  | false =>
    refine ⟨fun v => ?_, fun _ => ?_, fun h => absurd (hs.symm.trans h) Bool.noConfusion⟩
    · simp [outcome, hs]
    · simp [outcome, hs]
  | true =>
    by_cases hi : r.index < n
    · rw [if_pos ⟨rfl, hi⟩]
      refine ⟨fun v => ?_, fun h => absurd (hs.symm.trans h) Bool.noConfusion, fun _ _ => ?_⟩
      · simp [outcome, failure, Nat.ne_of_lt hi]
      · exact congrArg Outcome.error (join_single r.index "end of input" r.toReport)
    · rw [if_neg (fun hc => hi hc.2)]
      have hn : r.index = n := Nat.le_antisymm h.index_le (Nat.le_of_not_lt hi)
      refine ⟨fun v => ?_, fun h => absurd (hs.symm.trans h) Bool.noConfusion,
        fun _ hlt => absurd hlt hi⟩
      simp [outcome, hs, hn]

/-- An error points into the text. -/
theorem Contained.closed (h : r.Contained n) (hs : (r.closed n).status = false) :
    0 ≤ (r.closed n).furthest ∧ (r.closed n).furthest ≤ n := by
  unfold Result.closed at hs ⊢
  split at hs
  · next hi =>
    rw [if_pos hi, toReport_merge, Report.furthest_join]
    have hlt := hi.2
    have := h.furthest_le
    simp only [failure, Report.single]
    omega
  · next hi =>
    rw [if_neg hi]
    exact ⟨(h.of_failure hs).1, h.furthest_le⟩

end Result

namespace Behaviour

variable {σ : Type} {p q : Behaviour (EStateM (Halt φ) σ) φ} {s : Input} {env : Value φ} {i : Nat}
  {w w₁ w₂ : σ} {r r' : Result (Value φ)}

theorem bind_of_ok {α β : Type} {x : EStateM (Halt φ) σ α} {f : α → EStateM (Halt φ) σ β} {a : α}
    (h : x w = .ok a w₁) : (x >>= f) w = f a w₁ := by
  rw [bind_apply, h]

theorem bind_of_error {α β : Type} {x : EStateM (Halt φ) σ α} {f : α → EStateM (Halt φ) σ β}
    {h : Halt φ} (hx : x w = .error h w₁) : (x >>= f) w = .error h w₁ := by
  rw [bind_apply, hx]

theorem ite_of_failed {α : Type} {x y : EStateM (Halt φ) σ α} (hr : r.status = false) :
    (if r.status then x else y) = y :=
  if_neg (by simp [hr])

theorem ite_of_matched {α : Type} {x y : EStateM (Halt φ) σ α} (hr : r.status = true) :
    (if r.status then x else y) = x :=
  if_pos hr

theorem seq_of_first_failed (hp : p s i env w = .ok r w₁) (hr : r.status = false) :
    seq [p, q] s i env w = .ok r w₁ :=
  (bind_of_ok hp).trans (congrFun (ite_of_failed hr) w₁)

theorem seq_of_second_failed (hp : p s i env w = .ok r w₁) (hr : r.status = true)
    (hq : q s r.index env w₁ = .ok r' w₂) (hr' : r'.status = false) :
    seq [p, q] s i env w = .ok (r'.merge r) w₂ :=
  calc seq [p, q] s i env w
      = seqFrom s env [q] r.index #[r.value] (some r) w₁ :=
        (bind_of_ok hp).trans (congrFun (ite_of_matched hr) w₁)
    _ = .ok (r'.merge r) w₂ :=
        (bind_of_ok hq).trans (congrFun (ite_of_failed (r := r'.merge r) hr') w₂)

theorem seq_of_matched (hp : p s i env w = .ok r w₁) (hr : r.status = true)
    (hq : q s r.index env w₁ = .ok r' w₂) (hr' : r'.status = true) :
    seq [p, q] s i env w =
      .ok ((Result.success r'.index (.list [r.value, r'.value])).merge (r'.merge r)) w₂ :=
  calc seq [p, q] s i env w
      = seqFrom s env [q] r.index #[r.value] (some r) w₁ :=
        (bind_of_ok hp).trans (congrFun (ite_of_matched hr) w₁)
    _ = _ := (bind_of_ok hq).trans (congrFun (ite_of_matched (r := r'.merge r) hr') w₂)

theorem mapEnv_of_failed {f : Value φ → Value φ → EStateM (Halt φ) σ (Value φ)}
    (hp : p s i env w = .ok r w₁) (hr : r.status = false) : mapEnv p f s i env w = .ok r w₁ :=
  (bind_of_ok hp).trans (congrFun (ite_of_failed hr) w₁)

theorem mapEnv_of_matched {f : Value φ → Value φ → EStateM (Halt φ) σ (Value φ)} {v : Value φ}
    (hp : p s i env w = .ok r w₁) (hr : r.status = true) (hf : f r.value env w₁ = .ok v w₂) :
    mapEnv p f s i env w = .ok ((Result.success r.index v).merge r) w₂ :=
  calc mapEnv p f s i env w
      = (f r.value env >>= fun v => pure ((Result.success r.index v).merge r)) w₁ :=
        (bind_of_ok hp).trans (congrFun (ite_of_matched hr) w₁)
    _ = _ := bind_of_ok hf

end Behaviour

namespace Machine

variable [FunctionText φ] {t : Tools φ} {apply : Tools φ → φ → List (Value φ) → Machine φ (Value φ)}
  {r : Ref} {s : Input} {env : Value φ} {w w₁ : World φ} {result : Result (Value φ)}

/-- The parser of the end of the text, as it was made. -/
theorem run_eof {budget depth i : Nat} (h : (w.cell Ref.eof).behaviour = .eof) :
    (tools apply budget (depth + 1)).run Ref.eof s i env w = .ok (Leaf.eof s i) w := by
  show ((w.cell Ref.eof).behaviour.denote (host (tools apply budget depth)) s i env) w = _
  rw [h]
  rfl

/-- The run of a parser and, after a match, of the end of the text. -/
theorem whole_apply (hrun : t.run r s 0 env w = .ok result w₁)
    (heof : t.run Ref.eof s result.index env w₁ = .ok (Leaf.eof s result.index) w₁)
    (h : -1 ≤ result.furthest) :
    (Grammar.whole (.object r)).denote (host t) s 0 env w = .ok (result.closed s.length) w₁ := by
  rw [Grammar.whole, Grammar.skip, Grammar.seqItem, Grammar.denote_mapEnv, Grammar.denote_seq]
  show Behaviour.mapEnv (Behaviour.seq [t.run r, t.run Ref.eof]) _ s 0 env w = _
  by_cases hs : result.status = true
  · by_cases hi : result.index < s.length
    · rw [Leaf.eof, if_pos hi] at heof
      rw [Behaviour.mapEnv_of_failed (Behaviour.seq_of_second_failed hrun hs heof rfl) rfl,
        Result.closed, if_pos ⟨hs, hi⟩]
    · rw [Leaf.eof, if_neg hi] at heof
      rw [Behaviour.mapEnv_of_matched (Behaviour.seq_of_matched hrun hs heof rfl) rfl rfl,
        Result.closed, if_neg fun hc => hi hc.2]
      simp only [Result.merge, Result.success, Report.silent_join h, ← hs]
      rfl
  · have hf : result.status = false := by simpa using hs
    rw [Behaviour.mapEnv_of_failed (Behaviour.seq_of_first_failed hrun hf) hf, Result.closed,
      if_neg fun hc => hs hc.1]

/-- Whole texts are parsed by the run of the parser, and what it decides is the outcome. -/
theorem parse_of_run {budget depth : Nat}
    (happly : LogBlindFunctions apply)
    (hrun : (tools apply budget depth).run r s 0 env w = .ok result w₁)
    (h : result.Contained s.length) (heof : (w₁.cell Ref.eof).behaviour = .eof) :
    ∃ w₂, (host (tools apply budget depth)).parse r s env w =
      .ok (result.closed s.length).outcome w₂ := by
  cases depth with
  | zero => cases hrun
  | succ depth =>
    let entry : LogEntry φ := .parsing s.length r
    let w' : World φ := { w with log := w.log.push (entry.render w.names) }
    have halike := (logBlind_tools happly budget (depth + 1)).run r s 0 env w w' rfl
    rw [hrun] at halike
    generalize hrun' : (tools apply budget (depth + 1)).run r s 0 env w' = e at halike
    cases halike with
    | @ok _ _ _ w₁' hr hw =>
      cases hr
      have heof' : (w₁'.cell Ref.eof).behaviour = .eof := by
        have hcell : w₁.unlogged.cell Ref.eof = w₁'.unlogged.cell Ref.eof := by rw [hw]
        exact (congrArg Cell.behaviour hcell).symm.trans heof
      have hwhole := whole_apply hrun' (run_eof heof') h.neg_one_le
      show ∃ w₂, ((Grammar.whole (.object r)).denote (host (tools apply budget (depth + 1))) s 0
        env >>= fun final => _) w' = _
      rw [Behaviour.bind_of_ok hwhole]
      by_cases hs : (result.closed s.length).status = true
      · exact ⟨_, (congrFun (if_pos hs) _).trans rfl⟩
      · exact ⟨_, (congrFun (if_neg hs) _).trans rfl⟩

/-- If the run of the parser halts, so does parsing a whole text with it. -/
theorem parse_of_halt {budget depth : Nat} (happly : LogBlindFunctions apply) {halt : Halt φ}
    (hrun : (tools apply budget depth).run r s 0 env w = .error halt w₁) :
    ∃ w₂, (host (tools apply budget depth)).parse r s env w = .error halt w₂ := by
  let entry : LogEntry φ := .parsing s.length r
  let w' : World φ := { w with log := w.log.push (entry.render w.names) }
  have halike := (logBlind_tools happly budget depth).run r s 0 env w w' rfl
  rw [hrun] at halike
  generalize hrun' : (tools apply budget depth).run r s 0 env w' = e at halike
  cases halike with
  | @error _ _ w₁' hw =>
    have hwhole : (Grammar.whole (.object r)).denote (host (tools apply budget depth)) s 0 env w' =
        .error halt w₁' :=
      Behaviour.bind_of_error (Behaviour.bind_of_error hrun')
    show ∃ w₂, ((Grammar.whole (.object r)).denote (host (tools apply budget depth)) s 0 env >>=
      fun final => _) w' = _
    exact ⟨w₁', Behaviour.bind_of_error hwhole⟩

end Machine

/-! ## The functions that parse whole texts -/

namespace Script

open Machine

variable {t : Tools Function} {args : List Val} {r : Ref} {s : String} {env : Val}
  {w : World Function}

/-- Arguments for parsing the text `s` with the object `r` in an environment, which may be left out
if it is nothing. -/
inductive WholeArguments (r : Ref) (s : String) : Val → List Val → Prop where
  | given (env : Val) : WholeArguments r s env [.parser r, .text s, env]
  | absent : WholeArguments r s .null [.parser r, .text s]

/-- A computation comes to a value. -/
def Answers (x : Machine Function Val) (w : World Function) (v : Val) : Prop := ∃ w', x w = .ok v w'

/-- A computation halts. -/
def Halts (x : Machine Function Val) (w : World Function) (halt : Halt Function) : Prop :=
  ∃ w', x w = .error halt w'

/-- What the functions that parse the whole of `s` give for an outcome. -/
def EntryPointsGive (t : Tools Function) (args : List Val) (s : String) (w : World Function) :
    Outcome Function → Prop
  | .ok v =>
    Answers (parse t args) w (.ok v) ∧ Answers (parseAsMethod t args) w (.ok v) ∧
      Answers (runParser t args) w (.tuple [v, .null]) ∧ Answers (parseOrRaise t args) w v
  | .error report =>
    Answers (parse t args) w (.error report) ∧ Answers (parseAsMethod t args) w (.error report) ∧
      Answers (runParser t args) w (.tuple [.null, .error report]) ∧
      Halts (parseOrRaise t args) w (.fault (.mismatch report s))

theorem entryPointsGive_of_parse (hargs : WholeArguments r s env args) {o : Outcome Function}
    {w' : World Function} (h : (host t).parse r s.toList env w = .ok o w') :
    EntryPointsGive t args s w o := by
  cases hargs <;> cases o with
  | ok v =>
    exact ⟨⟨w', Behaviour.bind_of_ok h⟩, ⟨w', Behaviour.bind_of_ok h⟩, ⟨w', Behaviour.bind_of_ok h⟩,
      ⟨w', Behaviour.bind_of_ok h⟩⟩
  | error report =>
    exact ⟨⟨w', Behaviour.bind_of_ok h⟩, ⟨w', Behaviour.bind_of_ok h⟩, ⟨w', Behaviour.bind_of_ok h⟩,
      ⟨w', Behaviour.bind_of_ok h⟩⟩

theorem halts_of_parse (hargs : WholeArguments r s env args) {halt : Halt Function}
    {w' : World Function} (h : (host t).parse r s.toList env w = .error halt w') :
    Halts (parse t args) w halt ∧ Halts (parseAsMethod t args) w halt ∧
      Halts (runParser t args) w halt ∧ Halts (parseOrRaise t args) w halt := by
  cases hargs <;>
    exact ⟨⟨w', Behaviour.bind_of_error h⟩, ⟨w', Behaviour.bind_of_error h⟩,
      ⟨w', Behaviour.bind_of_error h⟩, ⟨w', Behaviour.bind_of_error h⟩⟩

/-- Where the bare run of a parser at the start of a text gives a contained result, all functions
that parse whole texts give the outcome that it decides, and where it halts they halt for the same
reason.  The parser of the end of the text has to be as it was made. -/
theorem entryPoints_agree (globals : Scope) (budget depth : Nat)
    (hargs : WholeArguments r s env args) :
    (∀ result w₁, (tools (applyFunction globals) budget depth).run r s.toList 0 env w =
        .ok result w₁ → result.Contained s.length → (w₁.cell Ref.eof).behaviour = .eof →
      ∃ o, result.Decides s.length o ∧
        EntryPointsGive (tools (applyFunction globals) budget depth) args s w o ∧
        ∀ report, o = .error report → 0 ≤ report.furthest ∧ report.furthest ≤ s.length ∧
          (Fault.mismatch report s : Fault Function).kind = .parse ∧
          (∀ names, (Fault.mismatch report s : Fault Function).message names =
            report.wording s.toList) ∧
          (report.found s.toList = "end of input" ↔ report.furthest = s.length)) ∧
    (∀ halt w₁, (tools (applyFunction globals) budget depth).run r s.toList 0 env w =
        .error halt w₁ →
      Halts (parse (tools (applyFunction globals) budget depth) args) w halt ∧
        Halts (parseAsMethod (tools (applyFunction globals) budget depth) args) w halt ∧
        Halts (runParser (tools (applyFunction globals) budget depth) args) w halt ∧
        Halts (parseOrRaise (tools (applyFunction globals) budget depth) args) w halt) := by
  have hblind := logBlind_applyFunction globals
  rw [← String.length_toList]
  refine ⟨fun result w₁ hrun h heof => ?_, fun halt w₁ hrun => ?_⟩
  · obtain ⟨w₂, hparse⟩ := parse_of_run hblind hrun h heof
    refine ⟨_, h.decides, entryPointsGive_of_parse hargs hparse, fun report ho => ?_⟩
    have hs : (result.closed s.toList.length).status = false := by
      by_contra hs
      rw [Result.outcome, if_pos (by simpa using hs)] at ho
      cases ho
    have hreport : (result.closed s.toList.length).toReport = report := by
      rw [Result.outcome, if_neg (by simp [hs])] at ho
      exact Outcome.error.inj ho
    obtain ⟨hnonneg, hle⟩ := hreport ▸ h.closed hs
    exact ⟨hnonneg, hle, rfl, fun _ => Report.errorText_wording hnonneg hle, Report.found_eq_iff⟩
  · obtain ⟨w₂, hparse⟩ := parse_of_halt hblind hrun
    exact halts_of_parse hargs hparse

/-- The parser of any character matches the first of two, and then the text is not at its end. -/
theorem entryPoints_agree_anyChar :
    (tools (applyFunction []) 1 1).run Ref.anyChar "ab".toList 0 .null .initial =
        .ok (.success 1 (.text "a")) .initial ∧
      EntryPointsGive (tools (applyFunction []) 1 1) [.parser Ref.anyChar, .text "ab"] "ab" .initial
        (.error ⟨1, ["end of input"]⟩) :=
  have ⟨_, ho, hgive, _⟩ := (entryPoints_agree [] 1 1 (w := .initial)
    (WholeArguments.absent (r := Ref.anyChar) (s := "ab"))).1 (.success 1 (.text "a")) .initial rfl
    ⟨by decide, by decide, by decide, nofun⟩ rfl
  ⟨rfl, ho.of_early rfl (by decide) ▸ hgive⟩

end Script

end Furthest
