import Furthest.Machine.Run
import Furthest.Proofs.Returns
import Furthest.Proofs.Traced.Denotation

/-!
# Runs that note the attempts of traced parsers

A `Tracing` computation notes every attempt of a traced parser with what came of it and with the
attempts made during it, and every call of a function with the log before and after it.  It looks
at results, not at the log.  `Machine.tracedRun` runs a parser object as the machine does and notes
this.  Such a run does what the plain one does, and unless a call has written to the log, what the
log has gained is what the attempts say: each announced, then those made during it, then its outcome
(`Machine.follows_tools`).
-/

namespace Furthest

variable {φ : Type}

/-- An attempt of a traced parser. -/
structure TracedAttempt (φ : Type) where
  label : Value φ
  start : Nat
  result : Result (Value φ)
  /-- The names of objects when it was announced. -/
  opened : Ref → Option String
  /-- The names of objects when it was over. -/
  closed : Ref → Option String
  /-- The attempts made during it, in order. -/
  inner : List (TracedAttempt φ)

/-- What is noted of a run. -/
structure Trail (φ : Type) where
  /-- The attempts of traced parsers that were not made during others, in order. -/
  attempts : List (TracedAttempt φ) := []
  /-- The log before and after each call of a function. -/
  calls : List (Array String × Array String) := []

/-- A computation that notes attempts and calls. -/
abbrev Tracing (φ : Type) := StateT (Trail φ) (Machine φ)

/-! ## What attempts say -/

section

variable [FunctionText φ]

/-- How the log tells the outcome of an attempt: a match by where it ends and its value, a failure
by its report. -/
def LogEntry.outcome (label : Value φ) (start : Nat) (r : Result (Value φ)) : LogEntry φ :=
  if r.status then .matched label start r.index r.value else .failed label r.toReport

mutual

/-- What an attempt on the text `s` says: what it starts at, what the attempts during it say, and
what came of it. -/
def TracedAttempt.lines (s : Input) : TracedAttempt φ → List String
  | ⟨label, start, result, opened, closed, inner⟩ =>
    (LogEntry.trying label start (String.ofList ((s.drop start).take 30))).render opened ::
      (linesAll s inner ++ [(LogEntry.outcome label start result).render closed])

/-- What attempts on the text `s` say, one after another. -/
def TracedAttempt.linesAll (s : Input) : List (TracedAttempt φ) → List String
  | [] => []
  | a :: as => a.lines s ++ linesAll s as

end

theorem TracedAttempt.linesAll_append (s : Input) (as bs : List (TracedAttempt φ)) :
    linesAll s (as ++ bs) = linesAll s as ++ linesAll s bs := by
  induction as with
  | nil => rfl
  | cons a as ih => rw [List.cons_append, linesAll, linesAll, ih, List.append_assoc]

end

namespace Trail

/-- What is noted later comes after what is noted before. -/
def append (t t' : Trail φ) : Trail φ := ⟨t.attempts ++ t'.attempts, t.calls ++ t'.calls⟩

/-- No call has changed the log. -/
def Quiet (t : Trail φ) : Prop := ∀ call ∈ t.calls, call.1 = call.2

theorem append_empty (t : Trail φ) : t.append {} = t := by
  simp [append]

theorem append_assoc (t t' t'' : Trail φ) :
    (t.append t').append t'' = t.append (t'.append t'') := by
  simp [append]

theorem quiet_append {t t' : Trail φ} : (t.append t').Quiet ↔ t.Quiet ∧ t'.Quiet := by
  simp only [Quiet, append, List.mem_append]
  exact ⟨fun h => ⟨fun c hc => h c (.inl hc), fun c hc => h c (.inr hc)⟩,
    fun h c hc => hc.elim (h.1 c) (h.2 c)⟩

end Trail

namespace Machine

variable [FunctionText φ]

/-- The names that hold now. -/
def names : Machine φ (Ref → Option String) := do return (← get).names

/-- Calls a function and notes the log before and after it. -/
def tracedCall (t : Tools φ) (f : Value φ) (args : List (Value φ)) : Tracing φ (Value φ) := do
  let before ← (get : Machine φ (World φ))
  let v ← (t.call f args : Machine φ (Value φ))
  let after ← (get : Machine φ (World φ))
  modify (·.append { calls := [(before.log, after.log)] })
  return v

/-- Notes an attempt of a traced parser, and under it the attempts made during it. -/
def tracedAttempt (label : Value φ) (p : Behaviour (Tracing φ) φ) : Behaviour (Tracing φ) φ :=
  fun s i env => do
    let before ← (get : Tracing φ (Trail φ))
    let opened ← (names : Machine φ (Ref → Option String))
    set ({ before with attempts := [] } : Trail φ)
    let r ← p s i env
    let closed ← (names : Machine φ (Ref → Option String))
    modify fun t : Trail φ =>
      { t with attempts := before.attempts ++ [⟨label, i, r, opened, closed, t.attempts⟩] }
    return r

/-- Runs a deferred parser, where `run` runs parser objects and notes attempts. -/
def tracedDeferred (t : Tools φ) (run : Ref → Behaviour (Tracing φ) φ) (d : DeferralRef) :
    Behaviour (Tracing φ) φ := fun s i env => do
  let state := (← (get : Machine φ (World φ))).deferral d
  match state.target with
  | .null =>
    let made ← tracedCall t state.thunk []
    (modify (·.resolve d made) : Machine φ PUnit)
    match made with
    | .parser r =>
      (replace state.self r : Machine φ PUnit)
      let result ← run r s i env
      (replace state.self r : Machine φ PUnit)
      return result
    | v => (fault (.unfit "lazy" .parser v) : Machine φ (Result (Value φ)))
  | .parser r => run r s i env
  | v => do Host.resultOf (← tracedCall t v [.text (String.ofList s), .nat i, env])

/-- What grammars need in a run that notes attempts. -/
def tracedHost (t : Tools φ) (run : Ref → Behaviour (Tracing φ) φ) : Host (Tracing φ) φ where
  object := run
  deferred := tracedDeferred t run
  call := tracedCall t
  describe v := (describe v : Machine φ String)
  log entry := (log entry : Machine φ PUnit)
  budget := t.budget

/-- Runs a parser object and notes the attempts of traced parsers. -/
def tracedRun (apply : Tools φ → φ → List (Value φ) → Machine φ (Value φ)) (budget : Nat) :
    (depth : Nat) → Ref → Behaviour (Tracing φ) φ
  | 0, _, _, _, _ => throw .exhausted
  | depth + 1, r, s, i, env => do
    let c ← (cell r : Machine φ (Cell φ))
    c.behaviour.denoteNoting tracedAttempt
      (tracedHost (tools apply budget depth) (tracedRun apply budget depth)) s i env

/-! ## The log follows the attempts -/

/-- Whenever the plain computation returns, the other one returns something related in the same
world and notes something after what was noted before; if no call has changed the log, the log has
gained what the attempts on the text `s` say. -/
def tracing (s : Input) : Pairing (Likeness.same φ) (Tracing φ) (Machine φ) where
  Holds _ Q x y := ∀ w b w', y w = .ok b w' → ∃ a trail,
    (∀ before, x before w = .ok (a, before.append trail) w') ∧
    (trail.Quiet → w'.log.toList = w.log.toList ++ TracedAttempt.linesAll s trail.attempts) ∧
    Q () a b
  pure := by
    rintro _ _ _ Q a b hQ w _ _ ⟨⟩
    exact ⟨a, {}, fun before => by rw [before.append_empty]; rfl,
      fun _ => (List.append_nil _).symm, hQ⟩
  bind := by
    intro _ _ _ _ _ Q R x y f g hxy hfg w b w' h
    obtain ⟨b₁, w₁, hy, hg⟩ := bind_eq_ok h
    obtain ⟨a₁, t₁, hx, hlog₁, hQ⟩ := hxy w b₁ w₁ hy
    obtain ⟨a, t₂, hf, hlog, hR⟩ := hfg () a₁ b₁ (le_refl _) hQ w₁ b w' hg
    refine ⟨a, t₁.append t₂, fun before => ?_, fun hq => ?_, hR⟩
    · show EStateM.bind (x before) (fun p => f p.1 p.2) w = _
      simp only [EStateM.bind, hx, hf, Trail.append_assoc]
    · obtain ⟨hq₁, hq₂⟩ := Trail.quiet_append.1 hq
      rw [hlog hq₂, hlog₁ hq₁, List.append_assoc, ← TracedAttempt.linesAll_append]
      rfl
  throw := by
    rintro _ _ _ _ _ _ _ w _ _ ⟨⟩

variable {s : Input}

/-- A computation that leaves the log alone and in which nothing is noted. -/
theorem tracing_lift {α : Type} {x : Machine φ α}
    (hx : ∀ w, Returns x w fun _ w' => w'.log = w.log) :
    (tracing s).Holds () (fun _ => Eq) (x : Tracing φ α) x := by
  intro w b w' h
  refine ⟨b, {}, fun before => ?_, fun _ => ?_, rfl⟩
  · rw [before.append_empty]
    show EStateM.bind x (fun a => pure (a, before)) w = _
    simp only [EStateM.bind, h]
    rfl
  · rw [hx w b w' h]
    exact (List.append_nil _).symm

theorem tracing_tracedCall (t : Tools φ) (f : Value φ) (args : List (Value φ)) :
    (tracing s).Holds () (fun _ => Eq) (tracedCall t f args) (t.call f args) := by
  intro w b w' h
  refine ⟨b, { calls := [(w.log, w'.log)] }, fun before => ?_, fun hq => ?_, rfl⟩
  · show EStateM.bind (EStateM.bind (t.call f args) fun v => pure (v, before)) _ w = _
    simp only [EStateM.bind, h]
    rfl
  · have hlog : w.log = w'.log := hq _ (List.mem_singleton.2 rfl)
    rw [← hlog]
    exact (List.append_nil _).symm

/-- The world after an entry was written to the log. -/
def logged (w : World φ) (entry : LogEntry φ) : World φ :=
  { w with log := w.log.push (entry.render w.names) }

theorem log_apply (entry : LogEntry φ) (w : World φ) : log entry w = .ok ⟨⟩ (logged w entry) := rfl

omit [FunctionText φ] in
/-- A traced parser logs its start and its outcome. -/
theorem trace_eq {m : Type → Type} [Monad m] (p : Behaviour m φ) (label : Value φ)
    (log : LogEntry φ → m PUnit) (i : Nat) (env : Value φ) :
    Behaviour.trace p label log s i env = (do
      log (.trying label i (String.ofList ((s.drop i).take 30)))
      let r ← p s i env
      log (.outcome label i r)
      return r) := by
  unfold Behaviour.trace LogEntry.outcome
  refine bind_congr fun _ => bind_congr fun r => ?_
  split <;> rfl

/-- A traced parser in the machine. -/
theorem trace_apply (q : Behaviour (Machine φ) φ) (label : Value φ) (i : Nat) (env : Value φ)
    (w : World φ) :
    Behaviour.trace q label log s i env w =
      match q s i env (logged w (.trying label i (String.ofList ((s.drop i).take 30)))) with
      | .ok r w' => .ok r (logged w' (.outcome label i r))
      | .error e w' => .error e w' := by
  simp only [trace_eq, bind_apply, log_apply]
  cases q s i env (logged w (.trying label i (String.ofList ((s.drop i).take 30)))) <;> rfl

/-- A traced parser in a run that notes attempts. -/
theorem tracedAttempt_apply (t : Tools φ) (run : Ref → Behaviour (Tracing φ) φ)
    {p : Behaviour (Tracing φ) φ} (label : Value φ) (i : Nat) (env : Value φ) (before : Trail φ)
    {w w' : World φ} {r : Result (Value φ)} {trail : Trail φ}
    (hp : ∀ before, p s i env before
      (logged w (.trying label i (String.ofList ((s.drop i).take 30)))) =
        .ok (r, before.append trail) w') :
    tracedAttempt label (Behaviour.trace p label (tracedHost t run).log) s i env before w =
      .ok (r, before.append
        ⟨[⟨label, i, r, w.names, w'.names, trail.attempts⟩], trail.calls⟩)
        (logged w' (.outcome label i r)) := by
  have hrun : Behaviour.trace p label (tracedHost t run).log s i env ⟨[], before.calls⟩ w =
      .ok (r, ⟨trail.attempts, before.calls ++ trail.calls⟩) (logged w' (.outcome label i r)) := by
    rw [trace_eq]
    show EStateM.bind (fun w => p s i env ⟨[], before.calls⟩ w) _ (logged w _) = _
    simp only [EStateM.bind, hp]
    rfl
  show EStateM.bind (Behaviour.trace p label _ s i env ⟨[], before.calls⟩) _ w = _
  simp only [EStateM.bind, hrun]
  rfl

/-- An attempt announces itself, lets those made during it speak, and tells its outcome. -/
theorem noting_tracedAttempt (t : Tools φ) (run : Ref → Behaviour (Tracing φ) φ) :
    (tracing s).Noting s (tracedHost t run) (host t) tracedAttempt := by
  intro label p q hpq u hu _ i env env' henv w r w' h
  replace h : Behaviour.trace q label log s i env' w = .ok r w' := h
  rw [trace_apply] at h
  split at h
  · next r₀ w₁ hq =>
    cases h
    obtain ⟨a, trail, hp, hlog, ha⟩ := hpq u hu s i env env' henv _ _ _ hq
    obtain rfl := Likeness.results_same.1 ha
    refine ⟨a, ⟨[⟨label, i, a, w.names, w₁.names, trail.attempts⟩], trail.calls⟩,
      fun before => tracedAttempt_apply t run label i env before hp, fun hquiet => ?_,
      Likeness.results_same.2 rfl⟩
    have hlog₁ := hlog hquiet
    simp only [logged, Array.toList_push] at hlog₁ ⊢
    rw [hlog₁]
    simp [TracedAttempt.linesAll, TracedAttempt.lines]
  · cases h

section

variable {t : Tools φ} {run : Ref → Behaviour (Tracing φ) φ}

theorem tracing_replace (self r : Ref) :
    (tracing s).Holds () (fun _ => Eq) ((replace self r : Machine φ PUnit) : Tracing φ PUnit)
      (replace self r) := by
  refine tracing_lift fun w => ?_
  rintro _ _ ⟨⟩
  rfl

/-- Reading the world leaves the log alone. -/
theorem tracing_read {α : Type} (f : World φ → α) :
    (tracing s).Holds () (fun _ => Eq) ((do return f (← get) : Machine φ α) : Tracing φ α)
      (do return f (← get)) := by
  refine tracing_lift fun w => ?_
  rintro _ _ ⟨⟩
  rfl

theorem likeOn_tracedDeferred (hrun : ∀ r, (tracing s).LikeOn s (run r) (t.run r))
    (d : DeferralRef) : (tracing s).LikeOn s (tracedDeferred t run d) (runDeferred t d) := by
  intro u hu _ i env env' henv
  refine (tracing s).bind (tracing_read id) ?_
  rintro _ w _ - rfl
  dsimp only
  cases (w.deferral d).target with
  | null =>
    refine (tracing s).bind (tracing_tracedCall t (w.deferral d).thunk []) ?_
    rintro _ made _ - rfl
    refine (tracing s).bind (Q := fun _ => Eq) (tracing_lift fun _ => returns_modify rfl)
      fun _ _ _ _ _ => ?_
    cases made with
    | parser r =>
      refine (tracing s).bind (tracing_replace _ r) fun _ _ _ _ _ => ?_
      refine (tracing s).bind (hrun r u hu s i env env' henv) fun _ a b _ hab => ?_
      exact (tracing s).bind (tracing_replace _ r) fun _ _ _ _ _ => (tracing s).pure hab
    | _ => exact (tracing s).throw (.fault (.unfit "lazy" .parser rfl))
  | parser r => exact hrun r u hu s i env env' henv
  | _ =>
    obtain rfl : env = env' := henv
    refine (tracing s).bind (tracing_tracedCall t _ _) ?_
    rintro _ v _ - rfl
    exact Pairing.holds_resultOf rfl

theorem hosts_tracedHost (hrun : ∀ r, (tracing s).LikeOn s (run r) (t.run r)) :
    (tracing s).Hosts () ((tracedHost t run).pinned s) ((host t).pinned s) where
  object := by
    rintro _ - r _ rfl
    exact hrun r
  deferred := by
    rintro _ - d _ rfl
    exact likeOn_tracedDeferred hrun d
  call := by
    rintro _ - f _ args args' rfl hargs
    rw [(List.forall₂_eq_eq_eq ▸ hargs : args = args')]
    exact tracing_tracedCall t f args'
  describe := by
    rintro _ - v _ rfl
    exact tracing_read fun w => v.describe w.names
  log := fun _ _ _ _ => (tracing s).pure trivial
  times hs _ _ := Pairing.like_times_of_eq rfl hs

end

/-- A run that notes attempts does what the plain run does, and the log follows the attempts. -/
theorem follows_tools (apply : Tools φ → φ → List (Value φ) → Machine φ (Value φ))
    (budget depth : Nat) (r : Ref) :
    (tracing s).LikeOn s (tracedRun apply budget depth r) ((tools apply budget depth).run r) := by
  induction depth generalizing r with
  | zero => exact fun _ _ _ _ _ _ _ => (tracing s).throw .exhausted
  | succ depth ih =>
    intro u hu _ i env env' henv
    refine (tracing s).bind (tracing_read (·.cell r)) ?_
    rintro _ c _ - rfl
    exact Pairing.likeOn_denoteNoting (hosts_tracedHost ih) (noting_tracedAttempt _ _) c.behaviour
      u hu s i env env' henv

end Machine

end Furthest
