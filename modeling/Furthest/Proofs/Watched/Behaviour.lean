import Furthest.Proofs.Returns
import Furthest.Proofs.Watched.Event

/-!
# What watched behaviours tell

A watched behaviour tells what happens (`Behaviour.Tells`) if the report of its result is that of
the failures noted during the attempt, as long as no parser was tried that words its report by
itself; where `native` holds, none is tried at all.  Every combinator keeps this, because it joins
the report of each step it takes to those before, the newest first, and that is how the reports of
successive failures go together (`Report.ofFailures_append`).
-/

namespace Furthest

variable {φ σ : Type}

/-! ## Computations that note events -/

section

variable {ε α β : Type}

/-- Whenever `x` returns from the state `w` after the events `es`, its value, the events noted by
then and the new state satisfy `Q`. -/
def Notes (x : Watched (EStateM ε σ) α) (es : List Event) (w : σ)
    (Q : α → List Event → σ → Prop) : Prop :=
  Returns (x.run es) w fun p w' => Q p.1 p.2 w'

theorem notes_pure {a : α} {es : List Event} {w : σ} {Q : α → List Event → σ → Prop}
    (h : Q a es w) : Notes (pure a : Watched (EStateM ε σ) α) es w Q :=
  returns_pure h

theorem notes_throw {e : ε} {es : List Event} {w : σ} {Q : α → List Event → σ → Prop} :
    Notes (throw e : Watched (EStateM ε σ) α) es w Q := by
  rintro _ _ ⟨⟩

theorem notes_note {event : Event} {es : List Event} {w : σ} {Q : PUnit → List Event → σ → Prop}
    (h : Q ⟨⟩ (es ++ [event]) w) :
    Notes (Watched.note event : Watched (EStateM ε σ) PUnit) es w Q := by
  rintro _ _ ⟨⟩
  exact h

theorem Notes.bind {x : Watched (EStateM ε σ) α} {f : α → Watched (EStateM ε σ) β}
    {es : List Event} {w : σ} {Q : α → List Event → σ → Prop} {R : β → List Event → σ → Prop}
    (hx : Notes x es w Q) (hf : ∀ a es' w', Q a es' w' → Notes (f a) es' w' R) :
    Notes (x >>= f) es w R :=
  Returns.bind hx fun p w' hp => hf p.1 p.2 w' hp

theorem Notes.mono {x : Watched (EStateM ε σ) α} {es : List Event} {w : σ}
    {Q Q' : α → List Event → σ → Prop} (h : Notes x es w Q)
    (hQ : ∀ a es' w', Q a es' w' → Q' a es' w') : Notes x es w Q' :=
  Returns.mono h fun p w' hp => hQ p.1 p.2 w' hp

/-- A computation that is not watched notes nothing. -/
theorem notes_lift {x : EStateM ε σ α} {es : List Event} {w : σ} {Q : α → σ → Prop}
    (h : Returns x w Q) :
    Notes (x : Watched (EStateM ε σ) α) es w fun a es' w' => es' = es ∧ Q a w' :=
  h.bind fun _ _ ha => returns_pure ⟨rfl, ha⟩

end

/-! ## What is told -/

/-- A report tells the failures among events, unless a parser was tried that words its report by
itself; if `native`, none was. -/
structure Told (native : Prop) (events : List Event) (report : Report) : Prop where
  not_foreign : native → Event.foreign ∉ events
  report_eq : Event.foreign ∉ events → report = .ofFailures (Event.failures events)

namespace Told

variable {native : Prop} {es es' : List Event} {r r' : Report}

theorem nil : Told native [] .silent := ⟨fun _ => List.not_mem_nil, fun _ => rfl⟩

theorem failure (f : Failure) : Told native [.failure f] (.single f.offset f.label) :=
  ⟨fun _ => by simp, fun _ => (Report.ofFailures_single f).symm⟩

/-- Where foreign parsers may be tried, nothing is told once one was. -/
theorem foreign (h : ¬native) (es : List Event) (r : Report) : Told native (.foreign :: es) r :=
  ⟨fun hn => absurd hn h, fun hf => absurd List.mem_cons_self hf⟩

/-- The report of what happened later is joined to that of what happened before. -/
theorem append (h : Told native es r) (h' : Told native es' r') :
    Told native (es ++ es') (r'.join r) := by
  refine ⟨fun hn => ?_, fun hf => ?_⟩
  · rw [List.mem_append, not_or]
    exact ⟨h.not_foreign hn, h'.not_foreign hn⟩
  · rw [List.mem_append, not_or] at hf
    rw [Event.failures_append, Report.ofFailures_append, h.report_eq hf.1, h'.report_eq hf.2]

/-- Joining the report of nothing changes nothing. -/
theorem silent_append (h : Told native es .silent) (h' : Told native es' r') :
    Told native (es ++ es') r' := by
  refine ⟨(h.append h').not_foreign, fun hf => ?_⟩
  have hjoin := (h.append h').report_eq hf
  have hr := h'.report_eq fun hmem => hf (List.mem_append_right _ hmem)
  rw [← hjoin, hr, Report.join_silent (Report.neg_one_le_ofFailures _)]

end Told

/-- The report of the best result so far. -/
def Result.bestReport : Option (Result (Value φ)) → Report
  | none => .silent
  | some best => best.toReport

theorem Told.mergeWith {native : Prop} {es es' : List Event} {best : Option (Result (Value φ))}
    {r : Result (Value φ)} (hb : Told native es (Result.bestReport best))
    (hr : Told native es' r.toReport) : Told native (es ++ es') (r.mergeWith best).toReport := by
  cases best with
  | none => exact hb.silent_append hr
  | some b => exact hb.append hr

namespace Behaviour

/-- The state keeps `I`, and the report tells what was noted. -/
def Tells (I : σ → Prop) (native : Prop) (p : Behaviour (Watched (EStateM (Halt φ) σ)) φ) : Prop :=
  ∀ (s : Input) (i : Nat) (env : Value φ) (es : List Event) (w : σ), I w →
    Notes (p s i env) es w fun r es' w' =>
      I w' ∧ ∃ new, es' = es ++ new ∧ Told native new r.toReport

/-- The state keeps `I`, and events are only added. -/
def Adds (I : σ → Prop) (p : Behaviour (Watched (EStateM (Halt φ) σ)) φ) : Prop :=
  ∀ (s : Input) (i : Nat) (env : Value φ) (es : List Event) (w : σ), I w →
    Notes (p s i env) es w fun _ es' w' => I w' ∧ ∃ new, es' = es ++ new

/-- A computation that keeps `I` and notes nothing. -/
def Silent {α : Type} (I : σ → Prop) (x : Watched (EStateM (Halt φ) σ) α) : Prop :=
  ∀ es w, I w → Notes x es w fun _ es' w' => I w' ∧ es' = es

/-- A computation that keeps `I`, notes nothing and comes to a behaviour that tells. -/
def ChoosesTelling (I : σ → Prop) (native : Prop)
    (x : Watched (EStateM (Halt φ) σ) (Behaviour (Watched (EStateM (Halt φ) σ)) φ)) : Prop :=
  ∀ es w, I w → Notes x es w fun p es' w' => I w' ∧ es' = es ∧ Tells I native p

/-- Going on with a loop that has noted `told` tells what is noted in the whole loop. -/
def TellsOn (I : σ → Prop) (native : Prop)
    (next : Repeat (Watched (EStateM (Halt φ) σ)) φ) : Prop :=
  ∀ i values best es told w, I w → Told native told (Result.bestReport best) →
    Notes (next i values best) (es ++ told) w fun r es' w' =>
      I w' ∧ ∃ new, es' = es ++ new ∧ Told native new r.toReport

variable {I : σ → Prop} {native : Prop}

theorem Tells.adds {p : Behaviour (Watched (EStateM (Halt φ) σ)) φ} (h : Tells I native p) :
    Adds I p :=
  fun s i env es w hw => (h s i env es w hw).mono fun _ _ _ ⟨hw', new, hes, _⟩ => ⟨hw', new, hes⟩

/-- A parser without parts that never fails. -/
theorem tells_success {f : Input → Nat → Result (Value φ)}
    (h : ∀ s i, (f s i).toReport = .silent) :
    Tells I native (leaf (m := Watched (EStateM (Halt φ) σ)) f) :=
  fun s i _ es _ hw => notes_pure ⟨hw, [], by simp, h s i ▸ Told.nil⟩

/-- A behaviour that notes nothing, and where it fails reports one label at one place. -/
def FailsAt (I : σ → Prop) (label : String) (place : Input → Nat → Nat)
    (p : Behaviour (Watched (EStateM (Halt φ) σ)) φ) : Prop :=
  ∀ (s : Input) (i : Nat) (env : Value φ) (es : List Event) (w : σ), I w →
    Notes (p s i env) es w fun r es' w' =>
      I w' ∧ es' = es ∧ r.toReport = if r.status then .silent else .single (place s i) label

theorem tells_leaf {label : String} {place : Input → Nat → Nat}
    {p : Behaviour (Watched (EStateM (Halt φ) σ)) φ} (h : FailsAt I label place p) :
    Tells I native (Watched.observer.leaf label place p) := by
  intro s i env es w hw
  refine (h s i env es w hw).bind ?_
  rintro r es w' ⟨hw', rfl, hr⟩
  cases hs : r.status with
  | true =>
    rw [hs, if_pos rfl] at hr
    exact notes_pure ⟨hw', [], by simp, hr ▸ Told.nil⟩
  | false =>
    rw [hs, if_neg Bool.noConfusion] at hr
    have hnew : Told native [.failure ⟨label, place s i⟩] r.toReport := hr ▸ Told.failure _
    refine (notes_note (Q := fun _ es' w'' => I w'' ∧ ∃ new, es' = es ++ new ∧
      Told native new r.toReport) ⟨hw', _, rfl, hnew⟩).bind ?_
    rintro _ _ w'' h
    exact notes_pure h

theorem tells_foreign {p : Behaviour (Watched (EStateM (Halt φ) σ)) φ} (h : ¬native)
    (hp : Adds I p) : Tells I native (Watched.observer.foreign p) := by
  intro s i env es w hw
  refine (notes_note (Q := fun _ es' w' => es' = es ++ [.foreign] ∧ I w') ⟨rfl, hw⟩).bind ?_
  rintro _ _ w' ⟨rfl, hw'⟩
  refine (hp s i env _ w' hw').mono ?_
  rintro r _ w'' ⟨hw'', new, rfl⟩
  exact ⟨hw'', .foreign :: new, by simp, Told.foreign h new _⟩

theorem failsAt_leaf {label : String} {place : Input → Nat → Nat}
    {f : Input → Nat → Result (Value φ)}
    (h : ∀ s i, (f s i).toReport = if (f s i).status then .silent else .single (place s i) label) :
    FailsAt I label place (leaf (m := Watched (EStateM (Halt φ) σ)) f) :=
  fun s i _ _ _ hw => notes_pure ⟨hw, rfl, h s i⟩

/-! ## Sequences and alternatives -/

section

variable {p : Behaviour (Watched (EStateM (Halt φ) σ)) φ}
  {ps : List (Behaviour (Watched (EStateM (Halt φ) σ)) φ)}

theorem tellsOn_finish : TellsOn I native (finish (m := Watched (EStateM (Halt φ) σ))) := by
  intro i values best es told w hw ht
  have hend := ht.mergeWith (r := Result.success i (.list values.toList)) Told.nil
  exact notes_pure ⟨hw, told ++ [], by simp, hend⟩

theorem tellsOn_seqFrom (s : Input) (env : Value φ) (hps : ∀ p ∈ ps, Tells I native p) :
    TellsOn I native (seqFrom s env ps) := by
  induction ps with
  | nil => exact tellsOn_finish
  | cons p ps ih =>
    intro i values best es told w hw ht
    refine (hps p (by simp) s i env _ w hw).bind ?_
    rintro r _ w' ⟨hw', new, rfl, hr⟩
    have hm := ht.mergeWith hr
    dsimp only
    rw [List.append_assoc]
    split
    · exact ih (fun q hq => hps q (by simp [hq])) _ _ _ es _ w' hw' hm
    · exact notes_pure ⟨hw', _, rfl, hm⟩

theorem tells_of_tellsOn {next : Input → Value φ → Repeat (Watched (EStateM (Halt φ) σ)) φ}
    (h : ∀ s env, TellsOn I native (next s env)) :
    Tells I native fun s i env => next s env i #[] none := by
  intro s i env es w hw
  have hnext := h s env i #[] none es [] w hw Told.nil
  rwa [List.append_nil] at hnext

theorem tells_seq (hps : ∀ p ∈ ps, Tells I native p) : Tells I native (seq ps) :=
  tells_of_tellsOn fun s env => tellsOn_seqFrom s env hps

theorem tells_altFrom (s : Input) (i : Nat) (env : Value φ) (hps : ∀ p ∈ ps, Tells I native p)
    {best : Result (Value φ)} (es : List Event) {told : List Event}
    (hb : Told native told best.toReport) {w : σ} (hw : I w) :
    Notes (altFrom s i env ps best) (es ++ told) w fun r es' w' =>
      I w' ∧ ∃ new, es' = es ++ new ∧ Told native new r.toReport := by
  induction ps generalizing best told w with
  | nil => exact notes_pure ⟨hw, told, rfl, hb⟩
  | cons p ps ih =>
    refine (hps p (by simp) s i env _ w hw).bind ?_
    rintro r _ w' ⟨hw', new, rfl, hr⟩
    have hm : Told native (told ++ new) (r.merge best).toReport := hb.append hr
    dsimp only
    rw [List.append_assoc]
    split
    · exact notes_pure ⟨hw', _, rfl, hm⟩
    · exact ih (fun q hq => hps q (by simp [hq])) hm hw'

theorem tells_alt (hp : Tells I native p) (hps : ∀ p ∈ ps, Tells I native p) :
    Tells I native (alt p ps) := by
  intro s i env es w hw
  refine (hp s i env es w hw).bind ?_
  rintro r _ w' ⟨hw', new, rfl, hr⟩
  split
  · exact notes_pure ⟨hw', new, rfl, hr⟩
  · exact tells_altFrom s i env hps es hr hw'

/-! ## Repetition -/

theorem tellsOn_mandatory (s : Input) (env : Value φ) (hp : Tells I native p)
    {next : Repeat (Watched (EStateM (Halt φ) σ)) φ} (hn : TellsOn I native next) (n : Nat) :
    TellsOn I native (mandatory p s env next n) := by
  induction n with
  | zero => exact hn
  | succ n ih =>
    intro i values best es told w hw ht
    refine (hp s i env _ w hw).bind ?_
    rintro r _ w' ⟨hw', new, rfl, hr⟩
    have hm := ht.mergeWith hr
    dsimp only
    rw [List.append_assoc]
    split
    · exact ih _ _ _ es _ w' hw' hm
    · exact notes_pure ⟨hw', _, rfl, hm⟩

theorem tellsOn_spent : TellsOn I native (spent (m := Watched (EStateM (Halt φ) σ)) (φ := φ)) :=
  fun _ _ _ _ _ _ _ _ => notes_throw

theorem tellsOn_optional (max : Limit) (s : Input) (env : Value φ) (hp : Tells I native p)
    {next : Repeat (Watched (EStateM (Halt φ) σ)) φ} (hn : TellsOn I native next) (n : Nat) :
    TellsOn I native (optional p max s env next n) := by
  induction n with
  | zero => exact hn
  | succ n ih =>
    intro i values best es told w hw ht
    refine (hp s i env _ w hw).bind ?_
    rintro r _ w' ⟨hw', new, rfl, hr⟩
    have hm := ht.mergeWith hr
    -- the report of the attempt that ends the loop is kept as well
    have hend : ∀ values : Array (Value φ), _ := fun values =>
      tellsOn_finish i values (some (r.mergeWith best)) es _ w' hw' hm
    dsimp only
    rw [List.append_assoc]
    split
    · split
      · cases max with
        | infinite => exact hend _
        | finite bound =>
          dsimp only
          split
          · exact ih _ _ _ es _ w' hw' hm
          · exact notes_throw
      · exact ih _ _ _ es _ w' hw' hm
    · exact hend _

theorem tells_times (hp : Tells I native p) (min max : Limit) (budget : Nat) :
    Tells I native (times p min max budget) := by
  cases min with
  | infinite => exact tells_of_tellsOn fun s env => tellsOn_mandatory s env hp tellsOn_spent budget
  | finite least =>
    refine tells_of_tellsOn fun s env => ?_
    cases max with
    | infinite =>
      have h := tellsOn_optional .infinite s env hp tellsOn_spent budget
      exact tellsOn_mandatory s env hp h least
    | finite most =>
      have h := tellsOn_optional (.finite most) s env hp tellsOn_finish (most - least)
      exact tellsOn_mandatory s env hp h least

/-! ## Values and continuations -/

theorem tells_mapEnv (hp : Tells I native p)
    {f : Value φ → Value φ → Watched (EStateM (Halt φ) σ) (Value φ)}
    (hf : ∀ v env, Silent I (f v env)) : Tells I native (mapEnv p f) := by
  intro s i env es w hw
  refine (hp s i env es w hw).bind ?_
  rintro r _ w' ⟨hw', new, rfl, hr⟩
  split
  · refine (hf r.value env _ w' hw').bind ?_
    rintro v _ w'' ⟨hw'', rfl⟩
    have hm : Told native (new ++ []) ((Result.success r.index v).merge r).toReport :=
      hr.append Told.nil
    exact notes_pure ⟨hw'', new ++ [], by simp, hm⟩
  · exact notes_pure ⟨hw', new, rfl, hr⟩

theorem tells_chainEnv (hp : Tells I native p)
    {f : Value φ → Value φ →
      Watched (EStateM (Halt φ) σ) (Behaviour (Watched (EStateM (Halt φ) σ)) φ)}
    (hf : ∀ v env, ChoosesTelling I native (f v env)) : Tells I native (chainEnv p f) := by
  intro s i env es w hw
  refine (hp s i env es w hw).bind ?_
  rintro r _ w' ⟨hw', new, rfl, hr⟩
  split
  · refine (hf r.value env _ w' hw').bind ?_
    rintro next _ w'' ⟨hw'', rfl, hnext⟩
    refine (hnext s r.index env _ w'' hw'').bind ?_
    rintro r' _ w₃ ⟨hw₃, new', rfl, hr'⟩
    exact notes_pure ⟨hw₃, new ++ new', by simp, hr.append hr'⟩
  · exact notes_pure ⟨hw', new, rfl, hr⟩

theorem tells_lookAhead (hp : Tells I native p) : Tells I native (lookAhead p) := by
  intro s i env es w hw
  refine (hp s i env es w hw).bind ?_
  rintro r _ w' ⟨hw', new, rfl, hr⟩
  split
  · exact notes_pure ⟨hw', new, rfl, hr⟩
  · exact notes_pure ⟨hw', new, rfl, hr⟩

/-! ## Environments and the log -/

theorem tells_subEnv (hp : Tells I native p)
    {derive : Value φ → Watched (EStateM (Halt φ) σ) (Value φ)}
    (hd : ∀ env, Silent I (derive env)) : Tells I native (subEnv p derive) := by
  intro s i env es w hw
  refine (hd env es w hw).bind ?_
  rintro env' _ w' ⟨hw', rfl⟩
  exact hp s i env' _ w' hw'

theorem tells_fromEnv
    {lookup : Value φ →
      Watched (EStateM (Halt φ) σ) (Behaviour (Watched (EStateM (Halt φ) σ)) φ)}
    (hl : ∀ env, ChoosesTelling I native (lookup env)) : Tells I native (fromEnv lookup) := by
  intro s i env es w hw
  refine (hl env es w hw).bind ?_
  rintro p _ w' ⟨hw', rfl, hp⟩
  exact hp s i env _ w' hw'

theorem tells_trace (hp : Tells I native p) (label : Value φ)
    {log : LogEntry φ → Watched (EStateM (Halt φ) σ) PUnit} (hl : ∀ entry, Silent I (log entry)) :
    Tells I native (trace p label log) := by
  intro s i env es w hw
  refine (hl _ es w hw).bind ?_
  rintro _ es w' ⟨hw', rfl⟩
  refine (hp s i env _ w' hw').bind ?_
  rintro r _ w'' ⟨hw'', new, rfl, hr⟩
  have last : ∀ entry, Notes (log entry >>= fun _ => pure r) (es ++ new) w'' fun r es' w₃ =>
      I w₃ ∧ ∃ new, es' = es ++ new ∧ Told native new r.toReport := by
    refine fun entry => (hl entry _ w'' hw'').bind ?_
    rintro _ _ w₃ ⟨hw₃, rfl⟩
    exact notes_pure ⟨hw₃, new, rfl, hr⟩
  dsimp only
  split
  · exact last _
  · exact last _

/-! ## Characters and patterns -/

theorem failsAt_satisfy {test : Char → Value φ → Watched (EStateM (Halt φ) σ) Bool}
    (ht : ∀ c env, Silent I (test c env)) (label : String) :
    FailsAt I label Watcher.start (satisfy test label) := by
  intro s i env es w hw
  unfold satisfy
  split
  · rename_i c _
    refine (ht c env es w hw).bind ?_
    rintro b _ w' ⟨hw', rfl⟩
    split
    · exact notes_pure ⟨hw', rfl, rfl⟩
    · exact notes_pure ⟨hw', rfl, rfl⟩
  · exact notes_pure ⟨hw, rfl, rfl⟩

theorem silent_runOf {test : Char → Watched (EStateM (Halt φ) σ) Bool}
    (ht : ∀ c, Silent I (test c)) (cs : List Char) : Silent I (runOf test cs) := by
  induction cs with
  | nil => exact fun es w hw => notes_pure ⟨hw, rfl⟩
  | cons c cs ih =>
    intro es w hw
    refine (ht c es w hw).bind ?_
    rintro b _ w' ⟨hw', rfl⟩
    split
    · refine (ih _ w' hw').bind ?_
      rintro run _ w'' ⟨hw'', rfl⟩
      exact notes_pure ⟨hw'', rfl⟩
    · exact notes_pure ⟨hw', rfl⟩

theorem tells_takeWhile {test : Char → Watched (EStateM (Halt φ) σ) Bool}
    (ht : ∀ c, Silent I (test c)) : Tells I native (takeWhile (φ := φ) test) := by
  intro s i env es w hw
  refine (silent_runOf ht _ es w hw).bind ?_
  rintro run _ w' ⟨hw', rfl⟩
  exact notes_pure ⟨hw', [], by simp, Told.nil⟩

theorem failsAt_regex (pattern : Pattern) (group : GroupName) (label : String) :
    FailsAt I label Watcher.start
      (regex (m := Watched (EStateM (Halt φ) σ)) pattern group label) := by
  intro s i env es w hw
  unfold regex
  split
  · exact notes_pure ⟨hw, rfl, rfl⟩
  · split
    · exact notes_throw
    · exact notes_pure ⟨hw, rfl, rfl⟩

/-! ## Parsers that word their report by themselves -/

theorem adds_relabel (hp : Adds I p) (label : String) : Adds I (relabel p label) := by
  intro s i env es w hw
  refine (hp s i env es w hw).bind ?_
  rintro r _ w' ⟨hw', new, rfl⟩
  split
  · exact notes_pure ⟨hw', new, rfl⟩
  · exact notes_pure ⟨hw', new, rfl⟩

theorem adds_except {allowed forbidden : Behaviour (Watched (EStateM (Halt φ) σ)) φ}
    (ha : Adds I allowed) (hf : Adds I forbidden)
    {describe : Value φ → Watched (EStateM (Halt φ) σ) String} (hd : ∀ v, Silent I (describe v)) :
    Adds I (except allowed forbidden describe) := by
  intro s i env es w hw
  refine (hf s i env es w hw).bind ?_
  rintro unwanted _ w' ⟨hw', new, rfl⟩
  split
  · refine (hd unwanted.value _ w' hw').bind ?_
    rintro text _ w'' ⟨hw'', rfl⟩
    exact notes_pure ⟨hw'', new, rfl⟩
  · refine (ha s i env _ w' hw').bind ?_
    rintro r _ w'' ⟨hw'', new', rfl⟩
    split
    · exact notes_pure ⟨hw'', new ++ new', by simp⟩
    · exact notes_pure ⟨hw'', new ++ new', by simp⟩

end

end Behaviour

end Furthest
