import Furthest.Parser.Behaviour
import Furthest.Proofs.Returns
import Furthest.Proofs.WellFormed.Pattern
import Furthest.Proofs.WellFormed.Result

/-!
# Well-formed behaviours

A behaviour is well-formed under an invariant `I` of the state (`Behaviour.WellFormed`) if, from
every state with `I`, an attempt inside the text that returns gives a well-formed result and a state
with `I`.  There is one theorem for each way to combine behaviours, and each takes well-formed parts
to a well-formed whole.

A loop is followed by what it carries: the offset it has reached and the best result so far, whose
report fits the text from where the whole attempt started (`Behaviour.Carries`).
-/

namespace Furthest.Behaviour

variable {φ σ : Type}

/-- From states with `I`, attempts inside the text give well-formed results and keep `I`. -/
def WellFormed (I : σ → Prop) (p : Behaviour (EStateM (Halt φ) σ) φ) : Prop :=
  ∀ (s : Input) (i : Nat) (env : Value φ) (w : σ), i ≤ s.length → I w →
    Returns (p s i env) w fun r w' => I w' ∧ r.WellFormed i s.length

/-- A computation that keeps `I`. -/
def Keeps {α : Type} (I : σ → Prop) (x : EStateM (Halt φ) σ α) : Prop :=
  ∀ w, I w → Returns x w fun _ w' => I w'

/-- A computation that keeps `I` and comes to a well-formed behaviour. -/
def Chooses (I : σ → Prop) (x : EStateM (Halt φ) σ (Behaviour (EStateM (Halt φ) σ) φ)) : Prop :=
  ∀ w, I w → Returns x w fun p w' => I w' ∧ WellFormed I p

/-- What a loop that started at `i` carries: an offset between `i` and the end, and a best result
whose report fits. -/
structure Carries (s : Input) (i j : Nat) (best : Option (Result (Value φ))) : Prop where
  le_offset : i ≤ j
  offset_le : j ≤ s.length
  fits : ∀ b ∈ best, b.toReport.Fits i s.length

/-- Going on from what a loop that started at `i` carries gives a well-formed result. -/
def Continues (I : σ → Prop) (s : Input) (i : Nat)
    (next : Repeat (EStateM (Halt φ) σ) φ) : Prop :=
  ∀ j values best w, Carries s i j best → I w →
    Returns (next j values best) w fun r w' => I w' ∧ r.WellFormed i s.length

variable {I : σ → Prop} {s : Input} {i j : Nat} {best : Option (Result (Value φ))}

theorem carries_start (hi : i ≤ s.length) : Carries (φ := φ) s i i none :=
  ⟨le_refl i, hi, nofun⟩

theorem Carries.merged (h : Carries s i j best) {r : Result (Value φ)}
    (hr : r.WellFormed j s.length) : (r.mergeWith best).WellFormed i s.length :=
  hr.mergeWith h.le_offset h.fits

/-- A loop goes on from the merged result of its latest step. -/
theorem Carries.next (h : Carries s i j best) {r : Result (Value φ)}
    (hr : r.WellFormed j s.length) :
    Carries s i (r.mergeWith best).index (some (r.mergeWith best)) := by
  have hm := h.merged hr
  refine ⟨hm.le_index, hm.index_le, ?_⟩
  rintro b ⟨⟩
  exact hm.fits

theorem Carries.finish (h : Carries s i j best) (values : Array (Value φ)) :
    ((Result.success j (.list values.toList)).mergeWith best).WellFormed i s.length :=
  h.merged (Result.wellFormed_success _ (le_refl j) h.offset_le)

theorem wellFormed_leaf {f : Input → Nat → Result (Value φ)}
    (h : ∀ s i, i ≤ s.length → (f s i).WellFormed i s.length) :
    WellFormed I (leaf (m := EStateM (Halt φ) σ) f) :=
  fun s i _ _ hi hw => returns_pure ⟨hw, h s i hi⟩

/-! ## Sequences and alternatives -/

section

variable {p : Behaviour (EStateM (Halt φ) σ) φ} {ps : List (Behaviour (EStateM (Halt φ) σ) φ)}

theorem continues_finish : Continues I s i (finish (m := EStateM (Halt φ) σ)) :=
  fun _ values _ _ h hw => returns_pure ⟨hw, h.finish values⟩

theorem continues_seqFrom (env : Value φ) (hps : ∀ p ∈ ps, WellFormed I p) :
    Continues I s i (seqFrom s env ps) := by
  induction ps with
  | nil => exact continues_finish
  | cons p ps ih =>
    intro j values best w h hw
    refine (hps p (by simp) s j env w h.offset_le hw).bind fun r w' ⟨hw', hr⟩ => ?_
    dsimp only
    split
    · exact ih (fun q hq => hps q (by simp [hq])) _ _ _ w' (h.next hr) hw'
    · exact returns_pure ⟨hw', h.merged hr⟩

theorem wellFormed_seq (hps : ∀ p ∈ ps, WellFormed I p) : WellFormed I (seq ps) :=
  fun _ i env w hi hw => continues_seqFrom env hps i #[] none w (carries_start hi) hw

theorem wellFormed_altFrom (env : Value φ) (hi : i ≤ s.length) (hps : ∀ p ∈ ps, WellFormed I p)
    {best : Result (Value φ)} (hb : best.WellFormed i s.length) {w : σ} (hw : I w) :
    Returns (altFrom s i env ps best) w fun r w' => I w' ∧ r.WellFormed i s.length := by
  induction ps generalizing best w with
  | nil => exact returns_pure ⟨hw, hb⟩
  | cons p ps ih =>
    refine (hps p (by simp) s i env w hi hw).bind fun r w' ⟨hw', hr⟩ => ?_
    have hm := hr.merge (le_refl i) hb.fits
    dsimp only
    split
    · exact returns_pure ⟨hw', hm⟩
    · exact ih (fun q hq => hps q (by simp [hq])) hm hw'

theorem wellFormed_alt (hp : WellFormed I p) (hps : ∀ p ∈ ps, WellFormed I p) :
    WellFormed I (alt p ps) := by
  intro s i env w hi hw
  refine (hp s i env w hi hw).bind fun r w' ⟨hw', hr⟩ => ?_
  split
  · exact returns_pure ⟨hw', hr⟩
  · exact wellFormed_altFrom env hi hps hr hw'

/-! ## Repetition -/

theorem continues_mandatory (env : Value φ) (hp : WellFormed I p)
    {next : Repeat (EStateM (Halt φ) σ) φ} (hn : Continues I s i next) (n : Nat) :
    Continues I s i (mandatory p s env next n) := by
  induction n with
  | zero => exact hn
  | succ n ih =>
    intro j values best w h hw
    refine (hp s j env w h.offset_le hw).bind fun r w' ⟨hw', hr⟩ => ?_
    dsimp only
    split
    · exact ih _ _ _ w' (h.next hr) hw'
    · exact returns_pure ⟨hw', h.merged hr⟩

theorem continues_spent : Continues I s i (spent (m := EStateM (Halt φ) σ)) :=
  fun _ _ _ _ _ _ => returns_throw

theorem continues_optional (env : Value φ) (hp : WellFormed I p) (max : Limit)
    {next : Repeat (EStateM (Halt φ) σ) φ} (hn : Continues I s i next) (n : Nat) :
    Continues I s i (optional p max s env next n) := by
  induction n with
  | zero => exact hn
  | succ n ih =>
    intro j values best w h hw
    refine (hp s j env w h.offset_le hw).bind fun r w' ⟨hw', hr⟩ => ?_
    have hm := h.next hr
    dsimp only
    split
    · split
      · rename_i hstay
        -- nothing was consumed, so the loop is where it was
        have hj : Carries s i j (some (r.mergeWith best)) :=
          ⟨h.le_offset, h.offset_le, hm.fits⟩
        split
        · exact continues_finish j _ _ w' hj hw'
        · split
          · exact ih _ _ _ w' hm hw'
          · exact returns_throw
      · exact ih _ _ _ w' hm hw'
    · refine continues_finish j _ _ w' ⟨h.le_offset, h.offset_le, hm.fits⟩ hw'

theorem wellFormed_times (hp : WellFormed I p) (min max : Limit) (budget : Nat) :
    WellFormed I (times p min max budget) := by
  intro s i env w hi hw
  have start := carries_start (φ := φ) hi
  cases min with
  | infinite => exact continues_mandatory env hp continues_spent budget i #[] none w start hw
  | finite least =>
    cases max with
    | infinite =>
      have h := continues_optional (s := s) (i := i) env hp .infinite continues_spent budget
      exact continues_mandatory env hp h least i #[] none w start hw
    | finite most =>
      have h := continues_optional (s := s) (i := i) env hp (.finite most) continues_finish
        (most - least)
      exact continues_mandatory env hp h least i #[] none w start hw

/-! ## Values and continuations -/

theorem wellFormed_mapEnv (hp : WellFormed I p)
    {f : Value φ → Value φ → EStateM (Halt φ) σ (Value φ)} (hf : ∀ v env, Keeps I (f v env)) :
    WellFormed I (mapEnv p f) := by
  intro s i env w hi hw
  refine (hp s i env w hi hw).bind fun r w' ⟨hw', hr⟩ => ?_
  split
  · refine (hf r.value env w' hw').bind fun v w'' hw'' => returns_pure ⟨hw'', ?_⟩
    exact (Result.wellFormed_success v hr.le_index hr.index_le).merge (le_refl i) hr.fits
  · exact returns_pure ⟨hw', hr⟩

theorem wellFormed_chainEnv (hp : WellFormed I p)
    {f : Value φ → Value φ → EStateM (Halt φ) σ (Behaviour (EStateM (Halt φ) σ) φ)}
    (hf : ∀ v env, Chooses I (f v env)) : WellFormed I (chainEnv p f) := by
  intro s i env w hi hw
  refine (hp s i env w hi hw).bind fun r w' ⟨hw', hr⟩ => ?_
  split
  · refine (hf r.value env w' hw').bind fun next w'' ⟨hw'', hnext⟩ => ?_
    refine (hnext s r.index env w'' hr.index_le hw'').bind fun r' w₃ ⟨hw₃, hr'⟩ => ?_
    exact returns_pure ⟨hw₃, hr'.merge hr.le_index hr.fits⟩
  · exact returns_pure ⟨hw', hr⟩

theorem wellFormed_relabel (hp : WellFormed I p) (label : String) :
    WellFormed I (relabel p label) := by
  intro s i env w hi hw
  refine (hp s i env w hi hw).bind fun r w' ⟨hw', hr⟩ => ?_
  split
  · exact returns_pure ⟨hw', hr⟩
  · rename_i hs
    exact returns_pure ⟨hw', hr.relabel (by simpa using hs) label⟩

/-! ## Looking ahead -/

theorem wellFormed_except {allowed forbidden : Behaviour (EStateM (Halt φ) σ) φ}
    (ha : WellFormed I allowed) (hf : WellFormed I forbidden)
    {describe : Value φ → EStateM (Halt φ) σ String} (hd : ∀ v, Keeps I (describe v)) :
    WellFormed I (except allowed forbidden describe) := by
  intro s i env w hi hw
  refine (hf s i env w hi hw).bind fun unwanted w' ⟨hw', _⟩ => ?_
  split
  · refine (hd unwanted.value w' hw').bind fun text w'' hw'' => ?_
    exact returns_pure ⟨hw'', Result.wellFormed_failure _ hi⟩
  · refine (ha s i env w' hi hw').bind fun r w'' ⟨hw'', hr⟩ => ?_
    split
    · exact returns_pure ⟨hw'', hr⟩
    · exact returns_pure ⟨hw'', Result.wellFormed_failure _ hi⟩

theorem wellFormed_lookAhead (hp : WellFormed I p) : WellFormed I (lookAhead p) := by
  intro s i env w hi hw
  refine (hp s i env w hi hw).bind fun r w' ⟨hw', hr⟩ => ?_
  split
  · rename_i hs
    exact returns_pure ⟨hw', hr.rewind hi hs⟩
  · exact returns_pure ⟨hw', hr⟩

/-! ## Environments and the log -/

theorem wellFormed_subEnv (hp : WellFormed I p)
    {derive : Value φ → EStateM (Halt φ) σ (Value φ)} (hd : ∀ env, Keeps I (derive env)) :
    WellFormed I (subEnv p derive) :=
  fun s i env w hi hw => (hd env w hw).bind fun env' w' hw' => hp s i env' w' hi hw'

theorem wellFormed_fromEnv
    {lookup : Value φ → EStateM (Halt φ) σ (Behaviour (EStateM (Halt φ) σ) φ)}
    (hl : ∀ env, Chooses I (lookup env)) : WellFormed I (fromEnv lookup) :=
  fun s i env w hi hw => (hl env w hw).bind fun _ w' ⟨hw', hp⟩ => hp s i env w' hi hw'

theorem wellFormed_trace (hp : WellFormed I p) (label : Value φ)
    {log : LogEntry φ → EStateM (Halt φ) σ PUnit} (hl : ∀ entry, Keeps I (log entry)) :
    WellFormed I (trace p label log) := by
  intro s i env w hi hw
  refine (hl _ w hw).bind fun _ w' hw' => (hp s i env w' hi hw').bind fun r w'' ⟨hw'', hr⟩ => ?_
  have last : ∀ entry, Returns (log entry >>= fun _ => pure r) w''
      fun r w₃ => I w₃ ∧ r.WellFormed i s.length :=
    fun entry => (hl entry w'' hw'').bind fun _ w₃ hw₃ => returns_pure ⟨hw₃, hr⟩
  split
  · exact last _
  · exact last _

/-! ## Characters and patterns -/

theorem wellFormed_satisfy {test : Char → Value φ → EStateM (Halt φ) σ Bool}
    (ht : ∀ c env, Keeps I (test c env)) (label : String) : WellFormed I (satisfy test label) := by
  intro s i env w hi hw
  unfold satisfy
  split
  · rename_i c hc
    have hlt : i < s.length := (List.getElem?_eq_some_iff.1 hc).1
    refine (ht c env w hw).bind fun b w' hw' => ?_
    split
    · exact returns_pure ⟨hw', Result.wellFormed_success _ (Nat.le_succ i) hlt⟩
    · exact returns_pure ⟨hw', Result.wellFormed_failure label hi⟩
  · exact returns_pure ⟨hw, Result.wellFormed_failure label hi⟩

theorem returns_runOf {test : Char → EStateM (Halt φ) σ Bool} (ht : ∀ c, Keeps I (test c))
    (cs : List Char) {w : σ} (hw : I w) :
    Returns (runOf test cs) w fun run w' => I w' ∧ run.length ≤ cs.length := by
  induction cs generalizing w with
  | nil => exact returns_pure ⟨hw, le_refl _⟩
  | cons c cs ih =>
    refine (ht c w hw).bind fun b w' hw' => ?_
    split
    · refine (ih hw').bind fun run w'' ⟨hw'', hrun⟩ => returns_pure ⟨hw'', ?_⟩
      exact Nat.succ_le_succ hrun
    · exact returns_pure ⟨hw', Nat.zero_le _⟩

theorem wellFormed_takeWhile {test : Char → EStateM (Halt φ) σ Bool}
    (ht : ∀ c, Keeps I (test c)) : WellFormed I (takeWhile (φ := φ) test) := by
  intro s i env w hi hw
  refine (returns_runOf ht _ hw).bind fun run w' ⟨hw', hrun⟩ => returns_pure ⟨hw', ?_⟩
  rw [List.length_drop] at hrun
  exact Result.wellFormed_success _ (Nat.le_add_right _ _) (by omega)

theorem wellFormed_regex (pattern : Pattern) (group : GroupName) (label : String) :
    WellFormed I (regex (m := EStateM (Halt φ) σ) pattern group label) := by
  intro s i env w hi hw
  unfold regex
  split
  · exact returns_pure ⟨hw, Result.wellFormed_failure label hi⟩
  · rename_i found hfound
    obtain ⟨hle, hlen⟩ := Pattern.matchAt_extent hi hfound
    split
    · exact returns_throw
    · exact returns_pure ⟨hw, Result.wellFormed_success _ hle hlen⟩

end

end Furthest.Behaviour
