import Furthest.Parser.Behaviour
import Furthest.Proofs.Returns
import Furthest.Proofs.WellFormed.Pattern

/-!
# Behaviours that do not fault

A `Setting` tells which faults are allowed for, which states can be reached from which, and at which
offsets attempts are made.  `Setting.Finishes` says of a computation in a state that it comes to a
reachable state and a value, or is stopped for going on too long, or has an allowed fault.  A
behaviour `Setting.Serves` an environment from a state on if its attempts finish at all the places,
and its matches end at such places.

There is one theorem for each way to combine behaviours.  What functions of values are applied to
is what the behaviour before them was seen to match with (`Setting.Gets`), so nothing is asked of
them on other values.  A repetition with a finite bound that is too large has to allow for the fault
that comes of it, or its part has to consume something whenever it matches.
-/

namespace Furthest

variable {φ σ α β : Type}

/-- The faults that are allowed for, the states that can be reached, and the places of attempts. -/
structure Setting (φ σ : Type) where
  allowed : Fault φ → Prop
  reach : σ → σ → Prop
  place : Input → Nat → Prop
  reach_refl (w : σ) : reach w w
  reach_trans {w w' w'' : σ} : reach w w' → reach w' w'' → reach w w''
  /-- Every offset of a text is a place. -/
  place_of_le {s : Input} {i : Nat} : i ≤ s.length → place s i

namespace Setting

variable (K : Setting φ σ)

/-- From the state `w`, a computation comes to a value with `Q`, or has an allowed fault, or is
stopped. -/
def Finishes (x : EStateM (Halt φ) σ α) (w : σ) (Q : α → σ → Prop) : Prop :=
  match x w with
  | .ok a w' => K.reach w w' ∧ Q a w'
  | .error (.fault cause) _ => K.allowed cause
  | .error .exhausted _ => True

/-- From the state `w` on, attempts in an environment finish, and matches end at places. -/
def Serves (p : Behaviour (EStateM (Halt φ) σ) φ) (env : Value φ) (w : σ) : Prop :=
  ∀ w', K.reach w w' → ∀ s i, K.place s i →
    K.Finishes (p s i env) w' fun r _ => r.status = true → K.place s r.index

/-- From the state `w` on, there is an attempt that matches with `r` and leads to `w'`. -/
def Gets (p : Behaviour (EStateM (Halt φ) σ) φ) (env : Value φ) (w : σ) (r : Result (Value φ))
    (w' : σ) : Prop :=
  ∃ w₁ s i, K.reach w w₁ ∧ K.place s i ∧ p s i env w₁ = .ok r w' ∧ r.status = true

/-- From the state `w` on, every match consumes something. -/
def Consumes (p : Behaviour (EStateM (Halt φ) σ) φ) (env : Value φ) (w : σ) : Prop :=
  ∀ w₁, K.reach w w₁ → ∀ s i, K.place s i → ∀ r w', p s i env w₁ = .ok r w' → r.status = true →
    r.index ≠ i

variable {K} {w w' : σ} {Q : α → σ → Prop}

/-! ## Rules -/

theorem finishes_pure {a : α} (h : Q a w) : K.Finishes (pure a) w Q := ⟨K.reach_refl w, h⟩

theorem finishes_stopped : K.Finishes (throw .exhausted : EStateM (Halt φ) σ α) w Q := trivial

theorem finishes_fault {cause : Fault φ} (h : K.allowed cause) :
    K.Finishes (throw (.fault cause) : EStateM (Halt φ) σ α) w Q := h

theorem finishes_ite {c : Prop} [Decidable c] {x y : EStateM (Halt φ) σ α}
    (hx : c → K.Finishes x w Q) (hy : ¬c → K.Finishes y w Q) :
    K.Finishes (if c then x else y) w Q := by
  split
  · next h => exact hx h
  · next h => exact hy h

namespace Finishes

variable {x : EStateM (Halt φ) σ α} {f : α → EStateM (Halt φ) σ β} {P : α → σ → Prop}
  {R : β → σ → Prop}

theorem mono (h : K.Finishes x w P) (hPQ : ∀ a w', x w = .ok a w' → P a w' → Q a w') :
    K.Finishes x w Q := by
  unfold Finishes at h ⊢
  cases hx : x w with
  | ok a w' =>
    rw [hx] at h
    exact ⟨h.1, hPQ a w' hx h.2⟩
  | error halt w' =>
    rw [hx] at h
    cases halt <;> exact h

/-- A computation that does the same as another one does from a state that can be reached. -/
theorem of_apply {y : EStateM (Halt φ) σ α} {w' : σ} (hxy : x w = y w') (hw : K.reach w w')
    (h : K.Finishes y w' P) : K.Finishes x w P := by
  unfold Finishes at h ⊢
  rw [hxy]
  cases hy : y w' with
  | ok a w'' =>
    rw [hy] at h
    exact ⟨K.reach_trans hw h.1, h.2⟩
  | error halt w'' =>
    rw [hy] at h
    cases halt <;> exact h

/-- One step after another; the second one may use how the first one ended. -/
theorem bind (hx : K.Finishes x w P)
    (hf : ∀ a w', x w = .ok a w' → K.reach w w' → P a w' → K.Finishes (f a) w' R) :
    K.Finishes (x >>= f) w R := by
  unfold Finishes at hx
  cases hw : x w with
  | ok a w' =>
    rw [hw] at hx
    have h := hf a w' hw hx.1 hx.2
    unfold Finishes at h ⊢
    rw [bind_apply, hw]
    dsimp only
    cases hfa : f a w' with
    | ok b w'' =>
      rw [hfa] at h
      exact ⟨K.reach_trans hx.1 h.1, h.2⟩
    | error halt w'' =>
      rw [hfa] at h
      cases halt <;> exact h
  | error halt w' =>
    rw [hw] at hx
    unfold Finishes
    rw [bind_apply, hw]
    cases halt <;> exact hx

end Finishes

theorem Serves.mono {p : Behaviour (EStateM (Halt φ) σ) φ} {env : Value φ} (h : K.Serves p env w)
    (hw : K.reach w w') : K.Serves p env w' :=
  fun w'' hw' => h w'' (K.reach_trans hw hw')

theorem Consumes.mono {p : Behaviour (EStateM (Halt φ) σ) φ} {env : Value φ}
    (h : K.Consumes p env w) (hw : K.reach w w') : K.Consumes p env w' :=
  fun w'' hw' => h w'' (K.reach_trans hw hw')

end Setting

theorem Pattern.matchAt_of_length_le (p : Pattern) {s : List Char} {i : Nat} (h : s.length ≤ i) :
    p.matchAt s i = p.matchAt s s.length := by
  simp [matchAt, Regex.Node.matchAt, Regex.Cursor.ofOffset, List.take_of_length_le h,
    List.drop_eq_nil_of_le h, Nat.min_eq_right h]

/-- A match ends in the text, wherever it was tried. -/
theorem Pattern.matchAt_stop_le {p : Pattern} {s : List Char} {i : Nat} {found : PatternMatch}
    (h : p.matchAt s i = some found) : found.stop ≤ s.length := by
  by_cases hi : i ≤ s.length
  · exact (matchAt_extent hi h).2
  · rw [p.matchAt_of_length_le (Nat.le_of_not_le hi)] at h
    exact (matchAt_extent (Nat.le_refl _) h).2

namespace Behaviour

open Setting

variable {K : Setting φ σ} {p q : Behaviour (EStateM (Halt φ) σ) φ}
  {ps : List (Behaviour (EStateM (Halt φ) σ) φ)} {env : Value φ} {s : Input} {i : Nat} {w : σ}

/-- The end of an attempt at the text `s`. -/
abbrev AtPlace (K : Setting φ σ) (s : Input) (r : Result (Value φ)) (_ : σ) : Prop :=
  r.status = true → K.place s r.index

theorem serves_leaf {f : Input → Nat → Result (Value φ)}
    (h : ∀ s i, K.place s i → (f s i).status = true → K.place s (f s i).index) :
    K.Serves (leaf f) env w :=
  fun _ _ s i hi => finishes_pure (h s i hi)

/-! ## Sequences and alternatives -/

theorem finishes_seqFrom (hps : ∀ p ∈ ps, K.Serves p env w) (hi : K.place s i)
    (values : Array (Value φ)) (best : Option (Result (Value φ))) :
    K.Finishes (seqFrom s env ps i values best) w (AtPlace K s) := by
  induction ps generalizing i values best w with
  | nil => exact finishes_pure fun _ => by rwa [Result.index_mergeWith]
  | cons p ps ih =>
    refine (hps p (by simp) w (K.reach_refl w) s i hi).bind fun r w' _ hw hr => ?_
    have hm : AtPlace K s (r.mergeWith best) w' := by simpa [AtPlace] using hr
    dsimp only
    split
    · next hs => exact ih (fun q hq => (hps q (by simp [hq])).mono hw) (hm hs) _ _
    · exact finishes_pure hm

theorem serves_seq (hps : ∀ p ∈ ps, K.Serves p env w) : K.Serves (seq ps) env w :=
  fun _ hw _ _ hi => finishes_seqFrom (fun p hp => (hps p hp).mono hw) hi #[] none

theorem finishes_altFrom (hps : ∀ p ∈ ps, K.Serves p env w) (hi : K.place s i)
    {best : Result (Value φ)} (hb : AtPlace K s best w) :
    K.Finishes (altFrom s i env ps best) w (AtPlace K s) := by
  induction ps generalizing best w with
  | nil => exact finishes_pure hb
  | cons p ps ih =>
    refine (hps p (by simp) w (K.reach_refl w) s i hi).bind fun r w' _ hw hr => ?_
    dsimp only
    split
    · exact finishes_pure hr
    · exact ih (fun q hq => (hps q (by simp [hq])).mono hw) hr

theorem serves_alt (hp : K.Serves p env w) (hps : ∀ p ∈ ps, K.Serves p env w) :
    K.Serves (alt p ps) env w := by
  intro w' hw s i hi
  refine (hp w' hw s i hi).bind fun r w'' _ hw' hr => ?_
  split
  · exact finishes_pure hr
  · exact finishes_altFrom (fun q hq => (hps q hq).mono (K.reach_trans hw hw')) hi hr

/-! ## Repetition -/

/-- From the state `w` on, going on with a loop at a place finishes. -/
def GoesOn (K : Setting φ σ) (s : Input) (w : σ) (next : Repeat (EStateM (Halt φ) σ) φ) : Prop :=
  ∀ w', K.reach w w' → ∀ i, K.place s i → ∀ values best,
    K.Finishes (next i values best) w' (AtPlace K s)

theorem goesOn_finish : GoesOn K s w finish := fun _ _ _ hi _ _ =>
  finishes_pure fun _ => by rwa [Result.index_mergeWith]

theorem goesOn_spent : GoesOn K s w spent := fun _ _ _ _ _ _ => finishes_stopped

theorem goesOn_mandatory (hp : K.Serves p env w) {next : Repeat (EStateM (Halt φ) σ) φ}
    (hn : GoesOn K s w next) (n : Nat) : GoesOn K s w (mandatory p s env next n) := by
  induction n with
  | zero => exact hn
  | succ n ih =>
    intro w' hw i hi values best
    refine (hp w' hw s i hi).bind fun r w'' _ hw' hr => ?_
    have hm : AtPlace K s (r.mergeWith best) w'' := by simpa [AtPlace] using hr
    dsimp only
    split
    · next hs => exact ih w'' (K.reach_trans hw hw') _ (hm hs) _ _
    · exact finishes_pure hm

/-- With an upper bound of `max`, matches of nothing do no harm. -/
def Harmless (K : Setting φ σ) (p : Behaviour (EStateM (Halt φ) σ) φ) (max : Limit)
    (env : Value φ) (w : σ) : Prop :=
  ∀ bound, max = .finite bound →
    bound < boundCeiling ∨ K.Consumes p env w ∨ K.allowed .boundTooLarge

theorem Harmless.of_large {bound : Nat} (h : Harmless K p (.finite bound) env w)
    (hlarge : ¬bound < boundCeiling) : K.Consumes p env w ∨ K.allowed .boundTooLarge :=
  Or.resolve_left (h bound rfl) hlarge

theorem goesOn_optional (hp : K.Serves p env w) {max : Limit} (hmax : Harmless K p max env w)
    {next : Repeat (EStateM (Halt φ) σ) φ} (hn : GoesOn K s w next) (n : Nat) :
    GoesOn K s w (optional p max s env next n) := by
  induction n with
  | zero => exact hn
  | succ n ih =>
    intro w' hw i hi values best
    refine (hp w' hw s i hi).bind fun r w'' hrun hw' hr => ?_
    have hw'' := K.reach_trans hw hw'
    have hm : AtPlace K s (r.mergeWith best) w'' := by simpa [AtPlace] using hr
    have hend : ∀ values : Array (Value φ),
        K.Finishes (finish i values (some (r.mergeWith best))) w'' (AtPlace K s) :=
      fun values => goesOn_finish w'' (K.reach_refl w'') i hi values _
    dsimp only
    split
    · next hs =>
      split
      · next hstay =>
        cases max with
        | infinite => exact hend _
        | finite bound =>
          dsimp only
          refine @finishes_ite _ _ _ K w'' (AtPlace K s) (bound < boundCeiling) _ _ _ ?_ ?_
          · exact fun _ => ih w'' hw'' _ (hm hs) _ _
          · intro hlarge
            cases hmax.of_large hlarge with
            | inl hc =>
              rw [Result.index_mergeWith] at hstay
              exact absurd hstay (hc w' hw s i hi r w'' hrun (by simpa using hs))
            | inr ha => exact finishes_fault ha
      · exact ih w'' hw'' _ (hm hs) _ _
    · exact hend values

theorem serves_times (hp : K.Serves p env w) (min : Limit) {max : Limit}
    (hmax : Harmless K p max env w) (budget : Nat) :
    K.Serves (times p min max budget) env w := by
  intro w' hw s i hi
  cases min with
  | infinite => exact goesOn_mandatory hp goesOn_spent budget w' hw i hi #[] none
  | finite least =>
    cases max with
    | infinite =>
      exact goesOn_mandatory hp (goesOn_optional hp hmax goesOn_spent budget) least w' hw i hi #[]
        none
    | finite most =>
      exact goesOn_mandatory hp (goesOn_optional hp hmax goesOn_finish (most - least)) least w' hw i
        hi #[] none

/-! ## Values and continuations -/

theorem serves_mapEnv (hp : K.Serves p env w)
    {f : Value φ → Value φ → EStateM (Halt φ) σ (Value φ)}
    (hf : ∀ r w', K.Gets p env w r w' → K.Finishes (f r.value env) w' fun _ _ => True) :
    K.Serves (mapEnv p f) env w := by
  intro w' hw s i hi
  refine (hp w' hw s i hi).bind fun r w'' hrun hw' hr => ?_
  split
  · next hs =>
    exact (hf r w'' ⟨w', s, i, hw, hi, hrun, hs⟩).bind fun v _ _ _ _ => finishes_pure fun _ => hr hs
  · exact finishes_pure hr

theorem serves_chainEnv (hp : K.Serves p env w)
    {f : Value φ → Value φ → EStateM (Halt φ) σ (Behaviour (EStateM (Halt φ) σ) φ)}
    (hf : ∀ r w', K.Gets p env w r w' →
      K.Finishes (f r.value env) w' fun next w'' => K.Serves next env w'') :
    K.Serves (chainEnv p f) env w := by
  intro w' hw s i hi
  refine (hp w' hw s i hi).bind fun r w₁ hrun _ hr => ?_
  split
  · next hs =>
    refine (hf r w₁ ⟨w', s, i, hw, hi, hrun, hs⟩).bind fun next w₂ _ _ hnext => ?_
    exact (hnext w₂ (K.reach_refl w₂) s r.index (hr hs)).bind fun r' _ _ _ hr' => finishes_pure hr'
  · exact finishes_pure hr

theorem serves_relabel (hp : K.Serves p env w) (label : String) :
    K.Serves (relabel p label) env w := by
  intro w' hw s i hi
  refine (hp w' hw s i hi).bind fun r _ _ _ hr => ?_
  split
  · exact finishes_pure hr
  · exact finishes_pure nofun

/-! ## Looking ahead -/

theorem serves_except (hp : K.Serves p env w) (hq : K.Serves q env w)
    {describe : Value φ → EStateM (Halt φ) σ String}
    (hd : ∀ v w', K.Finishes (describe v) w' fun _ _ => True) :
    K.Serves (except p q describe) env w := by
  intro w' hw s i hi
  refine (hq w' hw s i hi).bind fun unwanted w₁ _ hw₁ _ => ?_
  split
  · exact (hd unwanted.value w₁).bind fun _ _ _ _ _ => finishes_pure nofun
  · refine (hp w₁ (K.reach_trans hw hw₁) s i hi).bind fun r w₂ _ _ hr => ?_
    split
    · exact finishes_pure hr
    · exact finishes_pure nofun

theorem serves_lookAhead (hp : K.Serves p env w) : K.Serves (lookAhead p) env w := by
  intro w' hw s i hi
  refine (hp w' hw s i hi).bind fun r _ _ _ hr => ?_
  split
  · exact finishes_pure fun _ => hi
  · exact finishes_pure hr

/-! ## Environments and the log -/

theorem serves_subEnv {derive : Value φ → EStateM (Halt φ) σ (Value φ)}
    (hd : ∀ w', K.reach w w' → K.Finishes (derive env) w' fun env' w'' => K.Serves p env' w'') :
    K.Serves (subEnv p derive) env w :=
  fun w' hw s i hi => (hd w' hw).bind fun _ w'' _ _ hp => hp w'' (K.reach_refl w'') s i hi

theorem serves_fromEnv
    {lookup : Value φ → EStateM (Halt φ) σ (Behaviour (EStateM (Halt φ) σ) φ)}
    (hl : ∀ w', K.reach w w' → K.Finishes (lookup env) w' fun p w'' => K.Serves p env w'') :
    K.Serves (fromEnv lookup) env w :=
  fun w' hw s i hi => (hl w' hw).bind fun _ w'' _ _ hp => hp w'' (K.reach_refl w'') s i hi

theorem serves_trace (hp : K.Serves p env w) (label : Value φ)
    {log : LogEntry φ → EStateM (Halt φ) σ PUnit}
    (hl : ∀ entry w', K.Finishes (log entry) w' fun _ _ => True) :
    K.Serves (trace p label log) env w := by
  intro w' hw s i hi
  refine (hl _ w').bind fun _ w₁ _ hw₁ _ => ?_
  refine (hp w₁ (K.reach_trans hw hw₁) s i hi).bind fun r w₂ _ _ hr => ?_
  have last : ∀ entry, K.Finishes (log entry >>= fun _ => pure r) w₂ (AtPlace K s) :=
    fun entry => (hl entry w₂).bind fun _ _ _ _ _ => finishes_pure hr
  split
  · exact last _
  · exact last _

/-! ## Characters and patterns -/

theorem serves_satisfy {test : Char → Value φ → EStateM (Halt φ) σ Bool}
    (ht : ∀ w', K.reach w w' → ∀ c, K.Finishes (test c env) w' fun _ _ => True)
    (label : String) : K.Serves (satisfy test label) env w := by
  intro w' hw s i _
  unfold satisfy
  split
  · next c hc =>
    have hlt : i < s.length := (List.getElem?_eq_some_iff.1 hc).1
    refine (ht w' hw c).bind fun b _ _ _ _ => ?_
    split
    · exact finishes_pure fun _ => K.place_of_le hlt
    · exact finishes_pure nofun
  · exact finishes_pure nofun

theorem finishes_runOf {test : Char → EStateM (Halt φ) σ Bool}
    (ht : ∀ w', K.reach w w' → ∀ c, K.Finishes (test c) w' fun _ _ => True) (cs : List Char) :
    K.Finishes (runOf test cs) w fun run _ => run.length ≤ cs.length := by
  induction cs generalizing w with
  | nil => exact finishes_pure (Nat.le_refl _)
  | cons c cs ih =>
    refine (ht w (K.reach_refl w) c).bind fun b w' _ hw _ => ?_
    split
    · refine (ih fun w'' hw' => ht w'' (K.reach_trans hw hw')).bind fun run _ _ _ hrun => ?_
      exact finishes_pure (Nat.succ_le_succ hrun)
    · exact finishes_pure (Nat.zero_le _)

theorem serves_takeWhile {test : Char → EStateM (Halt φ) σ Bool}
    (ht : ∀ w', K.reach w w' → ∀ c, K.Finishes (test c) w' fun _ _ => True) :
    K.Serves (takeWhile test) env w := by
  intro w' hw s i hi
  refine (finishes_runOf (fun w'' hw' => ht w'' (K.reach_trans hw hw')) _).bind
    fun run _ _ _ hrun => finishes_pure fun _ => ?_
  rw [List.length_drop] at hrun
  by_cases h : i ≤ s.length
  · exact K.place_of_le (show i + run.length ≤ s.length by omega)
  · have : run.length = 0 := by omega
    simpa [Result.success, this] using hi

theorem serves_regex {pattern : Pattern} {group : GroupName}
    (hg : (pattern.groupNumber? group).isSome) (label : String) :
    K.Serves (regex pattern group label) env w := by
  intro w' hw s i hi
  unfold regex
  split
  · exact finishes_pure nofun
  · next found hfound =>
    obtain ⟨number, hn⟩ := Option.isSome_iff_exists.1 hg
    rw [hn]
    exact finishes_pure fun _ => K.place_of_le (Pattern.matchAt_stop_le hfound)

end Behaviour

end Furthest
