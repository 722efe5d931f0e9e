import Furthest.Machine.Run
import Furthest.Proofs.Returns

/-!
# Grounded behaviours

A behaviour is grounded if no result of it reports an offset before `-1`.  That a report is silent
then says that nothing was reported: it adds nothing to any other report.  Every parser that is put
together from grounded ones is grounded (`Grammar.grounded_denote`), whatever functions do on the
way, and so is every parser object of the machine, unless a function answers a custom parser with a
result that is not (`Machine.grounded_tools`).
-/

namespace Furthest

variable {φ σ : Type}

namespace Result

variable {r b : Result (Value φ)}

theorem neg_one_le_merge (h : -1 ≤ r.furthest) (b : Result (Value φ)) :
    -1 ≤ (r.merge b).furthest := by
  rw [toReport_merge, Report.furthest_join]
  omega

theorem neg_one_le_mergeWith (h : -1 ≤ r.furthest) (best : Option (Result (Value φ))) :
    -1 ≤ (r.mergeWith best).furthest := by
  cases best with
  | none => exact h
  | some b => exact neg_one_le_merge h b

theorem neg_one_le_success (i : Nat) (v : Value φ) : -1 ≤ (Result.success i v).furthest :=
  Int.le_refl _

theorem neg_one_le_failure (i : Nat) (label : String) :
    -1 ≤ (Result.failure i label : Result (Value φ)).furthest := by
  show -1 ≤ (i : Int)
  omega

end Result

namespace Behaviour

open Result

/-- No result reports an offset before `-1`. -/
def Grounded (p : Behaviour (EStateM (Halt φ) σ) φ) : Prop :=
  ∀ s i env w, Returns (p s i env) w fun r _ => -1 ≤ r.furthest

/-- A computation that comes to grounded behaviours. -/
def Grounds (x : EStateM (Halt φ) σ (Behaviour (EStateM (Halt φ) σ) φ)) : Prop :=
  ∀ w, Returns x w fun p _ => Grounded p

/-- A loop that goes on to results that report no offset before `-1`. -/
def GroundedLoop (next : Repeat (EStateM (Halt φ) σ) φ) : Prop :=
  ∀ i values best w, Returns (next i values best) w fun r _ => -1 ≤ r.furthest

variable {p q : Behaviour (EStateM (Halt φ) σ) φ} {ps : List (Behaviour (EStateM (Halt φ) σ) φ)}
  {s : Input} {env : Value φ}

theorem grounded_leaf {f : Input → Nat → Result (Value φ)}
    (h : ∀ s i, -1 ≤ (f s i).furthest) : Grounded (σ := σ) (leaf f) :=
  fun s i _ _ => returns_pure (h s i)

/-! ## Sequences, alternatives and repetitions -/

theorem groundedLoop_finish : GroundedLoop (φ := φ) (σ := σ) finish :=
  fun i _ best _ => returns_pure (neg_one_le_mergeWith (neg_one_le_success i _) best)

theorem groundedLoop_seqFrom (s : Input) (env : Value φ) (hps : ∀ p ∈ ps, Grounded p) :
    GroundedLoop (seqFrom s env ps) := by
  induction ps with
  | nil => exact groundedLoop_finish
  | cons p ps ih =>
    intro i values best w
    refine (hps p (by simp) s i env w).bind fun r w' hr => ?_
    dsimp only
    split
    · exact ih (fun q hq => hps q (by simp [hq])) _ _ _ w'
    · exact returns_pure (neg_one_le_mergeWith hr best)

theorem grounded_seq (hps : ∀ p ∈ ps, Grounded p) : Grounded (seq ps) :=
  fun s i env w => groundedLoop_seqFrom s env hps i #[] none w

theorem grounded_alt (hp : Grounded p) (hps : ∀ p ∈ ps, Grounded p) : Grounded (alt p ps) := by
  have hfrom : ∀ s i env w (best : Result (Value φ)), -1 ≤ best.furthest →
      Returns (altFrom s i env ps best) w fun r _ => -1 ≤ r.furthest := by
    intro s i env w best hb
    induction ps generalizing best w with
    | nil => exact returns_pure hb
    | cons p ps ih =>
      refine (hps p (by simp) s i env w).bind fun r w' hr => ?_
      have hm := neg_one_le_merge hr best
      dsimp only
      split
      · exact returns_pure hm
      · exact ih (fun q hq => hps q (by simp [hq])) _ _ hm
  intro s i env w
  refine (hp s i env w).bind fun r w' hr => ?_
  split
  · exact returns_pure hr
  · exact hfrom s i env w' r hr

theorem groundedLoop_spent : GroundedLoop (φ := φ) (σ := σ) spent := fun _ _ _ _ => returns_throw

theorem groundedLoop_mandatory (hp : Grounded p) {next : Repeat (EStateM (Halt φ) σ) φ}
    (hn : GroundedLoop next) (n : Nat) : GroundedLoop (mandatory p s env next n) := by
  induction n with
  | zero => exact hn
  | succ n ih =>
    intro i values best w
    refine (hp s i env w).bind fun r w' hr => ?_
    dsimp only
    split
    · exact ih _ _ _ w'
    · exact returns_pure (neg_one_le_mergeWith hr best)

theorem groundedLoop_optional (hp : Grounded p) (max : Limit)
    {next : Repeat (EStateM (Halt φ) σ) φ} (hn : GroundedLoop next) (n : Nat) :
    GroundedLoop (optional p max s env next n) := by
  induction n with
  | zero => exact hn
  | succ n ih =>
    intro i values best w
    refine (hp s i env w).bind fun r w' _ => ?_
    dsimp only
    split
    · split
      · split
        · exact groundedLoop_finish _ _ _ w'
        · split
          · exact ih _ _ _ w'
          · exact returns_throw
      · exact ih _ _ _ w'
    · exact groundedLoop_finish _ _ _ w'

theorem grounded_times (hp : Grounded p) (min max : Limit) (budget : Nat) :
    Grounded (times p min max budget) := by
  intro s i env w
  cases min with
  | infinite => exact groundedLoop_mandatory hp groundedLoop_spent budget i #[] none w
  | finite least =>
    cases max with
    | infinite =>
      have h : GroundedLoop (optional p .infinite s env spent budget) :=
        groundedLoop_optional hp .infinite groundedLoop_spent budget
      exact groundedLoop_mandatory hp h least i #[] none w
    | finite most =>
      have h : GroundedLoop (optional p (.finite most) s env finish (most - least)) :=
        groundedLoop_optional hp (.finite most) groundedLoop_finish (most - least)
      exact groundedLoop_mandatory hp h least i #[] none w

/-! ## Values and continuations -/

theorem grounded_mapEnv (hp : Grounded p)
    (f : Value φ → Value φ → EStateM (Halt φ) σ (Value φ)) : Grounded (mapEnv p f) := by
  intro s i env w
  refine (hp s i env w).bind fun r w' hr => ?_
  split
  · refine (returns_any (f r.value env) w').bind fun v _ _ => returns_pure ?_
    exact neg_one_le_merge (neg_one_le_success _ v) r
  · exact returns_pure hr

theorem grounded_chainEnv (hp : Grounded p)
    {f : Value φ → Value φ → EStateM (Halt φ) σ (Behaviour (EStateM (Halt φ) σ) φ)}
    (hf : ∀ v env, Grounds (f v env)) : Grounded (chainEnv p f) := by
  intro s i env w
  refine (hp s i env w).bind fun r w' hr => ?_
  split
  · refine (hf r.value env w').bind fun next w'' hnext => ?_
    exact (hnext s r.index env w'').bind fun r' _ hr' => returns_pure (neg_one_le_merge hr' r)
  · exact returns_pure hr

theorem grounded_relabel (hp : Grounded p) (label : String) : Grounded (relabel p label) := by
  intro s i env w
  refine (hp s i env w).bind fun r w' hr => ?_
  split
  · exact returns_pure hr
  · exact returns_pure hr

/-! ## Looking ahead -/

theorem grounded_except (hp : Grounded p) (q : Behaviour (EStateM (Halt φ) σ) φ)
    (describe : Value φ → EStateM (Halt φ) σ String) : Grounded (except p q describe) := by
  intro s i env w
  refine (returns_any (q s i env) w).bind fun unwanted w' _ => ?_
  split
  · exact (returns_any (describe unwanted.value) w').bind fun _ _ _ =>
      returns_pure (neg_one_le_failure i _)
  · refine (hp s i env w').bind fun r w'' hr => ?_
    split
    · exact returns_pure hr
    · exact returns_pure (neg_one_le_failure i _)

theorem grounded_lookAhead (hp : Grounded p) : Grounded (lookAhead p) := by
  intro s i env w
  refine (hp s i env w).bind fun r w' hr => ?_
  split
  · exact returns_pure hr
  · exact returns_pure hr

/-! ## Environments and the log -/

theorem grounded_subEnv (hp : Grounded p) (derive : Value φ → EStateM (Halt φ) σ (Value φ)) :
    Grounded (subEnv p derive) :=
  fun s i env w => (returns_any (derive env) w).bind fun env' w' _ => hp s i env' w'

theorem grounded_fromEnv
    {lookup : Value φ → EStateM (Halt φ) σ (Behaviour (EStateM (Halt φ) σ) φ)}
    (hl : ∀ env, Grounds (lookup env)) : Grounded (fromEnv lookup) :=
  fun s i env w => (hl env w).bind fun _ w' hq => hq s i env w'

theorem grounded_trace (hp : Grounded p) (label : Value φ)
    (log : LogEntry φ → EStateM (Halt φ) σ PUnit) : Grounded (trace p label log) := by
  intro s i env w
  refine (returns_any (log _) w).bind fun _ w' _ => (hp s i env w').bind fun r w'' hr => ?_
  split
  · exact (returns_any (log _) w'').bind fun _ _ _ => returns_pure hr
  · exact (returns_any (log _) w'').bind fun _ _ _ => returns_pure hr

/-! ## Characters and patterns -/

theorem grounded_satisfy (test : Char → Value φ → EStateM (Halt φ) σ Bool) (label : String) :
    Grounded (satisfy test label) := by
  intro s i env w
  unfold satisfy
  split
  · next c _ =>
    refine (returns_any (test c env) w).bind fun passes _ _ => ?_
    split
    · exact returns_pure (neg_one_le_success _ _)
    · exact returns_pure (neg_one_le_failure i label)
  · exact returns_pure (neg_one_le_failure i label)

theorem grounded_takeWhile (test : Char → EStateM (Halt φ) σ Bool) :
    Grounded (φ := φ) (takeWhile test) :=
  fun s i _ w => (returns_any (runOf test (s.drop i)) w).bind fun _ _ _ =>
    returns_pure (neg_one_le_success _ _)

theorem grounded_regex (pattern : Pattern) (group : GroupName) (label : String) :
    Grounded (regex (m := EStateM (Halt φ) σ) pattern group label) := by
  intro s i env w
  unfold regex
  split
  · exact returns_pure (neg_one_le_failure i label)
  · split
    · exact returns_throw
    · exact returns_pure (neg_one_le_success _ _)

theorem grounded_string (literal : String) :
    Grounded (leaf (m := EStateM (Halt φ) σ) (Leaf.string literal)) := by
  refine grounded_leaf fun s i => ?_
  unfold Leaf.string
  dsimp only
  split
  · exact neg_one_le_success _ _
  · exact neg_one_le_failure (φ := φ) _ _

theorem grounded_eof : Grounded (leaf (m := EStateM (Halt φ) σ) Leaf.eof) := by
  refine grounded_leaf fun s i => ?_
  unfold Leaf.eof
  split
  · exact neg_one_le_failure _ _
  · exact neg_one_le_success _ _

theorem grounded_anyChar : Grounded (leaf (m := EStateM (Halt φ) σ) Leaf.anyChar) := by
  refine grounded_leaf fun s i => ?_
  unfold Leaf.anyChar
  split
  · exact neg_one_le_success _ _
  · exact neg_one_le_failure _ _

end Behaviour

/-! ## Grammars -/

open Behaviour

/-- If a value is a result, this does not report an offset before `-1`. -/
def Value.Grounded (v : Value φ) : Prop := ∀ r, v = .result r → -1 ≤ r.furthest

/-- What lies outside of grammars is grounded: parser objects, and the results that functions
answer with. -/
structure Host.Grounded (host : Host (EStateM (Halt φ) σ) φ) : Prop where
  object (r : Ref) : Behaviour.Grounded (host.object r)
  deferred (d : DeferralRef) : Behaviour.Grounded (host.deferred d)
  answer (f : Value φ) (args : List (Value φ)) (w : σ) :
    Returns (host.call f args) w fun v _ => v.Grounded

theorem returns_resultOf {x : EStateM (Halt φ) σ (Value φ)} {w : σ}
    (h : Returns x w fun v _ => v.Grounded) :
    Returns (do Host.resultOf (← x)) w fun r _ => -1 ≤ r.furthest := by
  refine h.bind fun v w' hv => ?_
  cases v with
  | result r => exact returns_pure (hv r rfl)
  | _ => exact returns_throw

namespace Grammar

variable {host : Host (EStateM (Halt φ) σ) φ}

theorem grounds_chosen (h : host.Grounded) (complaint : Value φ → Fault φ)
    (x : EStateM (Halt φ) σ (Value φ)) : Grounds (do host.chosen complaint (← x)) := by
  intro w
  refine (returns_any x w).bind fun v w' _ => ?_
  cases v with
  | parser r => exact returns_pure (h.object r)
  | _ => exact returns_throw

theorem grounded_custom (h : host.Grounded) (f : Value φ) :
    Behaviour.Grounded ((custom f).denote host) :=
  fun _ _ _ w => returns_resultOf (h.answer f _ w)

mutual

/-- A grammar is grounded if what lies outside of it is. -/
theorem grounded_denote (h : host.Grounded) :
    (g : Grammar φ) → Behaviour.Grounded (g.denote host)
  | .object r => h.object r
  | .deferred d => h.deferred d
  | .custom f => grounded_custom h f
  | .succeed v => grounded_leaf fun _ i => Result.neg_one_le_success i v
  | .fail label => grounded_leaf fun _ i => Result.neg_one_le_failure i label
  | .offset => grounded_leaf fun _ i => Result.neg_one_le_success i _
  | .position => grounded_leaf fun _ i => Result.neg_one_le_success i _
  | .eof => grounded_eof
  | .anyChar => grounded_anyChar
  | .rest => grounded_leaf fun _ _ => Result.neg_one_le_success _ _
  | .string literal => grounded_string literal
  | .regex p group label => grounded_regex p group label
  | .satisfy _ label => grounded_satisfy _ label
  | .takeWhile _ => grounded_takeWhile _
  | .seq ps => grounded_seq (grounded_denoteAll h ps)
  | .alt p ps => grounded_alt (grounded_denote h p) (grounded_denoteAll h ps)
  | .times p min max => grounded_times (grounded_denote h p) min max host.budget
  | .mapEnv p _ => grounded_mapEnv (grounded_denote h p) _
  | .chainEnv p _ => grounded_chainEnv (grounded_denote h p) fun _ _ => grounds_chosen h _ _
  | .relabel p label => grounded_relabel (grounded_denote h p) label
  | .except p q => grounded_except (grounded_denote h p) (q.denote host) host.describe
  | .lookAhead p => grounded_lookAhead (grounded_denote h p)
  | .trace p label => grounded_trace (grounded_denote h p) label host.log
  | .subEnv p _ => grounded_subEnv (grounded_denote h p) _
  | .fromEnv _ => grounded_fromEnv fun _ => grounds_chosen h _ _

theorem grounded_denoteAll (h : host.Grounded) :
    (ps : List (Grammar φ)) → ∀ p ∈ denoteAll host ps, Behaviour.Grounded p
  | [] => nofun
  | p :: ps => List.forall_mem_cons.2 ⟨grounded_denote h p, grounded_denoteAll h ps⟩

end

end Grammar

/-! ## The machine -/

/-- Objects are grounded, and so are the results that calls come to. -/
structure Tools.Grounded (t : Tools φ) : Prop where
  run (r : Ref) : Behaviour.Grounded (t.run r)
  answer (f : Value φ) (args : List (Value φ)) (w : World φ) :
    Returns (t.call f args) w fun v _ => v.Grounded

namespace Machine

variable {t : Tools φ}

/-- A deferred parser answers with what the use of a value does, whatever its function has made. -/
theorem returns_useDeferred {α : Type} {use : Value φ → Machine φ α} {Q : α → Prop}
    (huse : ∀ v w, Returns (use v) w fun a _ => Q a) (d : DeferralRef) (w : World φ) :
    Returns (useDeferred t use d) w fun a _ => Q a := by
  refine (returns_any get w).bind fun w₁ w₂ _ => ?_
  dsimp only
  split
  · refine (returns_any _ w₂).bind fun made w₃ _ => ?_
    refine (returns_any (modify _) w₃).bind fun _ w₄ _ => ?_
    split
    · next r =>
      refine (returns_any (replace _ r) w₄).bind fun _ w₅ _ => ?_
      refine (huse (.parser r) w₅).bind fun a w₆ ha => ?_
      exact (returns_any (replace _ r) w₆).bind fun _ _ _ => returns_pure ha
    · exact returns_throw
  · exact huse _ w₂

theorem grounded_runDeferred (h : t.Grounded) (d : DeferralRef) :
    Behaviour.Grounded (runDeferred t d) := by
  intro s i env w
  refine returns_useDeferred (fun v w => ?_) d w
  cases v with
  | parser r => exact h.run r s i env w
  | _ => exact returns_resultOf (h.answer _ _ w)

variable [FunctionText φ]

theorem grounded_host (h : t.Grounded) : (host t).Grounded :=
  ⟨h.run, grounded_runDeferred h, h.answer⟩

/-- What a grammar answers is grounded, if what calls answer is. -/
theorem grounded_answer (h : t.Grounded) (text : String) (i : Nat) (env : Value φ) (g : Grammar φ)
    (w : World φ) : Returns (answer t text i env g) w fun v _ => v.Grounded := by
  have hplain : Returns (do return Value.result (← g.denote (host t) text.toList i env)) w
      fun v _ => v.Grounded := by
    refine (Grammar.grounded_denote (grounded_host h) g text.toList i env w).bind ?_
    rintro result _ hr
    refine returns_pure ?_
    rintro _ ⟨⟩
    exact hr
  cases g with
  | object r => exact h.answer _ _ w
  | custom f => exact h.answer _ _ w
  | deferred d => exact returns_useDeferred (fun v w => h.answer v _ w) d w
  | fromEnv lookup =>
    refine (returns_any _ w).bind fun v w' _ => ?_
    split
    · exact h.answer _ _ w'
    · exact returns_throw
  | subEnv p derive =>
    cases p with
    | object r => exact (returns_any _ w).bind fun inner w' _ => h.answer _ _ w'
    | _ => exact hplain
  | _ => exact hplain

theorem grounded_invoke (h : t.Grounded) (r : Ref) (text : String) (i : Nat) (env : Value φ)
    (w : World φ) : Returns (invoke t r text i env) w fun v _ => v.Grounded :=
  (returns_any (cell r) w).bind fun c w' _ => grounded_answer h text i env c.behaviour w'

/-- The objects of the machine are grounded at any depth, if functions answer with grounded results
where the objects that they may use are grounded. -/
theorem grounded_tools {apply : Tools φ → φ → List (Value φ) → Machine φ (Value φ)}
    (happly : ∀ (t : Tools φ) f args w, t.Grounded →
      Returns (apply t f args) w fun v _ => v.Grounded)
    (budget depth : Nat) : (tools apply budget depth).Grounded := by
  induction depth with
  | zero => exact ⟨fun _ _ _ _ _ => returns_throw, fun _ _ _ => returns_throw⟩
  | succ depth ih =>
    refine ⟨fun r s i env w => ?_, fun f args w => ?_⟩
    · refine (returns_any (cell r) w).bind fun c w' _ => ?_
      exact Grammar.grounded_denote (grounded_host ih) c.behaviour s i env w'
    · show Returns (callValue apply _ f args) w _
      unfold callValue
      split
      · exact happly _ _ _ w ih
      · exact grounded_invoke ih _ _ _ _ w
      · exact grounded_invoke ih _ _ _ _ w
      · exact grounded_invoke ih _ _ _ _ w
      · exact returns_throw

end Machine

end Furthest
