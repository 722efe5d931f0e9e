import Mathlib.Data.List.Forall2
import Furthest.Grammar.Denotation
import Furthest.Grammar.Operators
import Furthest.Proofs.Returns

/-!
# Shapes of values

The functions of the library that take a list apart (`Callback.Takes`) rely on its shape.
`Grammar.Values` reads off a grammar which values its matches may come with, and a grammar fits
(`Grammar.Fits`) if every function in it takes all the values that it may be given.

Whatever its parts do, a grammar that fits never applies a function to a value of another shape
(`Grammar.Fits.takes_value`).
-/

namespace Furthest

variable {φ σ : Type}

/-- Lists of a type for each place. -/
abbrev Each (Vs : List (Value φ → Prop)) (vs : List (Value φ)) : Prop :=
  List.Forall₂ (fun V v => V v) Vs vs

/-- A list of no or one item. -/
def Value.IsOptional (v : Value φ) : Prop := v = .list [] ∨ ∃ f, v = .list [f]

/-- A list of two. -/
def Value.IsPair (v : Value φ) : Prop := ∃ a b, v = .list [a, b]

/-- The values whose shape a function goes by; a user's function of the value takes any. -/
def Callback.Takes : Callback φ → Value φ → Prop
  | .value _, _ | .valueAndEnv _, _ | .constant _, _ | .singleton, _ => True
  | .spread _, v => ∃ vs, v = .list vs
  | .item k, v => ∃ vs, v = .list vs ∧ k < vs.length
  | .cons, v => ∃ first others, v = .list [first, .list others]
  | .concat, v => ∃ vs, v = .list vs ∧ ∀ t ∈ vs, ∃ s, t = .text s
  | .mark, v => ∃ start value stop, v = .list [start, value, stop]
  | .foldLeft, v | .foldRight, v =>
    ∃ first pairs, v = .list [first, .list pairs] ∧ ∀ pair ∈ pairs, pair.IsPair
  | .surround, v =>
    ∃ before operand after, v = .list [before, operand, after] ∧ before.IsOptional ∧
      after.IsOptional
  | .infixOnce, v => ∃ first rest, v = .list [first, rest] ∧ (rest.IsPair ∨ rest = .null)

namespace Grammar

mutual

/-- The values that a match of a grammar may come with, as far as the grammar tells. -/
def Values : Grammar φ → Value φ → Prop
  | .succeed c, v => v = c
  | .string _, v | .satisfy _ _, v => ∃ s, v = .text s
  | .seq ps, v => ∃ vs, v = .list vs ∧ ValuesEach ps vs
  | .alt p ps, v => p.Values v ∨ ValuesAny ps v
  | .times p _ _, v => ∃ vs, v = .list vs ∧ ∀ item ∈ vs, p.Values item
  | .mapEnv p .singleton, v => ∃ item, v = .list [item] ∧ p.Values item
  | .mapEnv _ (.constant c), v => v = c
  | .relabel p _, v | .except p _, v | .lookAhead p, v | .trace p _, v | .subEnv p _, v =>
    p.Values v
  | _, _ => True

/-- The values of several grammars in order. -/
def ValuesEach : List (Grammar φ) → List (Value φ) → Prop
  | [], vs => vs = []
  | p :: ps, vs => ∃ v rest, vs = v :: rest ∧ p.Values v ∧ ValuesEach ps rest

/-- The values of any of several grammars. -/
def ValuesAny : List (Grammar φ) → Value φ → Prop
  | [], _ => False
  | p :: ps, v => p.Values v ∨ ValuesAny ps v

end

mutual

/-- Every function in a grammar takes the values it may be given. -/
def Fits : Grammar φ → Prop
  | .mapEnv p f | .chainEnv p f => p.Fits ∧ ∀ v, p.Values v → f.Takes v
  | .seq ps => FitsAll ps
  | .alt p ps => p.Fits ∧ FitsAll ps
  | .times p _ _ | .relabel p _ | .lookAhead p | .trace p _ | .subEnv p _ => p.Fits
  | .except p q => p.Fits ∧ q.Fits
  | _ => True

/-- Every one of several grammars fits. -/
def FitsAll : List (Grammar φ) → Prop
  | [] => True
  | p :: ps => p.Fits ∧ FitsAll ps

end

/-- Somewhere in a grammar, a function is applied to the values of a part. -/
inductive Applies : Grammar φ → Grammar φ → Callback φ → Prop where
  | mapEnv (p : Grammar φ) (f : Callback φ) : Applies (.mapEnv p f) p f
  | chainEnv (p : Grammar φ) (f : Callback φ) : Applies (.chainEnv p f) p f
  | ofMapEnv {p q : Grammar φ} {f : Callback φ} (g : Callback φ) :
    Applies p q f → Applies (.mapEnv p g) q f
  | ofChainEnv {p q : Grammar φ} {f : Callback φ} (g : Callback φ) :
    Applies p q f → Applies (.chainEnv p g) q f
  | ofSeq {p q : Grammar φ} {ps : List (Grammar φ)} {f : Callback φ} :
    p ∈ ps → Applies p q f → Applies (.seq ps) q f
  | ofAlt {p q r : Grammar φ} {ps : List (Grammar φ)} {f : Callback φ} :
    p ∈ r :: ps → Applies p q f → Applies (.alt r ps) q f
  | ofTimes {p q : Grammar φ} {f : Callback φ} (min max : Limit) :
    Applies p q f → Applies (.times p min max) q f
  | ofRelabel {p q : Grammar φ} {f : Callback φ} (label : String) :
    Applies p q f → Applies (.relabel p label) q f
  | ofAllowed {p q : Grammar φ} {f : Callback φ} (forbidden : Grammar φ) :
    Applies p q f → Applies (.except p forbidden) q f
  | ofForbidden {p q : Grammar φ} {f : Callback φ} (allowed : Grammar φ) :
    Applies p q f → Applies (.except allowed p) q f
  | ofLookAhead {p q : Grammar φ} {f : Callback φ} : Applies p q f → Applies (.lookAhead p) q f
  | ofTrace {p q : Grammar φ} {f : Callback φ} (label : Value φ) :
    Applies p q f → Applies (.trace p label) q f
  | ofSubEnv {p q : Grammar φ} {f : Callback φ} (derive : Value φ) :
    Applies p q f → Applies (.subEnv p derive) q f

theorem fitsAll_iff {ps : List (Grammar φ)} : FitsAll ps ↔ ∀ p ∈ ps, p.Fits := by
  induction ps with
  | nil => simp [FitsAll]
  | cons p ps ih => rw [FitsAll, ih, List.forall_mem_cons]

/-- Wherever a grammar that fits applies a function, the function takes the values of the part. -/
theorem Fits.takes {g p : Grammar φ} {f : Callback φ} (hg : g.Fits) (h : Applies g p f) :
    ∀ v, p.Values v → f.Takes v := by
  induction h with
  | mapEnv | chainEnv => exact hg.2
  | ofMapEnv _ _ ih | ofChainEnv _ _ ih | ofAllowed _ _ ih => exact ih hg.1
  | ofForbidden _ _ ih => exact ih hg.2
  | ofTimes _ _ _ ih | ofRelabel _ _ ih | ofTrace _ _ ih | ofSubEnv _ _ ih => exact ih hg
  | ofLookAhead _ ih => exact ih hg
  | ofSeq hp _ ih => exact ih (fitsAll_iff.1 hg _ hp)
  | ofAlt hp _ ih =>
    rcases List.mem_cons.1 hp with rfl | hp
    · exact ih hg.1
    · exact ih (fitsAll_iff.1 hg.2 _ hp)

end Grammar

/-! ## Behaviours and the values of their matches -/

namespace Behaviour

/-- Every match comes with a value of the type. -/
def Produces (p : Behaviour (EStateM (Halt φ) σ) φ) (V : Value φ → Prop) : Prop :=
  ∀ s i env w, Returns (p s i env) w fun r _ => r.status = true → V r.value

variable {p q : Behaviour (EStateM (Halt φ) σ) φ} {ps : List (Behaviour (EStateM (Halt φ) σ) φ)}
  {V V' : Value φ → Prop} {s : Input} {i : Nat} {env : Value φ} {w : σ}

theorem Produces.mono (h : Produces p V) (hV : ∀ v, V v → V' v) : Produces p V' :=
  fun s i env w => (h s i env w).mono fun _ _ hr hs => hV _ (hr hs)

theorem produces_trivial (p : Behaviour (EStateM (Halt φ) σ) φ) : Produces p fun _ => True :=
  fun _ _ _ _ _ _ _ _ => trivial

theorem produces_leaf {f : Input → Nat → Result (Value φ)}
    (h : ∀ s i, (f s i).status = true → V (f s i).value) :
    Produces (σ := σ) (leaf f) V :=
  fun s i _ _ => returns_pure (h s i)

theorem returns_seqFrom {Vs : List (Value φ → Prop)} (hps : List.Forall₂ Produces ps Vs)
    (values : Array (Value φ)) (best : Option (Result (Value φ))) :
    Returns (seqFrom s env ps i values best) w fun r _ => r.status = true →
      ∃ vs, r.value = .list (values.toList ++ vs) ∧ Each Vs vs := by
  induction hps generalizing i values best w with
  | nil => exact returns_pure fun _ => ⟨[], by simp [Result.success], .nil⟩
  | cons hp _ ih =>
    refine (hp s i env w).bind fun r w' hr => ?_
    dsimp only
    split
    · next hs =>
      rw [Result.status_mergeWith] at hs
      refine (ih _ _).mono fun r' _ hr' hs' => ?_
      obtain ⟨vs, hvs, hall⟩ := hr' hs'
      exact ⟨r.value :: vs, by simpa using hvs, .cons (hr hs) hall⟩
    · next hs => exact returns_pure fun h => absurd h hs

theorem produces_seq {Vs : List (Value φ → Prop)} (hps : List.Forall₂ Produces ps Vs) :
    Produces (seq ps) fun v => ∃ vs, v = .list vs ∧ Each Vs vs := by
  intro s i env w
  refine (returns_seqFrom hps #[] none).mono fun r _ hr hs => ?_
  simpa using hr hs

theorem returns_altFrom (hps : ∀ p ∈ ps, Produces p V) {best : Result (Value φ)}
    (hb : best.status = false) :
    Returns (altFrom s i env ps best) w fun r _ => r.status = true → V r.value := by
  induction ps generalizing best w with
  | nil => exact returns_pure fun h => by simp [hb] at h
  | cons p ps ih =>
    refine (hps p (by simp) s i env w).bind fun r w' hr => ?_
    dsimp only
    split
    · exact returns_pure hr
    · next hs => exact ih (fun q hq => hps q (by simp [hq])) (by simpa using hs)

theorem produces_alt (hp : Produces p V) (hps : ∀ p ∈ ps, Produces p V) :
    Produces (alt p ps) V := by
  intro s i env w
  refine (hp s i env w).bind fun r w' hr => ?_
  split
  · exact returns_pure hr
  · next hs => exact returns_altFrom hps (by simpa using hs)

/-! ### Repetition -/

/-- Going on with a loop that has so far found values of the type leads to a list of such values. -/
def Collects (V : Value φ → Prop) (next : Repeat (EStateM (Halt φ) σ) φ) : Prop :=
  ∀ i (values : Array (Value φ)) best w, (∀ v ∈ values, V v) →
    Returns (next i values best) w fun r _ => r.status = true →
      ∃ vs, r.value = .list vs ∧ ∀ v ∈ vs, V v

theorem collects_finish : Collects (σ := σ) V finish := fun _ values _ _ hvs =>
  returns_pure fun _ => ⟨values.toList, by simp [Result.success], by simpa using hvs⟩

theorem collects_spent : Collects (σ := σ) V spent := fun _ _ _ _ _ => returns_throw

theorem forall_push {values : Array (Value φ)} {v : Value φ} (hvs : ∀ v ∈ values, V v) (hv : V v) :
    ∀ item ∈ values.push v, V item := by
  intro item hitem
  rcases Array.mem_push.1 hitem with h | h
  · exact hvs item h
  · exact h ▸ hv

theorem collects_mandatory (hp : Produces p V) {next : Repeat (EStateM (Halt φ) σ) φ}
    (hn : Collects V next) (s : Input) (env : Value φ) (n : Nat) :
    Collects V (mandatory p s env next n) := by
  induction n with
  | zero => exact hn
  | succ n ih =>
    intro i values best w hvs
    refine (hp s i env w).bind fun r w' hr => ?_
    have hm : (r.mergeWith best).status = true → V (r.mergeWith best).value := by simpa using hr
    dsimp only
    split
    · next hs => exact ih _ _ _ _ (forall_push hvs (hm hs))
    · next hs => exact returns_pure fun h => absurd h hs

theorem collects_optional (hp : Produces p V) {next : Repeat (EStateM (Halt φ) σ) φ}
    (hn : Collects V next) (max : Limit) (s : Input) (env : Value φ) (n : Nat) :
    Collects V (optional p max s env next n) := by
  induction n with
  | zero => exact hn
  | succ n ih =>
    intro i values best w hvs
    refine (hp s i env w).bind fun r w' hr => ?_
    have hm : (r.mergeWith best).status = true → V (r.mergeWith best).value := by simpa using hr
    dsimp only
    split
    · next hs =>
      have hvs' := forall_push hvs (hm hs)
      split
      · split
        · exact collects_finish _ _ _ _ hvs'
        · split
          · exact ih _ _ _ _ hvs'
          · exact returns_throw
      · exact ih _ _ _ _ hvs'
    · exact collects_finish _ _ _ _ hvs

theorem produces_times (hp : Produces p V) (min max : Limit) (budget : Nat) :
    Produces (times p min max budget) fun v => ∃ vs, v = .list vs ∧ ∀ item ∈ vs, V item := by
  intro s i env w
  cases min with
  | infinite => exact collects_mandatory hp collects_spent s env budget i #[] none w (by simp)
  | finite least =>
    cases max with
    | infinite =>
      exact collects_mandatory hp (collects_optional hp collects_spent _ s env budget) s env least i
        #[] none w (by simp)
    | finite most =>
      exact collects_mandatory hp (collects_optional hp collects_finish _ s env (most - least)) s
        env least i #[] none w (by simp)

/-! ### The other combinators -/

theorem produces_mapEnv {f : Value φ → Value φ → EStateM (Halt φ) σ (Value φ)}
    (hp : Produces p V) (hf : ∀ v env w, V v → Returns (f v env) w fun v' _ => V' v') :
    Produces (mapEnv p f) V' := by
  intro s i env w
  refine (hp s i env w).bind fun r w' hr => ?_
  split
  · next hs =>
    exact (hf r.value env w' (hr hs)).bind fun v _ hv => returns_pure fun _ => by
      simpa [Result.success] using hv
  · next hs => exact returns_pure fun h => absurd h hs

theorem produces_relabel (hp : Produces p V) (label : String) : Produces (relabel p label) V := by
  intro s i env w
  refine (hp s i env w).bind fun r _ hr => ?_
  split
  · exact returns_pure hr
  · exact returns_pure nofun

theorem produces_except (hp : Produces p V) (q : Behaviour (EStateM (Halt φ) σ) φ)
    (describe : Value φ → EStateM (Halt φ) σ String) : Produces (except p q describe) V := by
  intro s i env w
  refine (produces_trivial q s i env w).bind fun unwanted w₁ _ => ?_
  split
  · exact (returns_any (describe unwanted.value) w₁).bind fun _ _ _ => returns_pure nofun
  · refine (hp s i env w₁).bind fun r _ hr => ?_
    split
    · exact returns_pure hr
    · exact returns_pure nofun

theorem produces_lookAhead (hp : Produces p V) : Produces (lookAhead p) V := by
  intro s i env w
  refine (hp s i env w).bind fun r _ hr => ?_
  split
  · exact returns_pure hr
  · exact returns_pure hr

theorem produces_subEnv (hp : Produces p V) (derive : Value φ → EStateM (Halt φ) σ (Value φ)) :
    Produces (subEnv p derive) V := by
  intro s i env w
  exact (returns_any (derive env) w).bind fun env' w' _ => hp s i env' w'

theorem produces_trace (hp : Produces p V) (label : Value φ)
    (log : LogEntry φ → EStateM (Halt φ) σ PUnit) : Produces (trace p label log) V := by
  intro s i env w
  refine (returns_any (log _) w).bind fun _ w₁ _ => (hp s i env w₁).bind fun r w₂ hr => ?_
  have hlast : ∀ entry, Returns (log entry >>= fun _ => pure r) w₂
      fun r' _ => r'.status = true → V r'.value :=
    fun entry => (returns_any (log entry) w₂).bind fun _ _ _ => returns_pure hr
  split
  · exact hlast _
  · exact hlast _

theorem produces_satisfy (test : Char → Value φ → EStateM (Halt φ) σ Bool) (label : String) :
    Produces (satisfy test label) fun v => ∃ t, v = .text t := by
  intro s i env w
  unfold satisfy
  split
  · next c _ =>
    refine (returns_any (test c env) w).bind fun b _ _ => ?_
    split
    · exact returns_pure fun _ => ⟨_, rfl⟩
    · exact returns_pure nofun
  · exact returns_pure nofun

end Behaviour

/-! ## Grammars and the values of their matches -/

namespace Grammar

open Behaviour

theorem valuesEach_iff {ps : List (Grammar φ)} {vs : List (Value φ)} :
    ValuesEach ps vs ↔ Each (ps.map Values) vs := by
  induction ps generalizing vs with
  | nil => simp [ValuesEach, Each]
  | cons p ps ih =>
    rw [ValuesEach, List.map_cons]
    constructor
    · rintro ⟨v, rest, rfl, hv, hrest⟩
      exact .cons hv (ih.1 hrest)
    · rintro ⟨⟩
      next v rest hv hrest => exact ⟨v, rest, rfl, hv, ih.2 hrest⟩

variable (host : Host (EStateM (Halt φ) σ) φ)

mutual

/-- The matches of a grammar come with the values that the grammar tells. -/
theorem produces_denote : (g : Grammar φ) → Produces (g.denote host) g.Values
  | .succeed _ => produces_leaf fun _ _ _ => rfl
  | .string literal => produces_leaf fun s i h => by
      unfold Leaf.string at h ⊢
      dsimp only at h ⊢
      split at h
      · next hm => exact ⟨literal, by rw [if_pos hm]; rfl⟩
      · cases h
  | .satisfy test label => produces_satisfy (test.run host.call) label
  | .seq ps => (produces_seq (produces_denoteAll ps)).mono fun _ ⟨vs, hv, hvs⟩ =>
      ⟨vs, hv, valuesEach_iff.2 hvs⟩
  | .alt p ps =>
      produces_alt ((produces_denote p).mono fun _ hv => Or.inl hv) fun q hq =>
        (produces_denoteAny ps q hq).mono fun _ hv => Or.inr hv
  | .times p min max => produces_times (produces_denote p) min max host.budget
  | .mapEnv p .singleton => produces_mapEnv (produces_denote p) fun v _ _ hv =>
      returns_pure ⟨v, rfl, hv⟩
  | .mapEnv p (.constant _) => produces_mapEnv (produces_denote p) fun _ _ _ _ => returns_pure rfl
  | .relabel p label => produces_relabel (produces_denote p) label
  | .except p q => produces_except (produces_denote p) (q.denote host) host.describe
  | .lookAhead p => produces_lookAhead (produces_denote p)
  | .trace p label => produces_trace (produces_denote p) label host.log
  | .subEnv p derive => produces_subEnv (produces_denote p) fun env => host.call derive [env]
  | .object _ | .custom _ | .fail _ | .offset | .position | .eof | .anyChar | .rest | .regex ..
  | .takeWhile _ | .chainEnv .. | .fromEnv _ | .deferred _ => produces_trivial _
  | .mapEnv _ (.value _) | .mapEnv _ (.valueAndEnv _) | .mapEnv _ (.spread _)
  | .mapEnv _ (.item _) | .mapEnv _ .cons | .mapEnv _ .concat | .mapEnv _ .mark
  | .mapEnv _ .foldLeft | .mapEnv _ .foldRight | .mapEnv _ .surround | .mapEnv _ .infixOnce =>
    produces_trivial _

theorem produces_denoteAll : (ps : List (Grammar φ)) →
    List.Forall₂ Produces (denoteAll host ps) (ps.map Values)
  | [] => .nil
  | p :: ps => .cons (produces_denote p) (produces_denoteAll ps)

theorem produces_denoteAny : (ps : List (Grammar φ)) →
    ∀ p ∈ denoteAll host ps, Produces p (ValuesAny ps)
  | [] => nofun
  | p :: ps => List.forall_mem_cons.2
      ⟨(produces_denote p).mono fun _ hv => Or.inl hv, fun q hq =>
        (produces_denoteAny ps q hq).mono fun _ hv => Or.inr hv⟩

end

/-- Wherever a grammar that fits applies a function, what the part comes to is what the function
takes. -/
theorem Fits.takes_value {g p : Grammar φ} {f : Callback φ} (hg : g.Fits) (h : Applies g p f) :
    Produces (p.denote host) f.Takes :=
  (produces_denote host p).mono (hg.takes h)

end Grammar

end Furthest
