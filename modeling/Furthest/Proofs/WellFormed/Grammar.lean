import Furthest.Grammar.Denotation
import Furthest.Proofs.WellFormed.Behaviour

/-!
# Well-formed grammars

`Grammar.Sound` asks of the parts of a grammar that lie outside its tree what a well-formed parser
needs: that parser objects are well-formed, that functions keep the invariant, that functions which
choose a parser choose a well-formed one, and that custom parsers answer with well-formed results.
A grammar that is sound is well-formed (`Grammar.wellFormed_denote`), whatever it is put together
from.
-/

namespace Furthest

open Behaviour

variable {φ σ : Type}

section

variable (host : Host (EStateM (Halt φ) σ) φ) (I : σ → Prop)

/-- A callback that keeps the invariant. -/
def Callback.Sound (f : Callback φ) : Prop := ∀ v env, Keeps I (f.run host.call v env)

/-- A computation whose value, if it is a parser object, is a well-formed one. -/
def ChoosesObject (x : EStateM (Halt φ) σ (Value φ)) : Prop :=
  ∀ w, I w → Returns x w fun v w' => I w' ∧ ∀ r, v = .parser r → WellFormed I (host.object r)

/-- A test that keeps the invariant. -/
def Test.Sound (test : Test φ) : Prop := ∀ c env, Keeps I (test.run host.call c env)

/-- A user's function of text, offset and environment that answers with well-formed results. -/
def SoundCustom (f : Value φ) : Prop :=
  ∀ (s : Input) (i : Nat) (env : Value φ) (w : σ), i ≤ s.length → I w →
    Returns (host.call f [.text (String.ofList s), .nat i, env]) w fun v w' =>
      I w' ∧ ∀ r, v = .result r → r.WellFormed i s.length

namespace Grammar

mutual

/-- What lies outside the tree of a grammar is well-formed. -/
def Sound : Grammar φ → Prop
  | .object r => WellFormed I (host.object r)
  | .deferred d => WellFormed I (host.deferred d)
  | .custom f => SoundCustom host I f
  | .satisfy test _ | .takeWhile test => test.Sound host I
  | .seq ps => SoundAll ps
  | .alt p ps => p.Sound ∧ SoundAll ps
  | .times p _ _ | .relabel p _ | .lookAhead p | .trace p _ => p.Sound
  | .mapEnv p f => p.Sound ∧ f.Sound host I
  | .chainEnv p f => p.Sound ∧ ∀ v env, ChoosesObject host I (f.run host.call v env)
  | .except allowed forbidden => allowed.Sound ∧ forbidden.Sound
  | .subEnv p derive => p.Sound ∧ ∀ env, Keeps I (host.call derive [env])
  | .fromEnv lookup => ∀ env, ChoosesObject host I (host.call lookup [env])
  | .succeed _ | .fail _ | .offset | .position | .eof | .anyChar | .rest | .string _
  | .regex .. => True

/-- Every one of several grammars is sound. -/
def SoundAll : List (Grammar φ) → Prop
  | [] => True
  | p :: ps => p.Sound ∧ SoundAll ps

end

end Grammar

end

section

variable {host : Host (EStateM (Halt φ) σ) φ} {I : σ → Prop}

theorem chooses_chosen {x : EStateM (Halt φ) σ (Value φ)} (hx : ChoosesObject host I x)
    (complaint : Value φ → Fault φ) :
    Chooses I (do host.chosen complaint (← x)) := by
  intro w hw
  refine (hx w hw).bind ?_
  rintro v w' ⟨hw', hv⟩
  cases v with
  | parser r => exact returns_pure ⟨hw', hv r rfl⟩
  | _ => exact returns_throw

theorem wellFormed_custom {f : Value φ} (hf : SoundCustom host I f) :
    WellFormed I ((Grammar.custom f).denote host) := by
  intro s i env w hi hw
  refine (hf s i env w hi hw).bind ?_
  rintro v w' ⟨hw', hv⟩
  cases v with
  | result r => exact returns_pure ⟨hw', hv r rfl⟩
  | _ => exact returns_throw

/-- Wording values and writing to the log keep the invariant. -/
structure Host.Quiet (host : Host (EStateM (Halt φ) σ) φ) (I : σ → Prop) : Prop where
  describe : ∀ v, Keeps I (host.describe v)
  log : ∀ entry, Keeps I (host.log entry)

namespace Grammar

mutual

/-- A sound grammar is well-formed. -/
theorem wellFormed_denote (hq : host.Quiet I) :
    (g : Grammar φ) → g.Sound host I → WellFormed I (g.denote host)
  | .object _, h => h
  | .deferred _, h => h
  | .custom _, h => wellFormed_custom h
  | .succeed v, _ => wellFormed_leaf fun _ i hi => Result.wellFormed_success v (le_refl i) hi
  | .fail label, _ => wellFormed_leaf fun _ _ hi => Result.wellFormed_failure label hi
  | .offset, _ => wellFormed_leaf fun _ i hi => Result.wellFormed_success _ (le_refl i) hi
  | .position, _ => wellFormed_leaf fun _ i hi => Result.wellFormed_success _ (le_refl i) hi
  | .eof, _ => wellFormed_leaf fun _ _ hi => Leaf.wellFormed_eof hi
  | .anyChar, _ => wellFormed_leaf fun _ _ hi => Leaf.wellFormed_anyChar hi
  | .rest, _ => wellFormed_leaf fun _ _ hi => Result.wellFormed_success _ hi (le_refl _)
  | .string literal, _ => wellFormed_leaf fun _ _ hi => Leaf.wellFormed_string literal hi
  | .regex p group label, _ => wellFormed_regex p group label
  | .satisfy _ label, h => wellFormed_satisfy h label
  | .takeWhile _, h => wellFormed_takeWhile fun c => h c .null
  | .seq ps, h => wellFormed_seq (wellFormed_denoteAll hq ps h)
  | .alt p ps, h => wellFormed_alt (wellFormed_denote hq p h.1) (wellFormed_denoteAll hq ps h.2)
  | .times p min max, h => wellFormed_times (wellFormed_denote hq p h) min max host.budget
  | .mapEnv p _, h => wellFormed_mapEnv (wellFormed_denote hq p h.1) h.2
  | .chainEnv p _, h => wellFormed_chainEnv (wellFormed_denote hq p h.1) fun v env =>
      chooses_chosen (h.2 v env) _
  | .relabel p label, h => wellFormed_relabel (wellFormed_denote hq p h) label
  | .except p q, h =>
      wellFormed_except (wellFormed_denote hq p h.1) (wellFormed_denote hq q h.2) hq.describe
  | .lookAhead p, h => wellFormed_lookAhead (wellFormed_denote hq p h)
  | .trace p label, h => wellFormed_trace (wellFormed_denote hq p h) label hq.log
  | .subEnv p _, h => wellFormed_subEnv (wellFormed_denote hq p h.1) h.2
  | .fromEnv _, h => wellFormed_fromEnv fun env => chooses_chosen (h env) _

theorem wellFormed_denoteAll (hq : host.Quiet I) :
    (ps : List (Grammar φ)) → SoundAll host I ps → ∀ p ∈ denoteAll host ps, WellFormed I p
  | [], _ => nofun
  | p :: ps, h => List.forall_mem_cons.2
      ⟨wellFormed_denote hq p h.1, wellFormed_denoteAll hq ps h.2⟩

end

end Grammar

/-- A parser object that is well-formed reports a failure of a whole text inside that text. -/
theorem Host.wellFormed_parse (hq : host.Quiet I) {r : Ref} (hr : WellFormed I (host.object r))
    (he : WellFormed I (host.object Ref.eof)) (s : Input) (env : Value φ) {w : σ} (hw : I w) :
    Returns (host.parse r s env) w fun outcome w' => I w' ∧
      ∀ report, outcome = .error report → report.Within 0 s.length := by
  have hwhole : (Grammar.whole (.object r) : Grammar φ).Sound host I :=
    ⟨⟨hr, he, trivial⟩, fun v env w hw => by
      cases v <;> exact returns_pure hw⟩
  refine (hq.log _ w hw).bind fun _ w₁ hw₁ => ?_
  refine (Grammar.wellFormed_denote hq _ hwhole s 0 env w₁ (Nat.zero_le _) hw₁).bind
    fun result w₂ ⟨hw₂, hres⟩ => ?_
  have last : ∀ w₃, I w₃ → I w₃ ∧
      ∀ report, result.outcome = .error report → report.Within 0 s.length := by
    refine fun w₃ hw₃ => ⟨hw₃, fun report h => ?_⟩
    unfold Result.outcome at h
    split at h
    · cases h
    · rename_i hs
      cases h
      exact (hres.of_failure (by simpa using hs)).1
  cases hs : result.status with
  | true => exact returns_pure (last w₂ hw₂)
  | false => exact (hq.log _ w₂ hw₂).bind fun _ w₃ hw₃ => returns_pure (last w₃ hw₃)

end

end Furthest
