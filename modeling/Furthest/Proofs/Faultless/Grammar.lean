import Furthest.Grammar.Denotation
import Furthest.Proofs.Faultless.Behaviour
import Furthest.Proofs.WellFormed.Result

/-!
# Grammars that do not fault

`Grammar.Total` asks of what lies outside the tree of a grammar what it takes for attempts to
finish: that functions finish on the values they get and on every character, that functions which
choose a parser come to one that serves the environment, that custom parsers answer with results,
that the groups of patterns exist, and that a repetition with too large a finite bound consumes
something with each match or has its fault allowed for.  Which objects and deferred parsers serve
which environments in which states is left open (`Serving`).

A total grammar serves its environment (`Grammar.serves_denote`), whatever it is put together from.
-/

namespace Furthest

variable {φ σ : Type}

/-- The objects and the deferred parsers that serve an environment in a state. -/
structure Serving (φ σ : Type) where
  object : σ → Ref → Value φ → Prop
  deferred : σ → DeferralRef → Value φ → Prop

section

variable (host : Host (EStateM (Halt φ) σ) φ) (K : Setting φ σ) (S : Serving φ σ)

/-- From a state on, a test finishes on every character. -/
def Test.Total (test : Test φ) (env : Value φ) (w : σ) : Prop :=
  ∀ w', K.reach w w' → ∀ c, K.Finishes (test.run host.call c env) w' fun _ _ => True

/-- From a state on, a function of text, offset and environment comes to results that end at
places. -/
def CustomTotal (f : Value φ) (env : Value φ) (w : σ) : Prop :=
  ∀ w', K.reach w w' → ∀ s i, K.place s i →
    K.Finishes (host.call f [.text (String.ofList s), .nat i, env]) w' fun v _ =>
      ∃ r, v = .result r ∧ (r.status = true → K.place s r.index)

/-- The value is an object that serves the environment. -/
def Serving.Chosen (env : Value φ) (v : Value φ) (w : σ) : Prop :=
  ∃ r, v = .parser r ∧ S.object w r env

namespace Grammar

mutual

/-- What lies outside the tree of a grammar finishes, in an environment and from a state on. -/
def Total : Grammar φ → Value φ → σ → Prop
  | .object r, env, w => S.object w r env
  | .deferred d, env, w => S.deferred w d env
  | .custom f, env, w => CustomTotal host K f env w
  | .regex p group _, _, _ => p.ofBytes = false ∧ (p.groupNumber? group).isSome
  | .satisfy test _, env, w => test.Total host K env w
  | .takeWhile test, _, w => test.Total host K .null w
  | .seq ps, env, w => TotalAll ps env w
  | .alt p ps, env, w => p.Total env w ∧ TotalAll ps env w
  | .times p _ max, env, w => p.Total env w ∧ Behaviour.Harmless K (p.denote host) max env w
  | .mapEnv p f, env, w => p.Total env w ∧ ∀ r w', K.Gets (p.denote host) env w r w' →
      K.Finishes (f.run host.call r.value env) w' fun _ _ => True
  | .chainEnv p f, env, w => p.Total env w ∧ ∀ r w', K.Gets (p.denote host) env w r w' →
      K.Finishes (f.run host.call r.value env) w' (S.Chosen env)
  | .relabel p _, env, w | .lookAhead p, env, w | .trace p _, env, w => p.Total env w
  | .except allowed forbidden, env, w => allowed.Total env w ∧ forbidden.Total env w
  | .subEnv p derive, env, w => ∀ w', K.reach w w' →
      K.Finishes (host.call derive [env]) w' fun env' w'' => p.Total env' w''
  | .fromEnv lookup, env, w => ∀ w', K.reach w w' →
      K.Finishes (host.call lookup [env]) w' (S.Chosen env)
  | .succeed _, _, _ | .fail _, _, _ | .offset, _, _ | .position, _, _ | .eof, _, _
  | .anyChar, _, _ | .rest, _, _ | .string _, _, _ => True

/-- Every one of several grammars is total. -/
def TotalAll : List (Grammar φ) → Value φ → σ → Prop
  | [], _, _ => True
  | p :: ps, env, w => p.Total env w ∧ TotalAll ps env w

end

end Grammar

/-- What the host does serves where it is said to, and neither wording nor logging faults. -/
structure Host.Serves : Prop where
  object {w : σ} {r : Ref} {env : Value φ} : S.object w r env → K.Serves (host.object r) env w
  deferred {w : σ} {d : DeferralRef} {env : Value φ} :
    S.deferred w d env → K.Serves (host.deferred d) env w
  describe (v : Value φ) (w : σ) : K.Finishes (host.describe v) w fun _ _ => True
  log (entry : LogEntry φ) (w : σ) : K.Finishes (host.log entry) w fun _ _ => True

end

section

open Setting Behaviour

variable {host : Host (EStateM (Halt φ) σ) φ} {K : Setting φ σ} {S : Serving φ σ}

theorem finishes_chosen (hh : host.Serves K S) {x : EStateM (Halt φ) σ (Value φ)} {env : Value φ}
    {w : σ} (hx : K.Finishes x w (S.Chosen env)) (complaint : Value φ → Fault φ) :
    K.Finishes (do host.chosen complaint (← x)) w fun p w' => K.Serves p env w' := by
  refine hx.bind fun v w' _ _ hv => ?_
  obtain ⟨r, rfl, hr⟩ := hv
  exact finishes_pure (hh.object hr)

theorem serves_custom {f env : Value φ} {w : σ} (hf : CustomTotal host K f env w) :
    K.Serves ((Grammar.custom f).denote host) env w := by
  intro w' hw s i hi
  refine (hf w' hw s i hi).bind fun v w'' _ _ hv => ?_
  obtain ⟨r, rfl, hr⟩ := hv
  exact finishes_pure hr

/-- A literal text that matches ends in the text. -/
theorem Leaf.string_index_le {literal : String} {s : Input} {i : Nat}
    (h : (Leaf.string literal s i : Result (Value φ)).status = true) :
    (Leaf.string literal s i : Result (Value φ)).index ≤ s.length := by
  by_cases hi : i ≤ s.length
  · exact (Leaf.wellFormed_string literal hi).index_le
  · simp [Leaf.string, hi] at h

/-- A character that matches is one of the text. -/
theorem Leaf.anyChar_index_le {s : Input} {i : Nat}
    (h : (Leaf.anyChar s i : Result (Value φ)).status = true) :
    (Leaf.anyChar s i : Result (Value φ)).index ≤ s.length := by
  by_cases hi : i ≤ s.length
  · exact (Leaf.wellFormed_anyChar hi).index_le
  · rw [Leaf.anyChar, List.getElem?_eq_none (by omega)] at h
    cases h

namespace Grammar

mutual

/-- A total grammar serves its environment. -/
theorem serves_denote (hh : host.Serves K S) : (g : Grammar φ) → {env : Value φ} → {w : σ} →
    g.Total host K S env w → K.Serves (g.denote host) env w
  | .object _, _, _, h => hh.object h
  | .deferred _, _, _, h => hh.deferred h
  | .custom _, _, _, h => serves_custom h
  | .succeed _, _, _, _ => serves_leaf fun _ _ hi _ => hi
  | .fail _, _, _, _ => serves_leaf nofun
  | .offset, _, _, _ => serves_leaf fun _ _ hi _ => hi
  | .position, _, _, _ => serves_leaf fun _ _ hi _ => hi
  | .eof, _, _, _ => serves_leaf fun s i hi h => by
      unfold Leaf.eof at h ⊢
      split at h
      · cases h
      · next hlt => simpa [hlt, Result.success] using hi
  | .anyChar, _, _, _ => serves_leaf fun _ _ _ h => K.place_of_le (Leaf.anyChar_index_le h)
  | .rest, _, _, _ => serves_leaf fun _ _ _ _ => K.place_of_le (Nat.le_refl _)
  | .string _, _, _, _ => serves_leaf fun _ _ _ h => K.place_of_le (Leaf.string_index_le h)
  | .regex _ _ label, _, _, h => serves_regex h.2 label
  | .satisfy _ label, _, _, h => serves_satisfy h label
  | .takeWhile _, _, _, h => serves_takeWhile h
  | .seq ps, _, _, h => serves_seq (serves_denoteAll hh ps h)
  | .alt p ps, _, _, h => serves_alt (serves_denote hh p h.1) (serves_denoteAll hh ps h.2)
  | .times p min _, _, _, h => serves_times (serves_denote hh p h.1) min h.2 host.budget
  | .mapEnv p _, _, _, h => serves_mapEnv (serves_denote hh p h.1) h.2
  | .chainEnv p _, _, _, h => serves_chainEnv (serves_denote hh p h.1) fun r w' hr =>
      finishes_chosen hh (h.2 r w' hr) _
  | .relabel p label, _, _, h => serves_relabel (serves_denote hh p h) label
  | .except p q, _, _, h =>
      serves_except (serves_denote hh p h.1) (serves_denote hh q h.2) hh.describe
  | .lookAhead p, _, _, h => serves_lookAhead (serves_denote hh p h)
  | .trace p label, _, _, h => serves_trace (serves_denote hh p h) label hh.log
  | .subEnv p _, _, _, h => serves_subEnv fun w' hw =>
      (h w' hw).mono fun _ _ _ hp => serves_denote hh p hp
  | .fromEnv _, _, _, h => serves_fromEnv fun w' hw => finishes_chosen hh (h w' hw) _

theorem serves_denoteAll (hh : host.Serves K S) : (ps : List (Grammar φ)) → {env : Value φ} →
    {w : σ} → TotalAll host K S ps env w → ∀ p ∈ denoteAll host ps, K.Serves p env w
  | [], _, _, _ => nofun
  | p :: ps, _, _, h =>
      List.forall_mem_cons.2 ⟨serves_denote hh p h.1, serves_denoteAll hh ps h.2⟩

end

end Grammar

end

end Furthest
