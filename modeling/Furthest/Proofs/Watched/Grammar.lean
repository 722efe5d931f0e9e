import Furthest.Proofs.Closed
import Furthest.Proofs.Watched.Behaviour

/-!
# What watched grammars tell

A grammar is plain if no part of its tree words its report by itself.  Under the observer, a grammar
tells what happens if everything outside of its tree does (`Grammar.tells_denoteWith`); where
foreign parsers must not be tried at all, it has to be plain.
-/

namespace Furthest

variable {φ σ : Type}

namespace Grammar

mutual

/-- No part of the tree words its report by itself. -/
def Plain : Grammar φ → Prop
  | .custom _ | .relabel .. | .except .. => False
  | .seq ps => PlainAll ps
  | .alt p ps => p.Plain ∧ PlainAll ps
  | .times p _ _ | .mapEnv p _ | .chainEnv p _ | .lookAhead p | .trace p _ | .subEnv p _ => p.Plain
  | .object _ | .succeed _ | .fail _ | .offset | .position | .eof | .anyChar | .rest | .string _
  | .regex .. | .satisfy .. | .takeWhile _ | .fromEnv _ | .deferred _ => True

/-- Each of several grammars is plain. -/
def PlainAll : List (Grammar φ) → Prop
  | [] => True
  | p :: ps => p.Plain ∧ PlainAll ps

end

end Grammar

open Behaviour

/-- What lies outside of grammars keeps `I`; parsers tell what happens, and the rest notes
nothing. -/
structure Host.Telling (h : Host (Watched (EStateM (Halt φ) σ)) φ) (I : σ → Prop)
    (native : Prop) : Prop where
  object (r : Ref) : Tells I native (h.object r)
  deferred (d : DeferralRef) : Tells I native (h.deferred d)
  call (f : Value φ) (args : List (Value φ)) : Silent I (h.call f args)
  describe (v : Value φ) : Silent I (h.describe v)
  log (entry : LogEntry φ) : Silent I (h.log entry)

section

variable {h : Host (Watched (EStateM (Halt φ) σ)) φ} {I : σ → Prop} {native : Prop}

theorem closed_silent (I : σ → Prop) :
    Closed (m := Watched (EStateM (Halt φ) σ)) fun _ => Silent I where
  pure _ _ _ hw := notes_pure ⟨hw, rfl⟩
  bind hx hf es w hw := by
    refine (hx es w hw).bind ?_
    rintro a es w' ⟨hw', rfl⟩
    exact hf a es w' hw'

theorem choosesTelling_chosen (hh : h.Telling I native) (complaint : Value φ → Fault φ)
    {x : Watched (EStateM (Halt φ) σ) (Value φ)} (hx : Silent I x) :
    ChoosesTelling I native (do h.chosen complaint (← x)) := by
  intro es w hw
  refine (hx es w hw).bind ?_
  rintro v es w' ⟨hw', rfl⟩
  cases v with
  | parser r => exact notes_pure ⟨hw', rfl, hh.object r⟩
  | _ => exact notes_throw

theorem adds_custom (hh : h.Telling I native) (f : Value φ) :
    Adds I ((Grammar.custom f).denote h) := by
  intro s i env es w hw
  refine (hh.call f _ es w hw).bind ?_
  rintro v es w' ⟨hw', rfl⟩
  cases v with
  | result r => exact notes_pure ⟨hw', [], by simp⟩
  | _ => exact notes_throw

namespace Grammar

mutual

/-- An observed grammar tells what happens; it is plain where only plain parsers may be tried. -/
theorem tells_denoteWith (hh : h.Telling I native) : (g : Grammar φ) → (native → g.Plain) →
    Tells I native (g.denoteWith Watched.observer h)
  | .object r, _ => hh.object r
  | .deferred d, _ => hh.deferred d
  | .custom f, hg => tells_foreign hg (adds_custom hh f)
  | .succeed _, _ | .offset, _ | .position, _ | .rest, _ => tells_success fun _ _ => rfl
  | .fail _, _ => tells_leaf (failsAt_leaf fun _ _ => rfl)
  | .eof, _ => tells_leaf (failsAt_leaf fun s i => by
      unfold Leaf.eof
      split <;> rfl)
  | .anyChar, _ => tells_leaf (failsAt_leaf fun s i => by
      unfold Leaf.anyChar
      split <;> rfl)
  | .string _, _ => tells_leaf (failsAt_leaf fun s i => by
      unfold Leaf.string
      dsimp only
      split <;> rfl)
  | .regex p group label, _ => tells_leaf (failsAt_regex p group label)
  | .satisfy test label, _ => tells_leaf (failsAt_satisfy
      (fun c env => (closed_silent I).test hh.call test c env) label)
  | .takeWhile test, _ => tells_takeWhile fun c => (closed_silent I).test hh.call test c .null
  | .seq ps, hg => tells_seq (tells_denoteAllWith hh ps hg)
  | .alt p ps, hg => tells_alt (tells_denoteWith hh p fun hn => (hg hn).1)
      (tells_denoteAllWith hh ps fun hn => (hg hn).2)
  | .times p min max, hg => tells_times (tells_denoteWith hh p hg) min max h.budget
  | .mapEnv p f, hg => tells_mapEnv (tells_denoteWith hh p hg) fun v env =>
      (closed_silent I).callback hh.call f v env
  | .chainEnv p f, hg => tells_chainEnv (tells_denoteWith hh p hg) fun v env =>
      choosesTelling_chosen hh _ ((closed_silent I).callback hh.call f v env)
  | .relabel p label, hg =>
      have hp := tells_denoteWith hh p fun hn => (hg hn).elim
      tells_foreign hg (adds_relabel hp.adds label)
  | .except p q, hg =>
      have hp := tells_denoteWith hh p fun hn => (hg hn).elim
      have hq := tells_denoteWith hh q fun hn => (hg hn).elim
      tells_foreign hg (adds_except hp.adds hq.adds hh.describe)
  | .lookAhead p, hg => tells_lookAhead (tells_denoteWith hh p hg)
  | .trace p label, hg => tells_trace (tells_denoteWith hh p hg) label hh.log
  | .subEnv p derive, hg => tells_subEnv (tells_denoteWith hh p hg) fun env =>
      hh.call derive [env]
  | .fromEnv lookup, _ => tells_fromEnv fun env =>
      choosesTelling_chosen hh _ (hh.call lookup [env])

theorem tells_denoteAllWith (hh : h.Telling I native) : (ps : List (Grammar φ)) →
    (native → PlainAll ps) → ∀ p ∈ denoteAllWith Watched.observer h ps, Tells I native p
  | [], _ => nofun
  | p :: ps, hg => List.forall_mem_cons.2
      ⟨tells_denoteWith hh p fun hn => (hg hn).1, tells_denoteAllWith hh ps fun hn => (hg hn).2⟩

end

end Grammar

end

end Furthest
