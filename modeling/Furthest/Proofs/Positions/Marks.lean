import Furthest.Proofs.Algebra.Chain
import Furthest.Proofs.Positions.Scan
import Furthest.Proofs.WellFormed.Machine

/-!
# Matches between positions

A parser that marks positions asks for the position, runs its part and asks for the position once
more.  Asking matches nothing and reports nothing (`Behaviour.Probes`), so what the part comes to
stays as it is, and only the value of a match gets the positions of its ends around it
(`Behaviour.mark_seq_apply`).  These positions are those of a scan of the text, and they are in the
order of the offsets (`Machine.markPositions_spans`).
-/

namespace Furthest

variable {φ σ : Type}

/-- A result in which the value of a match stands between two others. -/
def Result.between (r : Result (Value φ)) (start stop : Value φ) : Result (Value φ) :=
  if r.status then { r with value := .mark start r.value stop } else r

theorem Result.between_of_match {r : Result (Value φ)} (h : r.status = true)
    (start stop : Value φ) :
    r.between start stop = { r with value := .mark start r.value stop } := if_pos h

theorem Result.between_of_failure {r : Result (Value φ)} (h : r.status = false)
    (start stop : Value φ) : r.between start stop = r := if_neg (by simp [h])

namespace Behaviour

variable {I : σ → Prop} {p q : Behaviour (EStateM (Halt φ) σ) φ} {v : Input → Nat → Value φ}
  {s : Input} {i : Nat} {w : σ}

/-- In states with `I` it matches nothing, and its value depends on the offset alone. -/
def Probes (I : σ → Prop) (q : Behaviour (EStateM (Halt φ) σ) φ) (v : Input → Nat → Value φ) :
    Prop :=
  ∀ s i env w, I w → q s i env w = .ok (.success i (v s i)) w

/-- What is asked before and after `p` stands around the value of its matches, and nothing else
changes. -/
theorem mark_seq_apply (hq : Probes I q v) (hp : WellFormed I p)
    (call : Value φ → List (Value φ) → EStateM (Halt φ) σ (Value φ)) (env : Value φ)
    (hi : i ≤ s.length) (hw : I w) :
    mapEnv (seq [q, p, q]) (Callback.mark.run call) s i env w =
      ((fun r => r.between (v s i) (v s r.index)) <$> p s i env) w := by
  simp only [mapEnv, seq, seqFrom, bind_assoc, map_eq_pure_bind]
  rw [bind_apply, hq s i env w hw]
  simp only [Result.mergeWith_none, Result.success, if_true, bind_assoc]
  refine bind_congr_returns (hp s i env w hi hw) fun r w' h => ?_
  obtain ⟨hw', hr⟩ := h
  have hreport := hr.fits.neg_one_le
  have hmerged : r.mergeWith (some ⟨Report.silent, true, i, v s i⟩) = r :=
    Result.merge_success hreport i _
  simp only [hmerged]
  cases hs : r.status with
  | false => simp [Result.between, hs]
  | true =>
    simp only [if_true, bind_assoc]
    rw [bind_apply, hq s r.index env w' hw']
    simp [Callback.run, Result.between, hs, Result.merge, Result.success,
      Report.silent_join hreport]

end Behaviour

namespace Machine

open Behaviour

variable [FunctionText φ] {apply : Tools φ → φ → List (Value φ) → Machine φ (Value φ)}
  {I : World φ → Prop}

/-- The shared parser of the position, as it was made. -/
theorem probes_position (budget depth : Nat)
    (hshared : ∀ w : World φ, I w → (w.cell Ref.position).behaviour = .position) :
    Probes I ((tools apply budget (depth + 1)).run Ref.position)
      fun s i => .position (.ofOffset s i) := by
  intro s i env w hw
  show ((w.cell Ref.position).behaviour.denote (host (tools apply budget depth)) s i env) w = _
  rw [hshared w hw]
  rfl

theorem markPositions_apply (budget depth : Nat) {g : Grammar φ}
    (hg : WellFormed I (g.denote (host (tools apply budget (depth + 1)))))
    (hshared : ∀ w : World φ, I w → (w.cell Ref.position).behaviour = .position) {s : Input}
    {i : Nat} (env : Value φ) {w : World φ} (hi : i ≤ s.length) (hw : I w) :
    (Grammar.markPositions g).denote (host (tools apply budget (depth + 1))) s i env w =
      ((fun r => r.between (.position (.ofOffset s i)) (.position (.ofOffset s r.index))) <$>
        g.denote (host (tools apply budget (depth + 1))) s i env) w := by
  rw [Grammar.markPositions, Grammar.denote_mapEnv, Grammar.denote_seq]
  exact mark_seq_apply (probes_position budget depth hshared) hg _ env hi hw

/-- The position of an offset is the one that a scan of the text before it comes to, and positions
are in the order of their offsets.  A parser that marks positions comes to what its part comes to,
except that the value of a match stands between the positions of its ends, of which the first is the
earlier one unless the match consumed nothing. -/
theorem markPositions_spans (budget depth : Nat) {g : Grammar φ}
    (hg : WellFormed I (g.denote (host (tools apply budget (depth + 1)))))
    (hshared : ∀ w : World φ, I w → (w.cell Ref.position).behaviour = .position) :
    (∀ text o, o ≤ text.length →
      Position.ofOffset text o = (text.take o).foldl Position.advance ⟨0, 1, 1⟩) ∧
    (∀ text, StrictMonoOn (fun o => (Position.ofOffset text o).place) {o | o ≤ text.length}) ∧
    ∀ s i env w, i ≤ s.length → I w →
      (∀ halt w', g.denote (host (tools apply budget (depth + 1))) s i env w = .error halt w' →
        (Grammar.markPositions g).denote (host (tools apply budget (depth + 1))) s i env w =
          .error halt w') ∧
      ∀ r w', g.denote (host (tools apply budget (depth + 1))) s i env w = .ok r w' →
        ∃ marked, (Grammar.markPositions g).denote (host (tools apply budget (depth + 1))) s i env
            w = .ok marked w' ∧
          marked.status = r.status ∧ marked.index = r.index ∧ marked.toReport = r.toReport ∧
          (r.status = true → marked.value = .mark (.position (.ofOffset s i)) r.value
            (.position (.ofOffset s r.index))) ∧
          (r.status = false → marked.value = .null) ∧
          (Position.ofOffset s i).place ≤ (Position.ofOffset s r.index).place ∧
          ((Position.ofOffset s i).place = (Position.ofOffset s r.index).place ↔ r.index = i) := by
  refine ⟨fun text o h => Position.ofOffset_eq_scan h, Position.strictMonoOn_place,
    fun s i env w hi hw => ⟨fun halt w' h => ?_, fun r w' h => ?_⟩⟩
  · rw [markPositions_apply budget depth hg hshared env hi hw, map_eq_pure_bind, bind_apply, h]
  · obtain ⟨-, hr⟩ := hg s i env w hi hw r w' h
    have hmono := Position.strictMonoOn_place s
    have hle := (hmono.le_iff_le hi hr.index_le).2 hr.le_index
    have heq := (hmono.eq_iff_eq hi hr.index_le).trans eq_comm
    refine ⟨_, by rw [markPositions_apply budget depth hg hshared env hi hw, map_eq_pure_bind,
      bind_apply, h]; rfl, ?_⟩
    cases hs : r.status with
    | true =>
      rw [Result.between_of_match hs]
      exact ⟨hs, rfl, rfl, fun _ => rfl, nofun, hle, heq⟩
    | false =>
      rw [Result.between_of_failure hs]
      exact ⟨hs, rfl, rfl, nofun, fun _ => (hr.of_failure hs).2, hle, heq⟩

section

open Script (Function applyFunction)

/-- The end of a line, or any character. -/
def lineEndOrCharacter : Grammar Function := .alt (.string "b\n") [.anyChar]

theorem wellFormed_lineEndOrCharacter (t : Tools Function) :
    WellFormed (fun w => (w.cell Ref.position).behaviour = .position)
      (lineEndOrCharacter.denote (host t)) :=
  Grammar.wellFormed_denote (quiet_host fun _ _ h => h) _ ⟨trivial, trivial, trivial⟩

/-- A match of two characters, of which the second one ends the line, leads from the second column
of the first line to the first column of the second line. -/
theorem markPositions_spans_lineEnd : ∃ marked,
    (Grammar.markPositions lineEndOrCharacter).denote (host (tools (applyFunction []) 1 1))
      "ab\nc".toList 1 .null .initial = .ok marked .initial ∧
    marked.value = .mark (.position ⟨1, 1, 2⟩) (.text "b\n") (.position ⟨3, 2, 1⟩) ∧
    (Position.mk 1 1 2).place ≤ (Position.mk 3 2 1).place := by
  obtain ⟨-, -, hmark⟩ := markPositions_spans 1 0
    (wellFormed_lineEndOrCharacter (tools (applyFunction []) 1 1)) fun _ h => h
  obtain ⟨marked, hrun, -, -, -, hvalue, -, hle, -⟩ :=
    (hmark "ab\nc".toList 1 .null .initial (by decide) rfl).2 (.success 3 (.text "b\n")) .initial
      rfl
  exact ⟨marked, hrun, hvalue rfl, hle⟩

end

end Machine

end Furthest
