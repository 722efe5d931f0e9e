import Furthest.Proofs.WellFormed.Derived
import Furthest.Script.Eval

/-!
# Well-formed parser objects

What parser objects do on the machine is well-formed under any invariant `I` of the world that
logging keeps.  A deferred parser is well-formed if its function makes well-formed parsers or raises
(`Machine.SoundDeferral`); where it rebinds the object it was made with, that must not break `I`.

`Machine.results_wellFormed` collects this for one set of tools; `Machine.wellFormed_tools` goes on
to runs of any depth, where objects run each other.
-/

namespace Furthest.Machine

open Behaviour

variable {φ : Type} [FunctionText φ] {t : Tools φ} {I : World φ → Prop}

/-- Writing to the log keeps the invariant. -/
def LogKeeps (I : World φ → Prop) : Prop :=
  ∀ (w : World φ) (line : String), I w → I { w with log := w.log.push line }

/-- Replacing what an object does by what the object `r` does now keeps the invariant. -/
def RebindKeeps (I : World φ → Prop) (self r : Ref) : Prop :=
  ∀ w : World φ, I w → I (w.rebind self (w.cell r).behaviour)

/-- The function of a deferred parser makes well-formed parsers or raises.  What it has made may
take the place of the object that was made with it. -/
def SoundDeferral (t : Tools φ) (I : World φ → Prop) (d : DeferralRef) : Prop :=
  ∀ w, I w → match (w.deferral d).target with
    | .null => Returns (t.call (w.deferral d).thunk []) w fun made w' =>
        ∀ r, made = .parser r → WellFormed I (t.run r) ∧ RebindKeeps I (w.deferral d).self r ∧
          I (w'.resolve d made)
    | .parser r => WellFormed I (t.run r)
    | f => SoundCustom (host t) I f

theorem quiet_host (hl : LogKeeps I) : (host t).Quiet I where
  describe _ _ hw := returns_get (σ := World φ) (ε := Halt φ) hw |>.bind fun _ _ h => returns_pure h
  log _ w hw := returns_modify (hl w _ hw)

omit [FunctionText φ] in
theorem keeps_replace {self r : Ref} (h : RebindKeeps I self r) : Keeps I (replace self r) := by
  intro w hw
  have hcell : Returns (cell r) w fun c w' => w = w' ∧ w.cell r = c := by
    rintro c w' ⟨⟩
    exact ⟨rfl, rfl⟩
  refine hcell.bind ?_
  rintro _ _ ⟨rfl, rfl⟩
  exact returns_modify (h w hw)

theorem wellFormed_runDeferred {d : DeferralRef} (h : SoundDeferral t I d) :
    WellFormed I (runDeferred t d) := by
  intro s i env w hi hw
  have hd := h w hw
  have hget : Returns (get : Machine φ (World φ)) w fun w₁ w₂ => w = w₁ ∧ w = w₂ :=
    returns_get ⟨rfl, rfl⟩
  refine hget.bind ?_
  rintro _ _ ⟨rfl, rfl⟩
  dsimp only
  cases htarget : (w.deferral d).target with
  | null =>
    rw [htarget] at hd
    refine hd.bind fun made w₁ hmade => ?_
    have hresolve : Returns (modify (·.resolve d made) : Machine φ PUnit) w₁
        fun _ w₂ => w₁.resolve d made = w₂ := returns_modify rfl
    refine hresolve.bind ?_
    rintro _ _ rfl
    cases made with
    | parser r =>
      obtain ⟨hr, hkeep, hw₁⟩ := hmade r rfl
      -- the object is rebound before the run and once more after it
      refine (keeps_replace hkeep _ hw₁).bind fun _ w₂ hw₂ => ?_
      refine (hr s i env w₂ hi hw₂).bind fun result w₃ ⟨hw₃, hres⟩ => ?_
      exact (keeps_replace hkeep w₃ hw₃).bind fun _ w₄ hw₄ => returns_pure ⟨hw₄, hres⟩
    | _ => exact returns_throw
  | parser r =>
    rw [htarget] at hd
    exact hd s i env w hi hw
  | _ =>
    rw [htarget] at hd
    exact wellFormed_custom hd s i env w hi hw

/-- Objects that are sound in every world with `I`, as far as the tools they use are, are
well-formed at any depth. -/
theorem wellFormed_tools {apply : Tools φ → φ → List (Value φ) → Machine φ (Value φ)}
    (hl : LogKeeps I) (budget : Nat)
    (hcells : ∀ depth, (∀ r, WellFormed I ((tools apply budget depth).run r)) →
      ∀ w, I w → ∀ r, (w.cell r).behaviour.Sound (host (tools apply budget depth)) I)
    (depth : Nat) (r : Ref) : WellFormed I ((tools apply budget depth).run r) := by
  induction depth generalizing r with
  | zero => exact fun _ _ _ _ _ _ => returns_throw
  | succ depth ih =>
    intro s i env w hi hw
    have hsound := hcells depth ih w hw r
    exact Grammar.wellFormed_denote (quiet_host hl) _ hsound s i env w hi hw

/-- Every parser put together from well-formed parsers is well-formed, be it by the constructors, by
derived parsers or by an operator table, whatever the user's functions do that keep the invariant.
What `parse` reports lies inside the text. -/
theorem results_wellFormed (hl : LogKeeps I) :
    (∀ g : Grammar φ, g.Sound (host t) I → WellFormed I (g.denote (host t))) ∧
    (∀ d, SoundDeferral t I d → WellFormed I (runDeferred t d)) ∧
    ((host t).CallsKeep I → ∀ rows term, (∀ row ∈ rows, Grammar.SoundRow (host t) I row) →
      term.Sound (host t) I → WellFormed I ((Grammar.operatorTable rows term).denote (host t))) ∧
    (∀ r, WellFormed I (t.run r) → WellFormed I (t.run Ref.eof) → ∀ s env w, I w →
      Returns ((host t).parse r s env) w fun outcome _ =>
        ∀ report, outcome = .error report → report.Within 0 s.length) ∧
    ((host t).CallsKeep I → WellFormed I (t.run Ref.offset) → WellFormed I (t.run Ref.position) →
      ∀ g : Grammar φ, g.Derived (·.Sound (host t) I) → WellFormed I (g.denote (host t))) := by
  refine ⟨fun g hg => Grammar.wellFormed_denote (quiet_host hl) g hg,
    fun d hd => wellFormed_runDeferred hd, fun hc rows term hrows hterm => ?_,
    fun r hr he s env w hw => ?_, fun hc ho hposition g hg => ?_⟩
  · exact Grammar.wellFormed_denote (quiet_host hl) _ (Grammar.sound_operatorTable hc hrows hterm)
  · exact (Host.wellFormed_parse (quiet_host hl) hr he s env hw).mono fun _ _ h => h.2
  · exact Grammar.wellFormed_denote (quiet_host hl) g (hg.sound hc ho hposition)

/-! ## A deferred parser -/

section

open Script (Function applyFunction)

/-- A function that makes the shared parser of any character. -/
def anyCharThunk : Value Function :=
  .function (.closure none [] (.ref "p") [("p", .parser Ref.anyChar)])

/-- A world with a deferred parser of any character beside the shared parsers. -/
def deferring : World Function :=
  { World.initial with
    cells := World.initial.cells.push ⟨.deferred 0, .null⟩
    deferrals := #[.fresh anyCharThunk 5] }

/-- The parser objects have no parts, except for deferred ones that make parsers of any
character. -/
structure Partless (w : World Function) : Prop where
  cells : ∀ r, (w.cell r).behaviour ∈
    ([.offset, .position, .eof, .anyChar, .rest, .deferred 0] : List (Grammar Function))
  thunks : ∀ d, (w.deferral d).thunk = .null ∨ (w.deferral d).thunk = anyCharThunk
  targets : ∀ d, (w.deferral d).target = .null ∨ ∃ r, (w.deferral d).target = .parser r

theorem partless_deferring : Partless deferring where
  cells r := by
    match r with
    | 0 | 1 | 2 | 3 | 4 | 5 => simp [deferring, World.initial, World.cell]
    | _ + 6 => exact .tail _ (.tail _ (.tail _ (.tail _ (.head _))))
  thunks d := by
    cases d with
    | zero => exact Or.inr rfl
    | succ => exact Or.inl rfl
  targets d := by
    cases d with
    | zero => exact Or.inl rfl
    | succ => exact Or.inl rfl

theorem logKeeps_partless : LogKeeps Partless := fun _ _ h => ⟨h.cells, h.thunks, h.targets⟩

theorem Partless.resolve {w : World Function} (h : Partless w) (d : DeferralRef) (r : Ref) :
    Partless (w.resolve d (.parser r)) := by
  refine ⟨h.cells, fun d' => ?_, fun d' => ?_⟩ <;>
    rcases World.deferral_resolve w d d' (.parser r) with hd | hd <;> rw [hd]
  · exact h.thunks d'
  · exact h.thunks d'
  · exact Or.inr ⟨r, rfl⟩
  · exact h.targets d'

theorem rebindKeeps_partless (self r : Ref) : RebindKeeps Partless self r := by
  refine fun w h => ⟨fun r' => ?_, h.thunks, h.targets⟩
  rcases World.behaviour_rebind w self r' (w.cell r).behaviour with hr | hr
  · rw [hr]
    exact h.cells r
  · rw [hr]
    exact h.cells r'

/-- Whoever calls the function gets the shared parser, and the world stays as it is. -/
theorem returns_call_thunk (budget depth : Nat) {thunk : Value Function}
    (h : thunk = .null ∨ thunk = anyCharThunk) (w : World Function) :
    Returns ((tools (applyFunction []) budget depth).call thunk []) w fun made w' =>
      w' = w ∧ made = .parser Ref.anyChar := by
  cases depth with
  | zero => exact returns_throw
  | succ depth =>
    rcases h with rfl | rfl
    · exact returns_throw
    · rintro made w' hcall
      have heval : (tools (applyFunction []) budget (depth + 1)).call anyCharThunk [] w =
          .ok (.parser Ref.anyChar) w := by
        simp only [tools, anyCharThunk, callValue, applyFunction, Script.eval, Script.lookUp]
        rfl
      rw [heval] at hcall
      cases hcall
      exact ⟨rfl, rfl⟩

theorem soundDeferral_partless (budget depth : Nat) (d : DeferralRef)
    (hrun : ∀ r, WellFormed Partless ((tools (applyFunction []) budget depth).run r)) :
    SoundDeferral (tools (applyFunction []) budget depth) Partless d := by
  intro w hw
  rcases hw.targets d with htarget | ⟨r, htarget⟩
  · rw [htarget]
    refine (returns_call_thunk budget depth (hw.thunks d) w).mono ?_
    rintro _ _ ⟨rfl, rfl⟩ r ⟨⟩
    exact ⟨hrun _, rebindKeeps_partless _ _, hw.resolve d _⟩
  · rw [htarget]
    exact hrun r

theorem wellFormed_tools_partless (budget depth : Nat) (r : Ref) :
    WellFormed Partless ((tools (applyFunction []) budget depth).run r) := by
  refine wellFormed_tools logKeeps_partless budget (fun depth hrun w hw r => ?_) depth r
  have hr := hw.cells r
  simp only [List.mem_cons, List.not_mem_nil, or_false] at hr
  rcases hr with h | h | h | h | h | h <;> rw [h]
  case inr.inr.inr.inr.inr =>
    exact wellFormed_runDeferred (soundDeferral_partless budget depth 0 hrun)
  all_goals exact trivial

/-- Tools that run the objects of that world and call nothing. -/
def objectTools : Tools Function where
  call v _ := fault (.notCallable v)
  run := (tools (applyFunction []) 9 3).run
  budget := 9

theorem callsKeep_objectTools : (host objectTools).CallsKeep Partless :=
  fun _ _ _ _ => returns_throw

/-- Parsing `"ab"` with the deferred parser of one character, and a list of such characters. -/
theorem results_wellFormed_deferring :
    LogKeeps Partless ∧ Partless deferring ∧
      WellFormed Partless (runDeferred (tools (applyFunction []) 9 3) 0) ∧
      Returns ((host (tools (applyFunction []) 9 4)).parse 5 "ab".toList .null) deferring
        (fun outcome _ => ∀ report, outcome = .error report → report.Within 0 2) ∧
      WellFormed Partless ((Grammar.sepEndBy (.mark (.object 5)) (.object Ref.anyChar)).denote
        (host objectTools)) := by
  have hrun := wellFormed_tools_partless 9
  obtain ⟨-, hdeferred, -, -, -⟩ := results_wellFormed (t := tools (applyFunction []) 9 3)
    logKeeps_partless
  obtain ⟨-, -, -, hparse, -⟩ := results_wellFormed (t := tools (applyFunction []) 9 4)
    logKeeps_partless
  obtain ⟨-, -, -, -, hderived⟩ := results_wellFormed (t := objectTools) logKeeps_partless
  refine ⟨logKeeps_partless, partless_deferring,
    hdeferred 0 (soundDeferral_partless 9 3 0 (hrun 3)),
    hparse 5 (hrun 4 5) (hrun 4 Ref.eof) "ab".toList .null deferring partless_deferring, ?_⟩
  have hlist : (Grammar.sepEndBy (.mark (.object 5)) (.object Ref.anyChar)).Derived
      fun g => g.Sound (host objectTools) Partless :=
    .sepEndBy (.mark (.given (hrun 3 5))) (.given (hrun 3 Ref.anyChar))
  exact hderived callsKeep_objectTools (hrun 3 Ref.offset) (hrun 3 Ref.position) _ hlist

end

end Furthest.Machine
