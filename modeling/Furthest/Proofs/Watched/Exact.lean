import Furthest.Proofs.Pairing.Property
import Furthest.Proofs.Watched.Grammar
import Furthest.Proofs.Watched.Machine
import Furthest.Proofs.WellFormed.Derived

/-!
# Reports are exact

The report of a result is that of all failures of parsers without parts that happened in the run,
wherever they happened: the deepest offset and the labels there, the latest first.  This is
`Machine.report_exact`.  It holds of every run in which no parser was tried that words its report by
itself, and none is where all parser objects are plain and functions make only such.
-/

namespace Furthest

open Behaviour

variable {φ : Type}

/-- Every parser object is plain, and deferred parsers were made into parser objects. -/
structure World.Plain (w : World φ) : Prop where
  cells (r : Ref) : (w.cell r).behaviour.Plain
  targets (d : DeferralRef) :
    (w.deferral d).target = .null ∨ ∃ r, (w.deferral d).target = .parser r

namespace Machine

/-- What running a parser object does to the world by itself keeps `I`; where foreign parsers must
not be tried, `I` makes sure that there are none. -/
structure Stable (I : World φ → Prop) (native : Prop) : Prop where
  log (w : World φ) (line : String) : I w → I { w with log := w.log.push line }
  rebind (w : World φ) (r r' : Ref) : I w → I (w.rebind r (w.cell r').behaviour)
  resolve (w : World φ) (d : DeferralRef) (r : Ref) : I w → I (w.resolve d (.parser r))
  plain : native → ∀ w, I w → w.Plain

/-- Functions keep `I` if what they may run does. -/
def FunctionsKeep (apply : Tools φ → φ → List (Value φ) → Machine φ (Value φ))
    (I : World φ → Prop) : Prop :=
  ∀ t : Tools φ, (∀ r s i env w, I w → Returns (t.run r s i env) w fun _ w' => I w') →
    (∀ v args w, I w → Returns (t.call v args) w fun _ w' => I w') →
    ∀ f args w, I w → Returns (apply t f args) w fun _ w' => I w'

variable {I : World φ → Prop} {native : Prop} {t : Tools φ}
  {run : Ref → Behaviour (Watched (Machine φ)) φ}

theorem silent_lift {α : Type} {x : Machine φ α} (hx : ∀ w, I w → Returns x w fun _ w' => I w') :
    Silent I (x : Watched (Machine φ) α) :=
  fun _ w hw => (notes_lift (hx w hw)).mono fun _ _ _ h => ⟨h.2, h.1⟩

theorem returns_replace (hI : Stable I native) (r r' : Ref) {w : World φ} (hw : I w) :
    Returns (replace r r') w fun _ w' => I w' := by
  rintro _ _ ⟨⟩
  exact hI.rebind w r r' hw

theorem adds_called (hcall : ∀ v args w, I w → Returns (t.call v args) w fun _ w' => I w')
    (f : Value φ) :
    Adds I fun s i env => ((do
      Host.resultOf (← t.call f [.text (String.ofList s), .nat i, env]) :
        Machine φ (Result (Value φ))) : Watched (Machine φ) _) := by
  intro s i env es w hw
  refine (notes_lift ((hcall f _ w hw).bind (R := fun _ w' => I w') fun v w' hw' => ?_)).mono
    fun _ _ _ h => ⟨h.2, [], by rw [h.1, List.append_nil]⟩
  cases v with
  | result r => exact returns_pure hw'
  | _ => exact returns_throw

theorem tells_watchedDeferred (hI : Stable I native) (hrun : ∀ r, Tells I native (run r))
    (hcall : ∀ v args w, I w → Returns (t.call v args) w fun _ w' => I w') (d : DeferralRef) :
    Tells I native (watchedDeferred t run d) := by
  intro s i env es w hw
  have hget : Returns (get : Machine φ (World φ)) w fun w₁ w₂ => w = w₁ ∧ w = w₂ :=
    returns_get ⟨rfl, rfl⟩
  refine (notes_lift hget).bind ?_
  rintro _ es _ ⟨rfl, rfl, rfl⟩
  dsimp only
  cases htarget : (w.deferral d).target with
  | null =>
    refine (notes_lift (hcall _ [] w hw)).bind ?_
    rintro made es w₁ ⟨rfl, hw₁⟩
    have hresolve : Returns (modify (·.resolve d made) : Machine φ PUnit) w₁
        fun _ w₂ => w₁.resolve d made = w₂ := returns_modify rfl
    refine (notes_lift hresolve).bind ?_
    rintro _ es _ ⟨rfl, rfl⟩
    cases made with
    | parser r =>
      have hw₂ := hI.resolve w₁ d r hw₁
      refine (silent_lift (fun w hw => returns_replace hI _ r hw) es _ hw₂).bind ?_
      rintro _ es w₃ ⟨hw₃, rfl⟩
      refine (hrun r s i env es w₃ hw₃).bind ?_
      rintro result _ w₄ ⟨hw₄, new, rfl, htold⟩
      refine (silent_lift (fun w hw => returns_replace hI _ r hw) _ w₄ hw₄).bind ?_
      rintro _ es w₅ ⟨hw₅, rfl⟩
      exact notes_pure ⟨hw₅, new, rfl, htold⟩
    | _ => exact notes_throw
  | parser r => exact hrun r s i env es w hw
  | _ =>
    -- something else than a parser was made, and now it is called
    have hn : ¬native := by
      intro hn
      rcases (hI.plain hn w hw).targets d with h | ⟨r, h⟩ <;> rw [htarget] at h <;> cases h
    exact tells_foreign hn (adds_called hcall _) s i env es w hw

/-- Every world is fine where foreign parsers may be tried. -/
theorem stable_true : Stable (φ := φ) (fun _ => True) False :=
  ⟨fun _ _ _ => trivial, fun _ _ _ _ => trivial, fun _ _ _ _ => trivial, nofun⟩

theorem stable_plain : Stable (φ := φ) World.Plain True where
  log _ _ h := ⟨h.cells, h.targets⟩
  rebind w r r' h := by
    refine ⟨fun r₂ => ?_, h.targets⟩
    rcases World.behaviour_rebind w r r₂ (w.cell r').behaviour with hr | hr
    · rw [hr]
      exact h.cells r'
    · rw [hr]
      exact h.cells r₂
  resolve w d r h := by
    refine ⟨h.cells, fun d' => ?_⟩
    rcases World.deferral_resolve w d d' (.parser r) with hd | hd
    · rw [hd]
      exact Or.inr ⟨r, rfl⟩
    · rw [hd]
      exact h.targets d'
  plain _ _ h := h

variable [FunctionText φ]

theorem telling_watchedHost (hI : Stable I native) (hrun : ∀ r, Tells I native (run r))
    (hcall : ∀ v args w, I w → Returns (t.call v args) w fun _ w' => I w') :
    (watchedHost t run).Telling I native where
  object := hrun
  deferred := tells_watchedDeferred hI hrun hcall
  call v args := silent_lift (hcall v args)
  describe v := silent_lift fun w hw => by
    rintro _ _ ⟨⟩
    exact hw
  log entry := silent_lift fun w hw => returns_modify (hI.log w _ hw)

omit [FunctionText φ] in
theorem keeps_useDeferred {α : Type} {use : Value φ → Machine φ α} (hI : Stable I native)
    (hcall : ∀ v args, Keeps I (t.call v args)) (huse : ∀ v, Keeps I (use v)) (d : DeferralRef) :
    Keeps I (useDeferred t use d) := by
  intro w hw
  refine (returns_get (Q := fun _ => I) hw).bind fun w₁ w hw => ?_
  dsimp only
  split
  · refine (hcall _ [] w hw).bind fun made w₁ hw₁ => ?_
    cases made with
    | parser r =>
      refine (returns_modify (Q := fun _ => I) (hI.resolve w₁ d r hw₁)).bind fun _ w₂ hw₂ => ?_
      refine (returns_replace hI _ r hw₂).bind fun _ w₃ hw₃ => ?_
      refine (huse _ w₃ hw₃).bind fun _ w₄ hw₄ => ?_
      exact (returns_replace hI _ r hw₄).bind fun _ _ hw₅ => returns_pure hw₅
    | _ => exact (returns_any _ _).bind fun _ _ _ => returns_throw
  · exact huse _ w hw

/-- Calls keep `I` one depth later if runs and calls do. -/
theorem keeps_callValue {apply : Tools φ → φ → List (Value φ) → Machine φ (Value φ)}
    (hI : Stable I native) (happly : FunctionsKeep apply I)
    (hrun : ∀ r s i env, Keeps I (t.run r s i env)) (hcall : ∀ v args, Keeps I (t.call v args))
    (v : Value φ) (args : List (Value φ)) : Keeps I (callValue apply t v args) := by
  have hthrow : ∀ {α : Type} (h : Halt φ), Keeps I (throw h : Machine φ α) :=
    fun _ _ _ => returns_throw
  have hcell : ∀ r, Keeps I (cell r : Machine φ (Cell φ)) := by
    rintro r w hw _ _ ⟨⟩
    exact hw
  have hhost : (host t).Each fun _ => Keeps I :=
    { object := hrun
      deferred := fun d s i env => keeps_useDeferred hI hcall
        ((closed_keeps I).runTarget hthrow hrun hcall s i env) d
      call := hcall
      describe := by
        rintro v w hw _ _ ⟨⟩
        exact hw
      log := fun entry w hw => returns_modify (hI.log w _ hw) }
  exact (closed_keeps I).callValue hthrow hcell hcall
    (fun d args => keeps_useDeferred hI hcall (fun v => hcall v args) d)
    ((closed_keeps I).denote hthrow (fun _ _ => rfl) hhost)
    (happly t (fun r s i env => hrun r s i env) hcall) v args

/-- Watched runs of any depth tell what happens, and plain runs keep `I`. -/
theorem tells_watchedRun {apply : Tools φ → φ → List (Value φ) → Machine φ (Value φ)}
    (hI : Stable I native) (happly : FunctionsKeep apply I) (budget depth : Nat) :
    (∀ r, Tells I native (watchedRun apply budget depth r)) ∧
      ∀ v args w, I w → Returns ((tools apply budget depth).call v args) w fun _ w' => I w' := by
  induction depth with
  | zero => exact ⟨fun _ _ _ _ _ _ _ => notes_throw, fun _ _ _ _ => returns_throw⟩
  | succ depth ih =>
    obtain ⟨hrun, hcall⟩ := ih
    refine ⟨fun r s i env es w hw => ?_, fun v args w hw => ?_⟩
    · have hcell : Returns (cell r) w fun c w' => w = w' ∧ w.cell r = c := by
        rintro _ _ ⟨⟩
        exact ⟨rfl, rfl⟩
      refine (notes_lift hcell).bind ?_
      rintro _ es _ ⟨rfl, rfl, rfl⟩
      exact Grammar.tells_denoteWith (telling_watchedHost hI hrun hcall) _
        (fun hn => (hI.plain hn w hw).cells r) s i env es w hw
    · refine keeps_callValue hI happly (fun r s i env w hw result w' h => ?_) hcall v args w hw
      obtain ⟨events, hev⟩ := watchedRun_eq apply budget depth r s i env w result w' h
      exact (hrun r s i env [] w hw _ _ hev).1

/-- The report of what a run returns is that of the failures noted in it. -/
theorem report_exact (apply : Tools φ → φ → List (Value φ) → Machine φ (Value φ))
    (budget depth : Nat) (r : Ref) (s : Input) (i : Nat) (env : Value φ) (w : World φ) :
    Returns ((tools apply budget depth).run r s i env) w fun result w' =>
      ∃ events, (watchedRun apply budget depth r s i env).run [] w = .ok (result, events) w' ∧
        (Event.foreign ∉ events → result.toReport = .ofFailures (Event.failures events)) ∧
        (FunctionsKeep apply World.Plain → w.Plain → Event.foreign ∉ events) := by
  intro result w' h
  obtain ⟨events, hev⟩ := watchedRun_eq apply budget depth r s i env w result w' h
  refine ⟨events, hev, fun hf => ?_, fun happly hw => ?_⟩
  · have hkeep : FunctionsKeep apply fun _ => True := fun _ _ _ _ _ _ _ _ _ _ => trivial
    have htells := (tells_watchedRun stable_true hkeep budget depth).1
    obtain ⟨-, new, hnew, htold⟩ := htells r s i env [] w trivial _ _ hev
    rw [List.nil_append] at hnew
    subst hnew
    exact htold.report_eq hf
  · have htells := (tells_watchedRun stable_plain happly budget depth).1
    obtain ⟨-, new, hnew, htold⟩ := htells r s i env [] w hw _ _ hev
    rw [List.nil_append] at hnew
    subst hnew
    exact htold.not_foreign trivial

end Machine

end Furthest
