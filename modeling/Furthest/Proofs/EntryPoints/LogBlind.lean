import Furthest.Proofs.Pairing.Property
import Furthest.Proofs.Returns

/-!
# The log is only written

A run adds to the log and never looks at it: from two worlds that are the same but for their logs it
comes to the same end, with worlds that are again the same but for their logs (`LogBlind`).  Steps
that read or change anything else of the world are checked one by one; behaviours and runs follow,
and so does every run whose functions do not look at the log (`Machine.logBlind_tools`).
-/

namespace Furthest

variable {φ α β : Type}

/-- A world without its log. -/
def World.unlogged (w : World φ) : World φ := { w with log := #[] }

/-- Two runs have come to related values, or halted alike, in worlds that are the same but for their
logs. -/
inductive EndAlike (Q : α → β → Prop) :
    EStateM.Result (Halt φ) (World φ) α → EStateM.Result (Halt φ) (World φ) β → Prop where
  | ok {a : α} {b : β} {w w' : World φ} :
    Q a b → w.unlogged = w'.unlogged → EndAlike Q (.ok a w) (.ok b w')
  | error {h : Halt φ} {w w' : World φ} :
    w.unlogged = w'.unlogged → EndAlike Q (.error h w) (.error h w')

/-- A computation does not look at the log. -/
def LogBlind (x : Machine φ α) : Prop :=
  ∀ w w', w.unlogged = w'.unlogged → EndAlike Eq (x w) (x w')

namespace EndAlike

theorem trans_eq {x y z : EStateM.Result (Halt φ) (World φ) α} (hxy : EndAlike Eq x y)
    (hzy : EndAlike Eq z y) : EndAlike Eq x z := by
  cases hxy with
  | ok hab hw =>
    cases hzy with
    | ok hcb hv => exact .ok (hab.trans hcb.symm) (hw.trans hv.symm)
  | error hw =>
    cases hzy with
    | error hv => exact .error (hw.trans hv.symm)

end EndAlike

namespace LogBlind

/-- It is enough to compare a run with the run without a log. -/
theorem of_unlogged {x : Machine φ α} (h : ∀ w, EndAlike Eq (x w) (x w.unlogged)) : LogBlind x :=
  fun w w' hw => (h w).trans_eq (hw ▸ h w')

theorem pure (a : α) : LogBlind (pure a : Machine φ α) := fun _ _ hw => .ok rfl hw

theorem throw (h : Halt φ) : LogBlind (throw h : Machine φ α) := fun _ _ hw => .error hw

theorem bind {x : Machine φ α} {f : α → Machine φ β} (hx : LogBlind x) (hf : ∀ a, LogBlind (f a)) :
    LogBlind (x >>= f) := by
  intro w w' hw
  have h := hx w w' hw
  rw [bind_apply, bind_apply]
  generalize x w = e at h
  generalize x w' = e' at h
  cases h with
  | ok hab hw =>
    cases hab
    exact hf _ _ _ hw
  | error hw => exact .error hw

theorem closed : Closed fun α (x : Machine φ α) => LogBlind x := ⟨pure, bind⟩

/-- Going on in a way that the log has no part in. -/
theorem get_bind {k : World φ → Machine φ β} (hk : ∀ w, k w = k w.unlogged)
    (h : ∀ w, LogBlind (k w)) : LogBlind (get >>= k) := by
  intro w w' hw
  have hkw : k w = k w' := by rw [hk w, hk w', hw]
  show EndAlike Eq (k w w) (k w' w')
  rw [hkw]
  exact h w' w w' hw

end LogBlind

namespace Machine

/-! ## Steps -/

theorem logBlind_cell (r : Ref) : LogBlind (cell r : Machine φ (Cell φ)) :=
  .of_unlogged fun _ => .ok rfl rfl

theorem logBlind_allocate (c : Cell φ) : LogBlind (allocate c : Machine φ Ref) :=
  .of_unlogged fun _ => .ok rfl rfl

theorem logBlind_allocateDeferred (thunk : Value φ) :
    LogBlind (allocateDeferred thunk : Machine φ Ref) :=
  .of_unlogged fun _ => .ok rfl rfl

theorem logBlind_replace (r substitute : Ref) : LogBlind (replace r substitute : Machine φ PUnit) :=
  .of_unlogged fun _ => .ok rfl rfl

theorem logBlind_clone (r : Ref) : LogBlind (clone r : Machine φ Ref) :=
  .of_unlogged fun _ => .ok rfl rfl

theorem logBlind_note (v : Value φ) : LogBlind (note v : Machine φ PUnit) :=
  .of_unlogged fun _ => .ok rfl rfl

theorem logBlind_modify {f : World φ → World φ}
    (h : ∀ w, (f w).unlogged = (f w.unlogged).unlogged) : LogBlind (modify f : Machine φ PUnit) :=
  .of_unlogged fun w => .ok rfl (h w)

section

variable [FunctionText φ]

theorem logBlind_describe (v : Value φ) : LogBlind (describe v : Machine φ String) :=
  .of_unlogged fun _ => .ok rfl rfl

theorem logBlind_display (v : Value φ) : LogBlind (display v : Machine φ String) :=
  .of_unlogged fun _ => .ok rfl rfl

theorem logBlind_log (entry : LogEntry φ) : LogBlind (log entry : Machine φ PUnit) :=
  logBlind_modify fun _ => rfl

end

/-! ## Runs -/

variable {t : Tools φ} {apply : Tools φ → φ → List (Value φ) → Machine φ (Value φ)}

/-- Whatever is run or called with these tools does not look at the log. -/
structure LogBlindTools (t : Tools φ) : Prop where
  run (r : Ref) (s : Input) (i : Nat) (env : Value φ) : LogBlind (t.run r s i env)
  call (v : Value φ) (args : List (Value φ)) : LogBlind (t.call v args)

/-- Functions do not look at the log if what they run and call does not. -/
def LogBlindFunctions (apply : Tools φ → φ → List (Value φ) → Machine φ (Value φ)) : Prop :=
  ∀ t : Tools φ, LogBlindTools t → ∀ f args, LogBlind (apply t f args)

theorem logBlind_adopt {use : Value φ → Machine φ α} (huse : ∀ v, LogBlind (use v))
    (d : DeferralRef) (self : Ref) (made : Value φ) : LogBlind (adopt use d self made) := by
  refine (logBlind_modify fun _ => rfl).bind fun _ => ?_
  cases made with
  | parser r =>
    exact (logBlind_replace self r).bind fun _ => (huse (.parser r)).bind fun result =>
      (logBlind_replace self r).bind fun _ => .pure result
  | _ => exact .throw _

theorem logBlind_useDeferred (ht : LogBlindTools t) (d : DeferralRef)
    (use : Value φ → Machine φ α) (huse : ∀ v, LogBlind (use v)) :
    LogBlind (useDeferred t use d) := by
  refine .get_bind (fun _ => rfl) fun w => ?_
  dsimp only
  split
  · exact (ht.call _ _).bind fun made => logBlind_adopt huse d _ made
  · exact huse _

variable [FunctionText φ]

theorem each_logBlind (ht : LogBlindTools t) : (host t).Each fun _ x => LogBlind x where
  object := ht.run
  deferred d s i env :=
    logBlind_useDeferred ht d _ (LogBlind.closed.runTarget .throw ht.run ht.call s i env)
  call := ht.call
  describe := logBlind_describe
  log := logBlind_log

theorem logBlind_denote (ht : LogBlindTools t) (g : Grammar φ) (s : Input) (i : Nat)
    (env : Value φ) : LogBlind (g.denote (host t) s i env) :=
  LogBlind.closed.denote .throw (fun _ _ => rfl) (each_logBlind ht) g s i env

theorem logBlind_callValue (happly : LogBlindFunctions apply) (ht : LogBlindTools t) (v : Value φ)
    (args : List (Value φ)) : LogBlind (callValue apply t v args) :=
  LogBlind.closed.callValue .throw logBlind_cell ht.call
    (fun d args => logBlind_useDeferred ht d _ fun v => ht.call v args) (logBlind_denote ht)
    (happly t ht) v args

/-- No run looks at the log if the functions that it calls do not. -/
theorem logBlind_tools (happly : LogBlindFunctions apply) (budget depth : Nat) :
    LogBlindTools (tools apply budget depth) := by
  induction depth with
  | zero => exact ⟨fun _ _ _ _ => .throw _, fun _ _ => .throw _⟩
  | succ depth ih =>
    exact ⟨fun r s i env => (logBlind_cell r).bind fun c => logBlind_denote ih c.behaviour s i env,
      fun v args => logBlind_callValue happly ih v args⟩

theorem logBlind_parse (ht : LogBlindTools t) (r : Ref) (s : Input) (env : Value φ) :
    LogBlind ((host t).parse r s env) :=
  LogBlind.closed.parse .throw (each_logBlind ht) r s env

end Machine

end Furthest
