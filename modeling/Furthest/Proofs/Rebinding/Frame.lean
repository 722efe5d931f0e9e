import Furthest.Proofs.Pairing.Property
import Furthest.Proofs.Returns

/-!
# What a run rebinds

A run rebinds an object only where it makes a deferred parser: the object that this parser was made
with.  A deferred parser that was made with an object and that is yet to be made `Awaits` it.  A
`Frame` of an object tells that the way from one world to another has no new deferred parser await
the object, and that the object does what it did unless one that awaited it was made.

Every run has this frame if the functions that it calls do (`Machine.frames_tools`).
-/

namespace Furthest

variable {φ : Type}

namespace World

/-- A deferred parser was made with the object `o` and has not been made into anything yet. -/
def Awaits (w : World φ) (o : Ref) (d : DeferralRef) : Prop :=
  ∃ x, w.deferrals[d]? = some x ∧ x.self = o ∧ x.target = .null

theorem awaits_of_null {w : World φ} {d : DeferralRef} (hd : d < w.deferrals.size)
    (h : (w.deferral d).target = .null) : w.Awaits (w.deferral d).self d := by
  refine ⟨w.deferrals[d], Array.getElem?_eq_getElem hd, ?_, ?_⟩
  · simp [deferral, Array.getElem?_eq_getElem hd]
  · simpa [deferral, Array.getElem?_eq_getElem hd] using h

/-- The function of a deferred parser that there is none of is nothing. -/
theorem thunk_of_le {w : World φ} {d : DeferralRef} (hd : w.deferrals.size ≤ d) :
    (w.deferral d).thunk = .null := by
  simp only [deferral, Array.getElem?_eq_none hd]
  rfl

theorem awaits_resolve {w : World φ} {o : Ref} {d d' : DeferralRef} {v : Value φ}
    (hv : v ≠ .null) : (w.resolve d v).Awaits o d' ↔ d ≠ d' ∧ w.Awaits o d' := by
  by_cases h : d = d'
  · subst h
    refine ⟨?_, fun h => absurd rfl h.1⟩
    rintro ⟨x, hx, -, hnull⟩
    rw [resolve, Array.getElem?_modify, if_pos rfl, Option.map_eq_some_iff] at hx
    obtain ⟨x, -, rfl⟩ := hx
    exact absurd hnull hv
  · simp [Awaits, resolve, Array.getElem?_modify, h]

end World

/-- From one world to another, an object was rebound only by deferred parsers that awaited it. -/
structure Frame (o : Ref) (w w' : World φ) : Prop where
  cells_le : w.cells.size ≤ w'.cells.size
  awaited {d : DeferralRef} : w'.Awaits o d → w.Awaits o d
  behaviour_eq : (∀ d, w.Awaits o d → w'.Awaits o d) →
    (w'.cell o).behaviour = (w.cell o).behaviour

namespace Frame

variable {o : Ref} {w w' w'' : World φ}

theorem refl (o : Ref) (w : World φ) : Frame o w w := ⟨Nat.le_refl _, id, fun _ => rfl⟩

theorem trans (h : Frame o w w') (h' : Frame o w' w'') : Frame o w w'' where
  cells_le := h.cells_le.trans h'.cells_le
  awaited := h.awaited ∘ h'.awaited
  behaviour_eq hkept := by
    have hsecond : ∀ d, w'.Awaits o d → w''.Awaits o d := fun d hd => hkept d (h.awaited hd)
    have hfirst : ∀ d, w.Awaits o d → w'.Awaits o d := fun d hd => h'.awaited (hkept d hd)
    exact (h'.behaviour_eq hsecond).trans (h.behaviour_eq hfirst)

/-- Where deferred parsers stay as they are, it is enough that the object does. -/
theorem of_deferrals_eq (hc : w.cells.size ≤ w'.cells.size) (hd : w'.deferrals = w.deferrals)
    (ho : (w'.cell o).behaviour = (w.cell o).behaviour) : Frame o w w' := by
  refine ⟨hc, ?_, fun _ => ho⟩
  rintro d ⟨x, hx, hself, hnull⟩
  exact ⟨x, hd ▸ hx, hself, hnull⟩

theorem rebind {r : Ref} (h : r ≠ o) (g : Grammar φ) : Frame o w (w.rebind r g) := by
  refine of_deferrals_eq ?_ rfl (by rw [World.cell_rebind_of_ne h])
  simp [World.rebind]

theorem push (ho : o < w.cells.size) (c : Cell φ) :
    Frame o w { w with cells := w.cells.push c } := by
  refine of_deferrals_eq (by simp) rfl ?_
  simp [World.cell, Array.getElem?_push, Nat.ne_of_lt ho]

/-- A new deferred parser awaits an object that is new too. -/
theorem defer (ho : o < w.cells.size) (c : Cell φ) (thunk : Value φ) :
    Frame o w { w with
      cells := w.cells.push c
      deferrals := w.deferrals.push (.fresh thunk w.cells.size) } := by
  refine ⟨by simp, ?_, fun _ => by simp [World.cell, Array.getElem?_push, Nat.ne_of_lt ho]⟩
  rintro d ⟨x, hx, rfl, hnull⟩
  simp only [Array.getElem?_push] at hx
  split at hx
  · obtain rfl := Option.some.inj hx
    exact absurd ho (Nat.lt_irrefl _)
  · exact ⟨x, hx, rfl, hnull⟩

theorem resolve (d : DeferralRef) {v : Value φ} (hv : v ≠ .null) : Frame o w (w.resolve d v) :=
  ⟨Nat.le_refl _, fun h => ((World.awaits_resolve hv).1 h).2, fun _ => rfl⟩

end Frame

/-- A frame that reaches past the making of a deferred parser, which was made with the object
`owner`. -/
structure FrameMade (o owner : Ref) (d : DeferralRef) (w w' : World φ) : Prop
    extends Frame o w w' where
  made : owner = o → ¬w'.Awaits o d

namespace FrameMade

variable {o owner : Ref} {d : DeferralRef} {w w' w'' : World φ}

theorem trans (h : FrameMade o owner d w w') (h' : Frame o w' w'') : FrameMade o owner d w w'' :=
  ⟨h.toFrame.trans h', fun howner hd => h.made howner (h'.awaited hd)⟩

/-- A deferred parser that was made may rebind the object that it was made with. -/
theorem rebind (h : FrameMade o owner d w w') (hd : w.Awaits owner d) (g : Grammar φ) :
    FrameMade o owner d w (w'.rebind owner g) := by
  by_cases howner : owner = o
  · subst howner
    exact ⟨⟨h.cells_le.trans (by simp [World.rebind]), h.awaited,
      fun hkept => absurd (hkept d hd) (h.made rfl)⟩, h.made⟩
  · exact h.trans (.rebind howner g)

end FrameMade

namespace Machine

/-! ## Computations with a frame -/

/-- Whenever a computation returns, the object has a frame. -/
def Frames (o : Ref) {α : Type} (x : Machine φ α) : Prop :=
  ∀ w, o < w.cells.size → Returns x w fun _ w' => Frame o w w'

section

variable {o : Ref} {α β : Type} {x : Machine φ α}

theorem frames_pure (a : α) : Frames o (pure a : Machine φ α) :=
  fun w _ => returns_pure (.refl o w)

theorem frames_throw (h : Halt φ) : Frames o (throw h : Machine φ α) := fun _ _ => returns_throw

theorem frames_get : Frames o (get : Machine φ (World φ)) := fun w _ => returns_get (.refl o w)

theorem frames_modify {f : World φ → World φ} (h : ∀ w, o < w.cells.size → Frame o w (f w)) :
    Frames o (modify f : Machine φ PUnit) :=
  fun w ho => returns_modify (h w ho)

theorem Frames.bind (hx : Frames o x) {f : α → Machine φ β} (hf : ∀ a, Frames o (f a)) :
    Frames o (x >>= f) := fun w ho =>
  (hx w ho).bind fun a _ hw =>
    (hf a _ (Nat.lt_of_lt_of_le ho hw.cells_le)).mono fun _ _ => hw.trans

theorem closed_frames (o : Ref) : Closed fun α (x : Machine φ α) => Frames o x :=
  ⟨frames_pure, fun hx hf => Frames.bind hx hf⟩

theorem frames_cell (r : Ref) : Frames o (cell r : Machine φ (Cell φ)) :=
  Frames.bind frames_get fun _ => frames_pure _

theorem frames_replace {r : Ref} (h : r ≠ o) (substitute : Ref) :
    Frames o (replace r substitute : Machine φ PUnit) :=
  (frames_cell substitute).bind fun _ => frames_modify fun _ _ => .rebind h _

theorem frames_clone (r : Ref) : Frames o (clone r : Machine φ Ref) := by
  rintro w ho _ _ ⟨⟩
  exact .push ho _

theorem frames_allocate (c : Cell φ) : Frames o (allocate c : Machine φ Ref) := by
  rintro w ho _ _ ⟨⟩
  exact .push ho c

theorem frames_allocateDeferred (thunk : Value φ) :
    Frames o (allocateDeferred thunk : Machine φ Ref) := by
  rintro w ho _ _ ⟨⟩
  exact .defer ho _ thunk

end

/-! ## Runs -/

section

variable {o : Ref} {t : Tools φ} {apply : Tools φ → φ → List (Value φ) → Machine φ (Value φ)}

/-- Whatever is run or called with these tools has a frame. -/
structure FramesTools (o : Ref) (t : Tools φ) : Prop where
  run (r : Ref) (s : Input) (i : Nat) (env : Value φ) : Frames o (t.run r s i env)
  call (v : Value φ) (args : List (Value φ)) : Frames o (t.call v args)

theorem frames_adopt {α : Type} {use : Value φ → Machine φ α} (huse : ∀ v, Frames o (use v))
    {d : DeferralRef} {self : Ref} {w w₁ : World φ} (hd : w.Awaits self d) (hw : Frame o w w₁)
    (ho : o < w.cells.size) (made : Value φ) :
    Returns (adopt use d self made) w₁ fun _ w' => Frame o w w' := by
  cases made with
  | parser r =>
    have hparser : (.parser r : Value φ) ≠ .null := nofun
    have hreplace : ∀ w₂, FrameMade o self d w w₂ →
        Returns (replace self r) w₂ fun _ => FrameMade o self d w := by
      rintro w₂ hw₂ _ _ ⟨⟩
      exact hw₂.rebind hd _
    have hrun : ∀ w₂, FrameMade o self d w w₂ →
        Returns (use (.parser r)) w₂ fun _ => FrameMade o self d w := fun w₂ hw₂ =>
      (huse _ w₂ (Nat.lt_of_lt_of_le ho hw₂.cells_le)).mono fun _ _ => hw₂.trans
    have hresolve : FrameMade o self d w (w₁.resolve d (.parser r)) :=
      ⟨hw.trans (.resolve d nofun), fun _ h => ((World.awaits_resolve hparser).1 h).1 rfl⟩
    refine Returns.bind (returns_modify (Q := fun _ => FrameMade o self d w) hresolve)
      fun _ w₂ hw₂ => ?_
    refine (hreplace w₂ hw₂).bind fun _ w₃ hw₃ => (hrun w₃ hw₃).bind fun _ w₄ hw₄ => ?_
    exact (hreplace w₄ hw₄).bind fun _ _ hw₅ => returns_pure hw₅.toFrame
  | _ =>
    exact Returns.bind (returns_modify (Q := fun _ _ => True) trivial) fun _ _ _ => returns_throw

/-- Calls of nothing fault. -/
def FaultsOnNull (t : Tools φ) : Prop :=
  ∀ args w, Returns (t.call .null args) w fun _ _ => False

theorem frames_useDeferred {α : Type} (ht : FramesTools o t) (hnull : FaultsOnNull t)
    (d : DeferralRef) (use : Value φ → Machine φ α) (huse : ∀ v, Frames o (use v)) :
    Frames o (useDeferred t use d) := by
  intro w ho
  have hget : Returns (get : Machine φ (World φ)) w fun w₁ w₂ => w = w₁ ∧ w = w₂ :=
    returns_get ⟨rfl, rfl⟩
  refine hget.bind ?_
  rintro _ _ ⟨rfl, rfl⟩
  dsimp only
  split
  · next htarget =>
    by_cases hd : d < w.deferrals.size
    · have hawaits := World.awaits_of_null hd htarget
      exact (ht.call _ _ w ho).bind fun made w₁ hw₁ => frames_adopt huse hawaits hw₁ ho made
    · rw [World.thunk_of_le (Nat.le_of_not_lt hd)]
      exact (hnull [] w).bind fun _ _ h => h.elim
  · exact huse _ w ho

/-- Functions have a frame if whatever they run and call has. -/
def FramesFunctions (apply : Tools φ → φ → List (Value φ) → Machine φ (Value φ)) (o : Ref) : Prop :=
  ∀ t : Tools φ, FramesTools o t → ∀ f args, Frames o (apply t f args)

variable [FunctionText φ]

theorem frames_log (entry : LogEntry φ) : Frames o (log entry : Machine φ PUnit) :=
  frames_modify fun _ _ => .of_deferrals_eq (Nat.le_refl _) rfl rfl

theorem frames_describe (v : Value φ) : Frames o (describe v : Machine φ String) :=
  Frames.bind frames_get fun _ => frames_pure _

theorem each_frames (ht : FramesTools o t) (hnull : FaultsOnNull t) :
    (host t).Each fun _ x => Frames o x where
  object := ht.run
  deferred d s i env := frames_useDeferred ht hnull d _
    ((closed_frames o).runTarget frames_throw ht.run ht.call s i env)
  call := ht.call
  describe := frames_describe
  log := frames_log

theorem frames_denote (ht : FramesTools o t) (hnull : FaultsOnNull t) (g : Grammar φ) (s : Input)
    (i : Nat) (env : Value φ) : Frames o (g.denote (host t) s i env) :=
  (closed_frames o).denote frames_throw (fun _ _ => rfl) (each_frames ht hnull) g s i env

theorem frames_callValue (happly : FramesFunctions apply o) (ht : FramesTools o t)
    (hnull : FaultsOnNull t) (v : Value φ) (args : List (Value φ)) :
    Frames o (callValue apply t v args) :=
  (closed_frames o).callValue frames_throw frames_cell ht.call
    (fun d args => frames_useDeferred ht hnull d _ fun v => ht.call v args) (frames_denote ht hnull)
    (happly t ht) v args

theorem faultsOnNull_tools (budget depth : Nat) : FaultsOnNull (tools apply budget depth) := by
  intro args w
  cases depth <;> exact returns_throw

/-- Every run has a frame if the functions that it calls have. -/
theorem frames_tools (happly : FramesFunctions apply o) (budget depth : Nat) :
    FramesTools o (tools apply budget depth) := by
  induction depth with
  | zero => exact ⟨fun _ _ _ _ => frames_throw _, fun _ _ => frames_throw _⟩
  | succ depth ih =>
    have hnull : FaultsOnNull (tools apply budget depth) := faultsOnNull_tools budget depth
    refine ⟨fun r s i env => ?_, fun v args => frames_callValue happly ih hnull v args⟩
    exact (frames_cell r).bind fun c => frames_denote ih hnull c.behaviour s i env

theorem frames_parse (happly : FramesFunctions apply o) (budget depth : Nat) (r : Ref) (s : Input)
    (env : Value φ) : Frames o ((host (tools apply budget depth)).parse r s env) :=
  (closed_frames o).parse frames_throw
    (each_frames (frames_tools happly budget depth) (faultsOnNull_tools budget depth)) r s env

end

end Machine

end Furthest
