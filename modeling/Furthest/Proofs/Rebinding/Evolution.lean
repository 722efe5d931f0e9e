import Furthest.Proofs.Deferred.History
import Furthest.Proofs.Pairing.Property
import Furthest.Proofs.Rebinding.Sharing
import Furthest.Proofs.Watched.Exact

/-!
# What objects do after a run

A run rebinds the objects of the deferred parsers that it makes, and each twice.  In between such
an object does what the new object did before it was run, which may be a deferred parser once more.
The run of the new object makes that one as well, and the new object `Settles` on what it was made
into.  This is why the second rebinding takes nothing away (`Moves.adopt`), and why after a run
every object still meets what it did before (`Machine.moves_tools`).

This needs that no object of a deferred parser was replaced by hand before the first use of the
parser, apart from those in `X`, which are never used.
-/

namespace Furthest

variable {φ : Type} {I : World φ → Prop} {X : DeferralRef → Prop}

/-- Objects that no deferred parser awaits do what they did, up to deferred parsers in `X`, and the
others share what they did. -/
structure Evolves (X : DeferralRef → Prop) (w w' : World φ) : Prop where
  intact : w'.Intact X
  kept {o : Ref} : o < w.cells.size → (∀ d, w.Awaits o d → X d) →
    (w'.cell o).behaviour = (w.cell o).behaviour
  shares : Shares w w'

/-- The second world comes from the first by building and running parsers. -/
structure Moves (I : World φ → Prop) (X : DeferralRef → Prop) (w w' : World φ) : Prop
    extends Lasts w w' where
  holds : I w'
  evolves : w.Intact X → w'.Unmade X → Evolves X w w'

/-- A deferred parser was made into an object that does what the object `r` does. -/
def World.Settled (w : World φ) (r : Ref) (d : DeferralRef) : Prop :=
  ∃ u, (w.deferral d).target = .parser u ∧ u < w.cells.size ∧
    (w.cell r).behaviour = (w.cell u).behaviour

/-- Deferred parsers that awaited the object were made, and it does what they were made into. -/
def Settles (X : DeferralRef → Prop) (r : Ref) (w w' : World φ) : Prop :=
  ∀ d, w.Awaits r d → ¬X d → w'.Settled r d

namespace Moves

variable {w w' w'' : World φ}

theorem refl (hw : I w) : Moves I X w w where
  toLasts := .refl w
  holds := hw
  evolves hintact _ := ⟨hintact, fun _ _ => rfl, .of_behaviour_eq fun _ _ => rfl⟩

theorem trans (h : Moves I X w w') (h' : Moves I X w' w'') : Moves I X w w'' where
  toLasts := h.toLasts.trans h'.toLasts
  holds := h'.holds
  evolves hintact hunmade := by
    have hfirst := h.evolves hintact (h'.unmade hunmade)
    have hsecond := h'.evolves hfirst.intact hunmade
    refine ⟨hsecond.intact, fun ho hX => ?_,
      hfirst.shares.trans h.toLasts hsecond.shares h'.toLasts⟩
    refine (hsecond.kept (Nat.lt_of_lt_of_le ho h.cells_le) fun d hd => ?_).trans
      (hfirst.kept ho hX)
    exact hX d (h.awaited ho hd)

/-- Where objects only come to what there was, and nothing that there was awaits them. -/
theorem of_behaviour_eq (hl : Lasts w w') (hw' : I w')
    (hb : ∀ o, o < w.cells.size → (w'.cell o).behaviour = (w.cell o).behaviour)
    (hnew : w.Intact X → ∀ d o, ¬o < w.cells.size → w'.Awaits o d → ¬X d →
      (w'.cell o).behaviour = .deferred d) : Moves I X w w' where
  toLasts := hl
  holds := hw'
  evolves hintact _ := by
    refine ⟨fun d o hd hX => ?_, fun ho _ => hb _ ho, .of_behaviour_eq hb⟩
    by_cases ho : o < w.cells.size
    · rw [hb o ho]
      exact hintact d o (hl.awaited ho hd) hX
    · exact hnew hintact d o ho hd hX

theorem log {line : String} (hw' : I { w with log := w.log.push line }) :
    Moves I X w { w with log := w.log.push line } :=
  .of_behaviour_eq (.of_deferrals_eq (Nat.le_refl _) rfl) hw' (fun _ _ => rfl)
    fun hintact _ _ ho hd hX => absurd (hintact.lt hd hX) ho

theorem push {c : Cell φ} (hw' : I { w with cells := w.cells.push c }) :
    Moves I X w { w with cells := w.cells.push c } := by
  refine .of_behaviour_eq (.of_deferrals_eq (by simp) rfl) hw' (fun o ho => ?_)
    fun hintact _ _ ho hd hX => absurd (hintact.lt hd hX) ho
  rw [World.cell_push, if_neg (Nat.ne_of_lt ho)]

/-- A new deferred parser is what its object does. -/
theorem defer {thunk : Value φ} (hw' : I { w with
      cells := w.cells.push ⟨.deferred w.deferrals.size, .null⟩
      deferrals := w.deferrals.push (.fresh thunk w.cells.size) }) :
    Moves I X w { w with
      cells := w.cells.push ⟨.deferred w.deferrals.size, .null⟩
      deferrals := w.deferrals.push (.fresh thunk w.cells.size) } := by
  refine .of_behaviour_eq ⟨by simp, fun {d r} htarget => ?_,
    fun ho => (Frame.defer ho _ thunk).awaited⟩ hw' (fun o ho => ?_) ?_
  · have hd : d < w.deferrals.size := by
      by_contra hd
      rw [World.deferral, Array.getElem?_eq_none (Nat.le_of_not_lt hd)] at htarget
      cases htarget
    simpa [World.deferral, Array.getElem?_push, Nat.ne_of_lt hd] using htarget
  · simp [World.cell, Array.getElem?_push, Nat.ne_of_lt ho]
  · rintro hintact d o ho ⟨x, hx, rfl, hnull⟩ hX
    simp only [Array.getElem?_push] at hx
    split at hx
    · obtain rfl := Option.some.inj hx
      simp_all [World.cell, Deferral.fresh]
    · exact absurd (hintact.lt ⟨x, hx, rfl, hnull⟩ hX) ho

end Moves

/-! ## A deferred parser is made -/

/-- The world in which a deferred parser was made into an object, and its own object does what that
one does. -/
def World.adopted (w : World φ) (d : DeferralRef) (self r : Ref) : World φ :=
  (w.resolve d (.parser r)).rebind self (w.cell r).behaviour

section

variable {w w' : World φ} {self r : Ref} {d : DeferralRef}

theorem Lasts.adopted (hd : w.Awaits self d) (r : Ref) : Lasts w (w.adopted d self r) :=
  (Lasts.resolve hd r).trans (.rebind _ self _)

theorem World.behaviour_adopted_of_ne {o : Ref} (h : o ≠ self) :
    ((w.adopted d self r).cell o).behaviour = (w.cell o).behaviour := by
  rw [adopted, cell_rebind_of_ne h.symm, cell_resolve]

theorem World.target_adopted (hd : w.Awaits self d) (r : Ref) :
    ((w.adopted d self r).deferral d).target = .parser r := by
  rw [adopted, deferral_rebind, deferral_resolve_self hd.deferral_eq.1]

/-- An object that takes what another one does then does the same. -/
theorem World.behaviour_rebind_eq (hself : self < w.cells.size) (r : Ref) :
    ((w.rebind self (w.cell r).behaviour).cell self).behaviour =
      ((w.rebind self (w.cell r).behaviour).cell r).behaviour := by
  rw [cell_rebind_self hself]
  rcases behaviour_rebind w self r (w.cell r).behaviour with h | h <;> exact h.symm

theorem World.settled_rebind (hself : self < w.cells.size)
    (hd : (w.deferral d).target = .parser r) (hr : r < w.cells.size) :
    (w.rebind self (w.cell r).behaviour).Settled self d :=
  ⟨r, hd, by simpa [rebind] using hr, behaviour_rebind_eq hself r⟩

/-- Nothing awaits the object of a deferred parser that was made, but what is left out. -/
theorem World.Intact.awaits_adopted (h : w.Intact X) (hd : w.Awaits self d) (hX : ¬X d)
    (d' : DeferralRef) (hd' : (w.adopted d self r).Awaits self d') : X d' :=
  h.awaits_resolve hd hX (v := .parser r) nofun d' hd'

theorem World.Intact.adopted (h : w.Intact X) (hd : w.Awaits self d) (hX : ¬X d) (r : Ref) :
    (w.adopted d self r).Intact X := by
  have hparser : (.parser r : Value φ) ≠ .null := nofun
  exact (h.resolve d hparser).rebind (h.awaits_resolve hd hX hparser) _

/-- At first the object of a deferred parser takes the behaviour that the parser passes to. -/
theorem Shares.adopted (h : w.Intact X) (hd : w.Awaits self d) (hX : ¬X d)
    (hr : r < w.cells.size) : Shares w (w.adopted d self r) := by
  have hrebind : Shares (w.resolve d (.parser r)) (w.adopted d self r) :=
    .rebind (.inr ⟨d, r, h d self hd hX, World.target_adopted hd r, hr, rfl⟩)
  exact hrebind

/-- After the run of the new object, the object of the deferred parser either does what the new
object does, or is at a deferred parser that the run has made. -/
theorem Shares.settled (h : w.Intact X) (hself : ∀ d, w.Awaits self d → X d)
    (hlt : self < w.cells.size) (hr : r < w.cells.size)
    (hsame : (w.cell self).behaviour = (w.cell r).behaviour) (hrun : Evolves X w w')
    (hsettles : Settles X r w w') : Shares w' (w'.rebind self (w'.cell r).behaviour) := by
  have hkept : (w'.cell self).behaviour = (w.cell r).behaviour :=
    (hrun.kept hlt hself).trans hsame
  refine .rebind ?_
  by_cases hall : ∀ d, w.Awaits r d → X d
  · exact .inl (hkept.trans (hrun.kept hr hall).symm)
  · push Not at hall
    obtain ⟨d, hd, hX⟩ := hall
    obtain ⟨u, htarget, hu, hdoes⟩ := hsettles d hd hX
    exact .inr ⟨d, u, hkept.trans (h d r hd hX), htarget, hu, hdoes.symm⟩

variable {w₁ : World φ}

/-- A deferred parser is made, the new object is run, and the object of the deferred parser is
rebound once more. -/
theorem Moves.adopt (h : Moves I X w w₁) (hd : w.Awaits self d) (hd₁ : w₁.Awaits self d)
    (hr : r < w₁.cells.size) (hrun : Moves I X (w₁.adopted d self r) w')
    (hsettles : (w₁.adopted d self r).Intact X → w'.Unmade X →
      Settles X r (w₁.adopted d self r) w')
    (hw' : I (w'.rebind self (w'.cell r).behaviour)) :
    Moves I X w (w'.rebind self (w'.cell r).behaviour) := by
  have hl₂ : Lasts w₁ (w₁.adopted d self r) := .adopted hd₁ r
  have hl₃ : Lasts w' (w'.rebind self (w'.cell r).behaviour) := .rebind w' self _
  refine ⟨((h.toLasts.trans hl₂).trans hrun.toLasts).trans hl₃, hw', fun hintact hunmade => ?_⟩
  have hunmade' : w'.Unmade X := hl₃.unmade hunmade
  have hmade := hrun.made (World.target_adopted hd₁ r)
  have hX : ¬X d := fun hX => hunmade' d hX r hmade
  have hself : self < w.cells.size := hintact.lt hd hX
  have hself₁ : self < w₁.cells.size := Nat.lt_of_lt_of_le hself h.cells_le
  have hself₂ : self < (w₁.adopted d self r).cells.size := Nat.lt_of_lt_of_le hself₁ hl₂.cells_le
  have hfirst := h.evolves hintact (hl₂.unmade (hrun.unmade hunmade'))
  have hintact₂ : (w₁.adopted d self r).Intact X := hfirst.intact.adopted hd₁ hX r
  have hlone : ∀ d', (w₁.adopted d self r).Awaits self d' → X d' :=
    hfirst.intact.awaits_adopted hd₁ hX
  have hthird := hrun.evolves hintact₂ hunmade'
  refine ⟨hthird.intact.rebind (fun d' hd' => hlone d' (hrun.awaited hself₂ hd')) _, ?_, ?_⟩
  · intro o ho hall
    -- the object of the deferred parser is awaited
    have hne : o ≠ self := by
      rintro rfl
      exact hX (hall d hd)
    have ho₁ := Nat.lt_of_lt_of_le ho h.cells_le
    have hrest : ((w₁.adopted d self r).cell o).behaviour = (w.cell o).behaviour :=
      (World.behaviour_adopted_of_ne hne).trans (hfirst.kept ho hall)
    rw [World.cell_rebind_of_ne hne.symm, ← hrest]
    refine hthird.kept (Nat.lt_of_lt_of_le ho₁ hl₂.cells_le) fun d' hd' => ?_
    exact hall d' (h.awaited ho (hl₂.awaited ho₁ hd'))
  · have hshares₁ := hfirst.shares.trans h.toLasts (.adopted hfirst.intact hd₁ hX hr) hl₂
    have hshares₂ := hshares₁.trans (h.toLasts.trans hl₂) hthird.shares hrun.toLasts
    refine hshares₂.trans ((h.toLasts.trans hl₂).trans hrun.toLasts) ?_ hl₃
    exact .settled hintact₂ hlone hself₂ (Nat.lt_of_lt_of_le hr hl₂.cells_le)
      (World.behaviour_rebind_eq hself₁ r) hthird (hsettles hintact₂ hunmade')

end

/-! ## Computations -/

namespace Machine

/-- Whenever a computation returns, it has moved from a world to another. -/
def Moving (I : World φ → Prop) (X : DeferralRef → Prop) {α : Type} (x : Machine φ α) : Prop :=
  ∀ w, I w → Returns x w fun _ w' => Moves I X w w'

/-- What moves in two steps moves. -/
theorem closed_moving (I : World φ → Prop) (X : DeferralRef → Prop) :
    Closed fun α (x : Machine φ α) => Moving I X x where
  pure _ _ hw := returns_pure (.refl hw)
  bind hx hf w hw :=
    (hx w hw).bind fun a _ hw₁ => (hf a _ hw₁.holds).mono fun _ _ => hw₁.trans

theorem moving_throw {α : Type} (h : Halt φ) : Moving I X (throw h : Machine φ α) :=
  fun _ _ => returns_throw

theorem moving_get : Moving I X (get : Machine φ (World φ)) := fun _ hw => returns_get (.refl hw)

theorem moving_cell (r : Ref) : Moving I X (cell r : Machine φ (Cell φ)) :=
  (closed_moving I X).bind moving_get fun w => (closed_moving I X).pure (w.cell r)

/-! ## Runs -/

/-- Whatever is used moves, and an object that is used settles. -/
structure MovesUse (I : World φ → Prop) (X : DeferralRef → Prop) {α : Type}
    (use : Value φ → Machine φ α) : Prop where
  moving (v : Value φ) : Moving I X (use v)
  settles (r : Ref) (w : World φ) : I w →
    Returns (use (.parser r)) w fun _ w' => w.Intact X → w'.Unmade X → Settles X r w w'

/-- Whatever is run or called with these tools moves, and what is run or called settles. -/
structure MovesTools (I : World φ → Prop) (X : DeferralRef → Prop) (t : Tools φ) : Prop where
  run (r : Ref) (s : Input) (i : Nat) (env : Value φ) (w : World φ) : I w →
    Returns (t.run r s i env) w fun _ w' =>
      Moves I X w w' ∧ (w.Intact X → w'.Unmade X → Settles X r w w')
  call (args : List (Value φ)) : MovesUse I X fun v => t.call v args

/-- A function that makes a deferred parser gives an object that there is, and does not use the
deferred parser meanwhile. -/
def MakesObjects (t : Tools φ) (I : World φ → Prop) : Prop :=
  ∀ (w : World φ) (o : Ref) (d : DeferralRef), I w → w.Awaits o d →
    Returns (t.call (w.deferral d).thunk []) w fun made w' =>
      w'.Awaits o d ∧ ∀ r, made = .parser r → r < w'.cells.size

/-- Functions move if whatever they run and call does. -/
def MovesFunctions (apply : Tools φ → φ → List (Value φ) → Machine φ (Value φ))
    (I : World φ → Prop) (X : DeferralRef → Prop) : Prop :=
  ∀ t : Tools φ, MovesTools I X t → ∀ f args, Moving I X (apply t f args)

section

variable {t : Tools φ} {apply : Tools φ → φ → List (Value φ) → Machine φ (Value φ)}

theorem MovesTools.moving_run (ht : MovesTools I X t) (r : Ref) (s : Input) (i : Nat)
    (env : Value φ) : Moving I X (t.run r s i env) :=
  fun w hw => (ht.run r s i env w hw).mono fun _ _ => And.left

theorem MovesTools.moving_call (ht : MovesTools I X t) (v : Value φ) (args : List (Value φ)) :
    Moving I X (t.call v args) :=
  (ht.call args).moving v

theorem MovesTools.use_runTarget (ht : MovesTools I X t) (s : Input) (i : Nat) (env : Value φ) :
    MovesUse I X (runTarget t s i env) where
  moving := (closed_moving I X).runTarget moving_throw ht.moving_run ht.moving_call s i env
  settles r w hw := (ht.run r s i env w hw).mono fun _ _ => And.right

theorem moves_adopt {α : Type} {use : Value φ → Machine φ α} (hI : Stable I False)
    (huse : MovesUse I X use) {d : DeferralRef} {self : Ref} {w w₁ : World φ} (h : Moves I X w w₁)
    (hd : w.Awaits self d) (hd₁ : w₁.Awaits self d) {made : Value φ}
    (hmade : ∀ r, made = .parser r → r < w₁.cells.size) :
    Returns (adopt use d self made) w₁ fun _ w' =>
      Moves I X w w' ∧ (w.Intact X → w'.Unmade X → Settles X self w w') := by
  cases made with
  | parser r =>
    have hr := hmade r rfl
    have hl : Lasts w₁ (w₁.adopted d self r) := .adopted hd₁ r
    have hw₂ : I (w₁.adopted d self r) := hI.rebind _ self r (hI.resolve w₁ d r h.holds)
    rintro result w' hadopt
    rw [adopt_made] at hadopt
    obtain ⟨_, w₃, hrun, ⟨⟩⟩ := bind_eq_ok hadopt
    have hw₃ := huse.moving _ _ hw₂ _ w₃ hrun
    have hsettles := huse.settles r _ hw₂ _ w₃ hrun
    have hmoves := h.adopt hd hd₁ hr hw₃ hsettles (hI.rebind w₃ self r hw₃.holds)
    refine ⟨hmoves, fun hintact hunmade d' hd' hX' => ?_⟩
    have htarget := hw₃.made (World.target_adopted hd₁ r)
    have hX : ¬X d := fun hX => hunmade d hX r htarget
    -- the object is awaited by one deferred parser only
    cases (hintact d self hd hX).symm.trans (hintact d' self hd' hX')
    have hself := Nat.lt_of_lt_of_le (hintact.lt hd hX) (h.cells_le.trans hl.cells_le)
    exact World.settled_rebind (Nat.lt_of_lt_of_le hself hw₃.cells_le) htarget
      (Nat.lt_of_lt_of_le hr (hl.cells_le.trans hw₃.cells_le))
  | _ => exact Returns.bind (returns_any _ _) fun _ _ _ => returns_throw

theorem moves_useDeferred {α : Type} {use : Value φ → Machine φ α} (hI : Stable I False)
    (huse : MovesUse I X use) (hcall : ∀ v args, Moving I X (t.call v args))
    (hnull : FaultsOnNull t) (hthunks : MakesObjects t I) (d : DeferralRef) {w : World φ}
    (hw : I w) : Returns (useDeferred t use d) w fun _ w' =>
      Moves I X w w' ∧ ∀ o, w.Awaits o d → w.Intact X → w'.Unmade X → Settles X o w w' := by
  have hget : Returns (get : Machine φ (World φ)) w fun w₁ w₂ => w = w₁ ∧ w = w₂ :=
    returns_get ⟨rfl, rfl⟩
  refine hget.bind ?_
  rintro _ _ ⟨rfl, rfl⟩
  dsimp only
  split
  · next htarget =>
    by_cases hd : d < w.deferrals.size
    · have hawaits := World.awaits_of_null hd htarget
      have hthunk : Returns (t.call (w.deferral d).thunk []) w fun made w₁ =>
          Moves I X w w₁ ∧ w₁.Awaits (w.deferral d).self d ∧
            ∀ r, made = .parser r → r < w₁.cells.size :=
        fun made w₁ h => ⟨hcall _ _ w hw made w₁ h, hthunks w _ d hw hawaits made w₁ h⟩
      refine hthunk.bind fun made w₁ ⟨hw₁, hd₁, hr⟩ => ?_
      refine (moves_adopt hI huse hw₁ hawaits hd₁ hr).mono fun _ w' ⟨hmoves, hsettles⟩ => ?_
      refine ⟨hmoves, fun o ho => ?_⟩
      rw [← ho.deferral_eq.2.1]
      exact hsettles
    · rw [World.thunk_of_le (Nat.le_of_not_lt hd)]
      exact (hnull [] w).bind fun _ _ h => h.elim
  · next hmade =>
    -- only what is yet to be made awaits an object
    exact (huse.moving _ w hw).mono fun _ _ h => ⟨h, fun o ho => absurd ho.deferral_eq.2.2 hmade⟩

variable [FunctionText φ]

theorem moving_log (hI : Stable I False) (entry : LogEntry φ) :
    Moving I X (log entry : Machine φ PUnit) :=
  fun w hw => returns_modify (.log (hI.log w _ hw))

theorem moving_host (hI : Stable I False) (ht : MovesTools I X t) (hnull : FaultsOnNull t)
    (hthunks : MakesObjects t I) : (host t).Each fun _ x => Moving I X x where
  object := ht.moving_run
  deferred d s i env _ hw := (moves_useDeferred hI (ht.use_runTarget s i env) ht.moving_call hnull
    hthunks d hw).mono fun _ _ => And.left
  call := ht.moving_call
  describe _ := (closed_moving I X).bind moving_get fun _ => (closed_moving I X).pure _
  log := moving_log hI

theorem moving_denote (hI : Stable I False) (ht : MovesTools I X t) (hnull : FaultsOnNull t)
    (hthunks : MakesObjects t I) (g : Grammar φ) (s : Input) (i : Nat) (env : Value φ) :
    Moving I X (g.denote (host t) s i env) :=
  (closed_moving I X).denote moving_throw (fun _ _ => rfl) (moving_host hI ht hnull hthunks) g s i
    env

/-- A run of an object moves, and the object settles. -/
theorem moves_runObject (hI : Stable I False) (ht : MovesTools I X t) (hnull : FaultsOnNull t)
    (hthunks : MakesObjects t I) (r : Ref) (s : Input) (i : Nat) (env : Value φ) (w : World φ)
    (hw : I w) : Returns (runObject t r s i env) w fun _ w' =>
      Moves I X w w' ∧ (w.Intact X → w'.Unmade X → Settles X r w w') := by
  intro result w' hrun
  have hdenote : (w.cell r).behaviour.denote (host t) s i env w = .ok result w' := hrun
  refine ⟨moving_denote hI ht hnull hthunks _ s i env w hw _ w' hdenote,
    fun hintact hunmade d hd hX => ?_⟩
  rw [hintact d r hd hX] at hdenote
  obtain ⟨-, hsettles⟩ := moves_useDeferred hI (ht.use_runTarget s i env) ht.moving_call hnull
    hthunks d hw _ w' hdenote
  exact hsettles r hd hintact hunmade d hd hX

/-- An object that is called settles. -/
theorem settles_callValue (hI : Stable I False) (ht : MovesTools I X t) (hnull : FaultsOnNull t)
    (hthunks : MakesObjects t I) (r : Ref) (args : List (Value φ)) (w : World φ) (hw : I w) :
    Returns (callValue apply t (.parser r) args) w fun _ w' =>
      w.Intact X → w'.Unmade X → Settles X r w w' := by
  have hinvoke : ∀ text i env, Returns (invoke t r text i env) w fun _ w' =>
      w.Intact X → w'.Unmade X → Settles X r w w' := by
    intro text i env v w' hinvoke hintact hunmade d hd hX
    have hanswer : answer t text i env (w.cell r).behaviour w = .ok v w' := hinvoke
    rw [hintact d r hd hX] at hanswer
    obtain ⟨-, hsettles⟩ := moves_useDeferred hI (ht.call _) ht.moving_call hnull hthunks d hw _ w'
      hanswer
    exact hsettles r hd hintact hunmade d hd hX
  unfold callValue
  split
  · next h => cases h
  · next h => cases h; exact hinvoke _ _ _
  · next h => cases h; exact hinvoke _ _ _
  · next h => cases h; exact hinvoke _ _ _
  · exact returns_throw

/-- Every run moves if the functions that it calls do and make objects. -/
theorem moves_tools (hI : Stable I False) (happly : MovesFunctions apply I X) {budget : Nat}
    (hthunks : ∀ depth, MakesObjects (tools apply budget depth) I) (depth : Nat) :
    MovesTools I X (tools apply budget depth) := by
  induction depth with
  | zero => exact ⟨fun _ _ _ _ _ _ => returns_throw,
      fun _ => ⟨fun _ => moving_throw _, fun _ _ _ => returns_throw⟩⟩
  | succ depth ih =>
    have hnull : FaultsOnNull (tools apply budget depth) := faultsOnNull_tools budget depth
    refine ⟨moves_runObject hI ih hnull (hthunks depth), fun args => ⟨fun v => ?_,
      fun r => settles_callValue hI ih hnull (hthunks depth) r args⟩⟩
    refine (closed_moving I X).callValue moving_throw moving_cell ih.moving_call
      (fun d args w hw => ?_) (moving_denote hI ih hnull (hthunks depth)) (happly _ ih) v args
    exact (moves_useDeferred hI (ih.call args) ih.moving_call hnull (hthunks depth) d hw).mono
      fun _ _ => And.left

theorem moving_parse (hI : Stable I False) (happly : MovesFunctions apply I X) {budget : Nat}
    (hthunks : ∀ depth, MakesObjects (tools apply budget depth) I) (depth : Nat) (r : Ref)
    (s : Input) (env : Value φ) : Moving I X ((host (tools apply budget depth)).parse r s env) :=
  (closed_moving I X).parse moving_throw (moving_host hI (moves_tools hI happly hthunks depth)
    (faultsOnNull_tools budget depth) (hthunks depth)) r s env

end

end Machine

end Furthest
