import Furthest.Proofs.Rebinding.Replace

/-!
# Objects that share a behaviour

A run of a deferred parser that was made into an object goes on as a run of that object: it `Passes`
to what the object does now.  Two behaviours `Meet` in a world if they pass to a common one.  They
may be different ones, as that of a deferred parser, which was copied when it was made, and that of
a clone from before, which still passes through the object.

The way from one world to another has runs and replacements in it.  What was made lasts (`Lasts`),
and if moreover every object still meets what it did (`Evolves`), then whatever met before does so
after (`Lasts.meet`).  An explicit replacement keeps a meeting of two behaviours if it is of an
object that both pass through, or that neither does (`World.meet_rebind`).
-/

namespace Furthest

open Relation (ReflTransGen Join)

variable {φ : Type}

namespace World

/-- A deferred parser passes to what the object does now that it was made into. -/
inductive Passes (w : World φ) : Grammar φ → Grammar φ → Prop where
  | made {d : DeferralRef} {r : Ref} {g : Grammar φ} : (w.deferral d).target = .parser r →
    r < w.cells.size → (w.cell r).behaviour = g → Passes w (.deferred d) g

/-- Two behaviours pass to a common one. -/
def Meet (w : World φ) : Grammar φ → Grammar φ → Prop := Join (ReflTransGen w.Passes)

/-- A behaviour passes to what the object `a` does, whatever that is. -/
def PassesThrough (w : World φ) (a : Ref) (g : Grammar φ) : Prop :=
  ∃ d, ReflTransGen w.Passes g (.deferred d) ∧ (w.deferral d).target = .parser a

section

variable {w : World φ} {g g' g'' : Grammar φ} {a r o : Ref} {d : DeferralRef}

theorem Passes.unique (h : w.Passes g g') (h' : w.Passes g g'') : g' = g'' := by
  obtain ⟨htarget, -, rfl⟩ := h
  obtain ⟨htarget', -, rfl⟩ := h'
  cases htarget.symm.trans htarget'
  rfl

/-- Behaviours pass to one only, so meeting is transitive. -/
theorem meet_equivalence (w : World φ) : Equivalence w.Meet :=
  Relation.equivalence_join_reflTransGen fun _ b _ hb hc =>
    ⟨b, .refl, hb.unique hc ▸ .refl⟩

theorem Meet.refl (w : World φ) (g : Grammar φ) : w.Meet g g := w.meet_equivalence.refl g

theorem Meet.symm (h : w.Meet g g') : w.Meet g' g := w.meet_equivalence.symm h

theorem Meet.trans (h : w.Meet g g') (h' : w.Meet g' g'') : w.Meet g g'' :=
  w.meet_equivalence.trans h h'

theorem Passes.meet (h : w.Passes g g') : w.Meet g g' := ⟨g', .single h, .refl⟩

/-! ## Explicit replacements -/

/-- Where an object takes the behaviour of what a deferred parser was made into, the deferred parser
passes to this behaviour. -/
theorem passes_rebind (hd : (w.deferral d).target = .parser r) (hr : r < w.cells.size)
    (hg : (w.cell r).behaviour = g) (o : Ref) : (w.rebind o g).Passes (.deferred d) g := by
  have hcell : ((w.rebind o g).cell r).behaviour = g := by
    rcases behaviour_rebind w o r g with h | h
    · exact h
    · exact h.trans hg
  have hsize : r < (w.rebind o g).cells.size := by
    simpa [rebind] using hr
  exact .made hd hsize hcell

/-- A step that is not to the object `a` stays when `a` is replaced. -/
theorem passes_rebind_of_ne (hd : (w.deferral d).target = .parser r) (hr : r < w.cells.size)
    (h : r ≠ a) (g : Grammar φ) : (w.rebind a g).Passes (.deferred d) (w.cell r).behaviour := by
  have hsize : r < (w.rebind a g).cells.size := by
    simpa [rebind] using hr
  exact .made hd hsize (by rw [cell_rebind_of_ne h.symm])

theorem PassesThrough.head (hg : w.Passes g g') (h : w.PassesThrough a g') :
    w.PassesThrough a g := by
  obtain ⟨d, hd, htarget⟩ := h
  exact ⟨d, .head hg hd, htarget⟩

/-- A behaviour other than that of a deferred parser passes through nothing. -/
theorem not_passesThrough (h : ∀ d, g ≠ .deferred d) (a : Ref) : ¬w.PassesThrough a g := by
  rintro ⟨d, hd, -⟩
  cases hd using ReflTransGen.head_induction_on with
  | refl => exact h d rfl
  | head hstep _ =>
    cases hstep
    exact h _ rfl

/-- A deferred parser passes through the object that it was made into, and what that one passes
through. -/
theorem PassesThrough.cases (h : w.PassesThrough a (.deferred d))
    (hd : (w.deferral d).target = .parser r) : a = r ∨ w.PassesThrough a (w.cell r).behaviour := by
  obtain ⟨d', hd', htarget⟩ := h
  cases hd' using ReflTransGen.head_induction_on with
  | refl =>
    cases htarget.symm.trans hd
    exact .inl rfl
  | head hstep hrest =>
    obtain ⟨hmade, -, rfl⟩ := hstep
    cases hmade.symm.trans hd
    exact .inr ⟨d', hrest, htarget⟩

/-- What passes through an object passes to its substitute after a replacement. -/
theorem PassesThrough.rebind (h : w.PassesThrough a g) (ha : a < w.cells.size)
    (g₁ : Grammar φ) : ReflTransGen (w.rebind a g₁).Passes g g₁ := by
  obtain ⟨d, hd, htarget⟩ := h
  have hself : ∀ {d}, (w.deferral d).target = .parser a →
      (w.rebind a g₁).Passes (.deferred d) g₁ := by
    intro d htarget
    have hsize : a < (w.rebind a g₁).cells.size := by
      simpa [World.rebind] using ha
    exact .made htarget hsize (by rw [cell_rebind_self ha])
  induction hd using ReflTransGen.head_induction_on with
  | refl => exact .single (hself htarget)
  | head hstep _ ih =>
    cases hstep with
    | @made _ r _ hmade hr hcell =>
      -- the first time that the way comes to the object it is at the substitute
      by_cases hra : r = a
      · subst hra
        exact .single (hself hmade)
      · exact .head (hcell ▸ passes_rebind_of_ne hmade hr hra g₁) ih

/-- What does not pass through an object passes on as before after a replacement. -/
theorem passes_rebind_of_not_through (h : ¬w.PassesThrough a g)
    (hg : ReflTransGen w.Passes g g') (g₁ : Grammar φ) :
    ReflTransGen (w.rebind a g₁).Passes g g' := by
  induction hg using ReflTransGen.head_induction_on with
  | refl => exact .refl
  | head hstep _ ih =>
    have hrest := ih fun hthrough => h (hthrough.head hstep)
    obtain ⟨hmade, hr, rfl⟩ := hstep
    refine .head (passes_rebind_of_ne hmade hr ?_ g₁) hrest
    rintro rfl
    exact h ⟨_, .refl, hmade⟩

/-- Behaviours that meet still do so after the replacement of an object that both pass through, or
that neither does. -/
theorem meet_rebind (h : w.Meet g g') (ha : a < w.cells.size)
    (hthrough : w.PassesThrough a g ↔ w.PassesThrough a g') (g₁ : Grammar φ) :
    (w.rebind a g₁).Meet g g' := by
  by_cases hg : w.PassesThrough a g
  · exact ⟨g₁, hg.rebind ha g₁, (hthrough.1 hg).rebind ha g₁⟩
  · obtain ⟨b, hb, hb'⟩ := h
    exact ⟨b, passes_rebind_of_not_through hg hb g₁,
      passes_rebind_of_not_through (fun h' => hg (hthrough.2 h')) hb' g₁⟩

end

/-! ## Deferred parsers that are left out -/

/-- Every deferred parser that is yet to be made and not in `X` is still what its object does. -/
def Intact (X : DeferralRef → Prop) (w : World φ) : Prop :=
  ∀ d o, w.Awaits o d → ¬X d → (w.cell o).behaviour = .deferred d

/-- No deferred parser of `X` was made into an object. -/
def Unmade (X : DeferralRef → Prop) (w : World φ) : Prop :=
  ∀ d, X d → ∀ r, (w.deferral d).target ≠ .parser r

section

variable {X : DeferralRef → Prop} {w : World φ} {o : Ref} {d : DeferralRef}

theorem Awaits.deferral_eq (h : w.Awaits o d) :
    d < w.deferrals.size ∧ (w.deferral d).self = o ∧ (w.deferral d).target = .null := by
  obtain ⟨x, hx, hself, hnull⟩ := h
  have hd : w.deferral d = x := by simp [World.deferral, hx]
  exact ⟨(Array.getElem?_eq_some_iff.1 hx).1, hd ▸ hself, hd ▸ hnull⟩

/-- Such an object is there. -/
theorem Intact.lt (h : w.Intact X) (hd : w.Awaits o d) (hX : ¬X d) : o < w.cells.size := by
  by_contra ho
  have hcell := h d o hd hX
  rw [cell, Array.getElem?_eq_none (Nat.le_of_not_lt ho)] at hcell
  cases hcell

theorem Intact.resolve (h : w.Intact X) (d : DeferralRef) {v : Value φ} (hv : v ≠ .null) :
    (w.resolve d v).Intact X :=
  fun d' o hd' hX => h d' o ((awaits_resolve hv).1 hd').2 hX

/-- An object may be replaced that nothing awaits but what is left out. -/
theorem Intact.rebind (h : w.Intact X) (ho : ∀ d, w.Awaits o d → X d) (g : Grammar φ) :
    (w.rebind o g).Intact X := by
  intro d o' hd hX
  have hne : o ≠ o' := by
    rintro rfl
    exact hX (ho d hd)
  rw [cell_rebind_of_ne hne]
  exact h d o' hd hX

/-- After a deferred parser was made, nothing else awaits its object but what is left out. -/
theorem Intact.awaits_resolve (h : w.Intact X) (hd : w.Awaits o d) (hX : ¬X d) {v : Value φ}
    (hv : v ≠ .null) (d' : DeferralRef) (hd' : (w.resolve d v).Awaits o d') : X d' := by
  obtain ⟨hne, hd'⟩ := (World.awaits_resolve hv).1 hd'
  by_contra hX'
  cases (h d o hd hX).symm.trans (h d' o hd' hX')
  exact hne rfl

end

end World

/-! ## From one world to another -/

/-- Objects and what deferred parsers were made into last, and no new deferred parser awaits an
object from before. -/
structure Lasts (w w' : World φ) : Prop where
  cells_le : w.cells.size ≤ w'.cells.size
  made {d : DeferralRef} {r : Ref} :
    (w.deferral d).target = .parser r → (w'.deferral d).target = .parser r
  awaited {o : Ref} {d : DeferralRef} : o < w.cells.size → w'.Awaits o d → w.Awaits o d

/-- Every object of the first world meets in the second world what it did in the first. -/
def Shares (w w' : World φ) : Prop :=
  ∀ o, o < w.cells.size → w'.Meet (w.cell o).behaviour (w'.cell o).behaviour

section

variable {w w' w'' : World φ} {o : Ref} {d : DeferralRef} {g g' : Grammar φ}

namespace Lasts

theorem refl (w : World φ) : Lasts w w := ⟨Nat.le_refl _, id, fun _ => id⟩

theorem trans (h : Lasts w w') (h' : Lasts w' w'') : Lasts w w'' where
  cells_le := h.cells_le.trans h'.cells_le
  made := h'.made ∘ h.made
  awaited ho := h.awaited ho ∘ h'.awaited (Nat.lt_of_lt_of_le ho h.cells_le)

theorem of_deferrals_eq (hc : w.cells.size ≤ w'.cells.size) (hd : w'.deferrals = w.deferrals) :
    Lasts w w' := by
  refine ⟨hc, fun {d r} htarget => ?_, fun {o d} _ hd' => ?_⟩
  · rwa [World.deferral, hd]
  · rwa [World.Awaits, hd] at hd'

theorem rebind (w : World φ) (o : Ref) (g : Grammar φ) : Lasts w (w.rebind o g) :=
  of_deferrals_eq (by simp [World.rebind]) rfl

/-- A deferred parser that was yet to be made is made. -/
theorem resolve (hd : w.Awaits o d) (r : Ref) : Lasts w (w.resolve d (.parser r)) := by
  refine ⟨Nat.le_refl _, fun {d' r'} htarget => ?_, fun {o' d'} _ hd' => ?_⟩
  · have hne : d ≠ d' := by
      rintro rfl
      cases hd.deferral_eq.2.2.symm.trans htarget
    rwa [World.deferral_resolve_of_ne hne]
  · have hparser : (.parser r : Value φ) ≠ .null := nofun
    exact ((World.awaits_resolve hparser).1 hd').2

theorem unmade {X : DeferralRef → Prop} (h : Lasts w w') (hX : w'.Unmade X) : w.Unmade X :=
  fun d hd r htarget => hX d hd r (h.made htarget)

/-- What met goes on to meet if every object meets what it did. -/
theorem meet (h : Lasts w w') (hs : Shares w w') (hg : w.Meet g g') : w'.Meet g g' := by
  have hstep : ∀ {g g'}, w.Passes g g' → w'.Meet g g' := by
    rintro _ _ ⟨hmade, hr, rfl⟩
    have hpasses := World.Passes.made (h.made hmade) (Nat.lt_of_lt_of_le hr h.cells_le) rfl
    exact hpasses.meet.trans (hs _ hr).symm
  have hmany : ∀ {g g'}, ReflTransGen w.Passes g g' → w'.Meet g g' := by
    intro g g' hg
    induction hg with
    | refl => exact .refl w' g
    | tail _ hlast ih => exact ih.trans (hstep hlast)
  obtain ⟨b, hb, hb'⟩ := hg
  exact (hmany hb).trans (hmany hb').symm

end Lasts

namespace Shares

theorem of_behaviour_eq
    (h : ∀ o, o < w.cells.size → (w'.cell o).behaviour = (w.cell o).behaviour) : Shares w w' := by
  intro o ho
  rw [h o ho]
  exact .refl w' _

theorem trans (h : Shares w w') (hl : Lasts w w') (h' : Shares w' w'') (hl' : Lasts w' w'') :
    Shares w w'' := fun o ho =>
  (hl'.meet h' (h o ho)).trans (h' o (Nat.lt_of_lt_of_le ho hl.cells_le))

/-- An object may take a behaviour that it did already, or the one that it passes to. -/
theorem rebind {g : Grammar φ} (h : (w.cell o).behaviour = g ∨ ∃ d r,
      (w.cell o).behaviour = .deferred d ∧ (w.deferral d).target = .parser r ∧
        r < w.cells.size ∧ (w.cell r).behaviour = g) : Shares w (w.rebind o g) := by
  intro o' ho'
  by_cases ho : o = o'
  · subst ho
    rw [World.cell_rebind_self ho']
    rcases h with h | ⟨d, r, hcell, hd, hr, hg⟩
    · exact h ▸ .refl _ _
    · rw [hcell]
      exact (World.passes_rebind hd hr hg o).meet
  · rw [World.cell_rebind_of_ne ho]
    exact .refl _ _

end Shares

end

end Furthest
