import Furthest.Proofs.Deferred.Rules
import Furthest.Proofs.Deferred.Wording

/-!
# Worlds that model rules

A world models rules under a bond if each of its objects does what the rules say of the object that
it stands for.  An object that was made with a deferred parser may by now do what the parser's
target does, or what the target's target does, and so on (`Stands`); a deferred parser either still
has its function or was made into an object that stands for its target (`ModelsDeferral`).

Beside this, the functions of deferred parsers have made something at most once, and not at all
where nothing is recorded yet (`Deferral.Counted`).  Both hold on whatever a run does to the world by
itself.
-/

namespace Furthest

variable {φ : Type}

/-- A grammar that does what the rules say of an object, perhaps without the detour through the
deferred parsers on the way. -/
inductive Stands (R : Rules φ) (B : Bond φ) : Grammar φ → Ref → Prop where
  | rule {g : Grammar φ} {r' : Ref} : g.Like (Bond.likeness φ) B (R.rule r') → Stands R B g r'
  | target {g : Grammar φ} {r' : Ref} {d' : DeferralRef} :
    R.rule r' = .deferred d' → Stands R B g (R.target d') → Stands R B g r'

/-- A deferred parser that was not made yet, or that was made into its target. -/
structure ModelsDeferral (R : Rules φ) (B : Bond φ) (x : Deferral φ) (d' : DeferralRef) :
    Prop where
  self : ∃ r', B.objects x.self = some r' ∧ R.rule r' = .deferred d'
  target : x.target = .null ∧ B.thunks x.thunk d' ∨
    ∃ r, x.target = .parser r ∧ B.objects r = some (R.target d')

/-- What the objects of a world do is what the rules say. -/
structure Models [FunctionText φ] (R : Rules φ) (B : Bond φ) (w : World φ) : Prop where
  eof : B.objects Ref.eof = some Ref.eof
  admitted : R.admits B
  object_lt {r r' : Ref} : B.objects r = some r' → r < w.cells.size
  stands {r r' : Ref} : B.objects r = some r' → Stands R B (w.cell r).behaviour r'
  deferral_lt {d d' : DeferralRef} : B.deferrals d = some d' → d < w.deferrals.size
  deferral {d d' : DeferralRef} : B.deferrals d = some d' → ModelsDeferral R B (w.deferral d) d'
  texts : Value.SameTexts B w.names R.names

/-- The function of a deferred parser has made something at most once, and has made nothing where
nothing is recorded. -/
structure Deferral.Counted (x : Deferral φ) : Prop where
  made_le : x.made ≤ 1
  made_eq_zero : x.target = .null → x.made = 0

theorem Stands.mono {R : Rules φ} {B B' : Bond φ} (hB : B ≤ B') {g : Grammar φ} {r' : Ref}
    (h : Stands R B g r') : Stands R B' g r' := by
  induction h with
  | rule hg => exact .rule (hg.mono hB)
  | target hr _ ih => exact .target hr ih

namespace World

variable [FunctionText φ]

theorem names_rebind (w : World φ) (r : Ref) (g : Grammar φ) : (w.rebind r g).names = w.names := by
  funext r'
  have hname : ((w.rebind r g).cell r').name = (w.cell r').name := by
    by_cases h : r = r'
    · subst h
      by_cases hr : r < w.cells.size
      · rw [cell_rebind_self hr]
      · simp [cell, rebind, Array.getElem?_modify, Array.getElem?_eq_none (Nat.le_of_not_lt hr)]
    · rw [cell_rebind_of_ne h]
  unfold names
  rw [hname]

end World

namespace Models

variable [FunctionText φ] {R : Rules φ} {B : Bond φ} {w : World φ}

theorem log (h : Models R B w) (log : Array String) : Models R B { w with log := log } :=
  ⟨h.eof, h.admitted, h.object_lt, h.stands, h.deferral_lt, h.deferral, h.texts⟩

/-- The object that was made with a deferred parser may do what the parser's target does. -/
theorem rebind (h : Models R B w) {self r r' : Ref} {d' : DeferralRef}
    (hself : B.objects self = some r') (hrule : R.rule r' = .deferred d')
    (hr : B.objects r = some (R.target d')) :
    Models R B (w.rebind self (w.cell r).behaviour) where
  eof := h.eof
  admitted := h.admitted
  object_lt hr₁ := by
    show _ < (w.cells.modify self _).size
    rw [Array.size_modify]
    exact h.object_lt hr₁
  stands {r₁ r₁'} hr₁ := by
    by_cases he : self = r₁
    · subst he
      obtain rfl : r' = r₁' := Option.some.inj (hself.symm.trans hr₁)
      rw [World.cell_rebind_self (h.object_lt hself)]
      exact .target hrule (h.stands hr)
    · rw [World.cell_rebind_of_ne he]
      exact h.stands hr₁
  deferral_lt := h.deferral_lt
  deferral := h.deferral
  texts := by
    rw [World.names_rebind]
    exact h.texts

/-- A deferred parser may be made into an object that stands for its target. -/
theorem resolve (h : Models R B w) {d d' : DeferralRef} {r : Ref}
    (hd : B.deferrals d = some d') (hr : B.objects r = some (R.target d')) :
    Models R B (w.resolve d (.parser r)) where
  eof := h.eof
  admitted := h.admitted
  object_lt := h.object_lt
  stands := h.stands
  deferral_lt hd₁ := by
    show _ < (w.deferrals.modify d _).size
    rw [Array.size_modify]
    exact h.deferral_lt hd₁
  deferral {d₁ d₁'} hd₁ := by
    by_cases he : d = d₁
    · subst he
      obtain rfl : d' = d₁' := Option.some.inj (hd.symm.trans hd₁)
      rw [World.deferral_resolve_self (h.deferral_lt hd)]
      exact ⟨(h.deferral hd).self, Or.inr ⟨r, rfl, hr⟩⟩
    · rw [World.deferral_resolve_of_ne he]
      exact h.deferral hd₁
  texts := h.texts

end Models

/-- A world models rules, and functions of deferred parsers have made something at most once. -/
structure Faithful [FunctionText φ] (R : Rules φ) (B : Bond φ) (w : World φ) : Prop where
  models : Models R B w
  counted (d : DeferralRef) : (w.deferral d).Counted

/-- A call left a world that models the rules, and every deferred parser made into what it was
before. -/
structure Undisturbed [FunctionText φ] (R : Rules φ) (w : World φ) (B' : Bond φ) (w' : World φ) :
    Prop where
  models : Models R B' w'
  target_eq (d : DeferralRef) : (w'.deferral d).target = (w.deferral d).target
  made_eq (d : DeferralRef) : (w'.deferral d).made = (w.deferral d).made

namespace Faithful

variable [FunctionText φ] {R : Rules φ} {B : Bond φ} {w : World φ}

theorem log (h : Faithful R B w) (log : Array String) : Faithful R B { w with log := log } :=
  ⟨h.models.log log, h.counted⟩

theorem rebind (h : Faithful R B w) {self r r' : Ref} {d' : DeferralRef}
    (hself : B.objects self = some r') (hrule : R.rule r' = .deferred d')
    (hr : B.objects r = some (R.target d')) : Faithful R B (w.rebind self (w.cell r).behaviour) :=
  ⟨h.models.rebind hself hrule hr, h.counted⟩

theorem undisturbed (h : Faithful R B w) {B' : Bond φ} {w' : World φ}
    (hcall : Undisturbed R w B' w') : Faithful R B' w' := by
  refine ⟨hcall.models, fun d => ⟨?_, fun htarget => ?_⟩⟩
  · rw [hcall.made_eq]
    exact (h.counted d).made_le
  · rw [hcall.made_eq]
    exact (h.counted d).made_eq_zero ((hcall.target_eq d).symm.trans htarget)

/-- A deferred parser that nothing was made of may be made into an object that stands for its
target. -/
theorem resolve (h : Faithful R B w) {d d' : DeferralRef} {r : Ref}
    (hnull : (w.deferral d).target = .null) (hd : B.deferrals d = some d')
    (hr : B.objects r = some (R.target d')) : Faithful R B (w.resolve d (.parser r)) := by
  refine ⟨h.models.resolve hd hr, fun d₁ => ?_⟩
  by_cases he : d = d₁
  · subst he
    rw [World.deferral_resolve_self (h.models.deferral_lt hd)]
    exact ⟨Nat.le_of_eq (congrArg (· + 1) ((h.counted d).made_eq_zero hnull)), nofun⟩
  · rw [World.deferral_resolve_of_ne he]
    exact h.counted d₁

end Faithful

end Furthest
