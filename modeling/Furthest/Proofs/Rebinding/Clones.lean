import Furthest.Proofs.Rebinding.Evolution

/-!
# How long a clone agrees

A clone and its original run alike through any later sequence of runs, parses, new objects and
replacements of other objects that they pass through both or not at all (`Machine.clone_agrees`).
They need not have the same behaviour all the time: where the original was a deferred parser yet to
be made, it takes the behaviour of what was made when it is first used, and the clone goes on to
pass through the object that was made.

The condition on replacements is needed.  After the object was replaced the original does what that
object did at the first use, and the clone what it does now (`Machine.clone_not_agrees`).
-/

namespace Furthest.Machine

open Relation (ReflTransGen)

variable {φ : Type} [FunctionText φ]
  {apply : Tools φ → φ → List (Value φ) → Machine φ (Value φ)} {I : World φ → Prop}
  {X : DeferralRef → Prop}

/-- What may happen to a world: completed runs and parses, new objects, and replacements of objects
that are `free` to be replaced. -/
inductive Alters (apply : Tools φ → φ → List (Value φ) → Machine φ (Value φ)) (I : World φ → Prop)
    (free : World φ → Ref → Prop) : World φ → World φ → Prop where
  | run {w w' : World φ} {r : Ref} {s : Input} {i : Nat} {env : Value φ}
    {result : Result (Value φ)} (budget depth : Nat) :
    (tools apply budget depth).run r s i env w = .ok result w' → Alters apply I free w w'
  | parse {w w' : World φ} {r : Ref} {s : Input} {env : Value φ} {outcome : Outcome φ}
    (budget depth : Nat) :
    (host (tools apply budget depth)).parse r s env w = .ok outcome w' → Alters apply I free w w'
  | replace {w w' : World φ} {a substitute : Ref} : free w a →
    replace a substitute w = .ok ⟨⟩ w' → Alters apply I free w w'
  | clone {w w' : World φ} {r c : Ref} : clone r w = .ok c w' → I w' → Alters apply I free w w'
  | allocate {w w' : World φ} {c : Cell φ} {r : Ref} :
    allocate c w = .ok r w' → I w' → Alters apply I free w w'
  | allocateDeferred {w w' : World φ} {thunk : Value φ} {r : Ref} :
    allocateDeferred thunk w = .ok r w' → I w' → Alters apply I free w w'

/-- The object `a` may be replaced without parting `p` and `c`: it is neither of them, both pass
through it or neither does, and it is no deferred parser that is yet to be made, but for those that
are left out. -/
structure Spares (X : DeferralRef → Prop) (p c : Ref) (w : World φ) (a : Ref) : Prop where
  lt : a < w.cells.size
  ne_left : a ≠ p
  ne_right : a ≠ c
  through : w.PassesThrough a (w.cell p).behaviour ↔ w.PassesThrough a (w.cell c).behaviour
  awaited (d : DeferralRef) : w.Awaits a d → X d

/-- Two objects meet. -/
structure Agreeing (X : DeferralRef → Prop) (p c : Ref) (w : World φ) : Prop where
  left : p < w.cells.size
  right : c < w.cells.size
  intact : w.Intact X
  meet : w.Meet (w.cell p).behaviour (w.cell c).behaviour

section

variable {w w' : World φ} {p c a : Ref}

omit [FunctionText φ] in
theorem Agreeing.moves (h : Agreeing X p c w) (hw : Moves I X w w') (hX : w'.Unmade X) :
    Agreeing X p c w' := by
  obtain ⟨hintact, -, hshares⟩ := hw.evolves h.intact hX
  refine ⟨Nat.lt_of_lt_of_le h.left hw.cells_le, Nat.lt_of_lt_of_le h.right hw.cells_le, hintact,
    ?_⟩
  have hmeet := hw.toLasts.meet hshares h.meet
  exact ((hshares p h.left).symm.trans hmeet).trans (hshares c h.right)

omit [FunctionText φ] in
theorem Agreeing.replace (h : Agreeing X p c w) (ha : Spares X p c w a) (g : Grammar φ) :
    Agreeing X p c (w.rebind a g) where
  left := by simpa [World.rebind] using h.left
  right := by simpa [World.rebind] using h.right
  intact := h.intact.rebind ha.awaited g
  meet := by
    rw [World.cell_rebind_of_ne ha.ne_left, World.cell_rebind_of_ne ha.ne_right]
    exact World.meet_rebind h.meet ha.lt ha.through g

/-- Everything but a replacement moves. -/
theorem Alters.moves_or {free : World φ → Ref → Prop} (h : Alters apply I free w w')
    (hI : Stable I False) (happly : MovesFunctions apply I X)
    (hthunks : ∀ budget depth, MakesObjects (tools apply budget depth) I) (hw : I w) :
    Moves I X w w' ∨ ∃ a substitute, free w a ∧ w' = w.rebind a (w.cell substitute).behaviour := by
  cases h with
  | run budget depth h =>
    exact .inl ((moves_tools hI happly (hthunks budget) depth).run _ _ _ _ w hw _ w' h).1
  | parse budget depth h =>
    exact .inl (moving_parse hI happly (hthunks budget) depth _ _ _ w hw _ w' h)
  | replace ha h =>
    cases h
    exact .inr ⟨_, _, ha, rfl⟩
  | clone h hw' | allocate h hw' =>
    cases h
    exact .inl (.push hw')
  | allocateDeferred h hw' =>
    cases h
    exact .inl (.defer hw')

/-- Through whatever happens two objects go on to meet. -/
theorem agreeing_of_alters {w₁ : World φ} (hI : Stable I False) (happly : MovesFunctions apply I X)
    (hthunks : ∀ budget depth, MakesObjects (tools apply budget depth) I) (hw₁ : I w₁)
    (hstart : w₁.Unmade X → Agreeing X p c w₁)
    (h : ReflTransGen (Alters apply I (Spares X p c)) w₁ w') :
    I w' ∧ (w'.Unmade X → Agreeing X p c w') := by
  induction h with
  | refl => exact ⟨hw₁, hstart⟩
  | tail _ hstep ih =>
    obtain ⟨hw, hagree⟩ := ih
    rcases hstep.moves_or hI happly hthunks hw with hmoves | ⟨a, substitute, ha, rfl⟩
    · exact ⟨hmoves.holds, fun hX => (hagree (hmoves.unmade hX)).moves hmoves hX⟩
    · exact ⟨hI.rebind _ a substitute hw, fun hX => (hagree hX).replace ha _⟩

/-! ## Runs of objects that meet -/

/-- A behaviour comes to what the behaviour that it passes to comes to. -/
theorem denotes_iff_of_passes {g g' : Grammar φ} (h : w.Passes g g') (s : Input) (i : Nat)
    (env : Value φ) (o : Except (Fault φ) (Result (Value φ))) :
    (∃ budget depth, g.denote (host (tools apply budget depth)) s i env w = settledIn o w') ↔
      ∃ budget depth, g'.denote (host (tools apply budget depth)) s i env w = settledIn o w' := by
  obtain ⟨htarget, -, rfl⟩ := h
  refine Iff.trans ?_ comesTo_iff_denote
  refine exists_congr fun budget => exists_congr fun depth => ?_
  rw [← runDeferred_of_resolved htarget]
  rfl

/-- Objects that meet come to the same, and leave the same world. -/
theorem comesTo_iff_of_meet (h : w.Meet (w.cell p).behaviour (w.cell c).behaviour) (s : Input)
    (i : Nat) (env : Value φ) (o : Except (Fault φ) (Result (Value φ))) :
    ComesTo apply p s i env w o w' ↔ ComesTo apply c s i env w o w' := by
  have hmany : ∀ {g g'}, ReflTransGen w.Passes g g' →
      ((∃ budget depth, g.denote (host (tools apply budget depth)) s i env w = settledIn o w') ↔
      ∃ budget depth, g'.denote (host (tools apply budget depth)) s i env w = settledIn o w') := by
    intro g g' hg
    induction hg with
    | refl => exact Iff.rfl
    | tail _ hlast ih => exact ih.trans (denotes_iff_of_passes hlast s i env o)
  obtain ⟨b, hb, hb'⟩ := h
  rw [comesTo_iff_denote, comesTo_iff_denote]
  exact (hmany hb).trans (hmany hb').symm

/-- A clone and its original come to the same, whatever happened since the clone was made, as long
as no object was replaced that one of them passes through and the other does not. -/
theorem clone_agrees {w₁ : World φ} (hI : Stable I False) (happly : MovesFunctions apply I X)
    (hthunks : ∀ budget depth, MakesObjects (tools apply budget depth) I) (hw₁ : I w₁)
    (hintact : w.Intact X) (hp : p < w.cells.size) (hclone : clone p w = .ok c w₁)
    (h : ReflTransGen (Alters apply I (Spares X p c)) w₁ w') (hX : w'.Unmade X) (s : Input)
    (i : Nat) (env : Value φ) (o : Except (Fault φ) (Result (Value φ))) (w'' : World φ) :
    ComesTo apply p s i env w' o w'' ↔ ComesTo apply c s i env w' o w'' := by
  have hstart : w₁.Unmade X → Agreeing X p c w₁ := by
    intro hX
    cases hclone
    have hmoves : Moves I X w { w with cells := w.cells.push (w.cell p) } := .push hw₁
    have hsize : ({ w with cells := w.cells.push (w.cell p) } : World φ).cells.size =
        w.cells.size + 1 := Array.size_push _
    refine ⟨hsize ▸ Nat.lt_succ_of_lt hp, hsize ▸ Nat.lt_succ_self _,
      (hmoves.evolves hintact hX).intact, ?_⟩
    rw [World.cell_push, World.cell_push, if_neg (Nat.ne_of_lt hp), if_pos rfl]
    exact .refl _ _
  have hagree := (agreeing_of_alters hI happly hthunks hw₁ hstart h).2 hX
  exact comesTo_iff_of_meet hagree.meet s i env o

end

/-! ## A deferred parser of any character -/

section

open Script (Function applyFunction)

/-- Deferred parsers are made by nothing or by the function of any character. -/
structure AnyCharThunks (w : World Function) : Prop where
  lt : Ref.anyChar < w.cells.size
  thunk (d : DeferralRef) : (w.deferral d).thunk = .null ∨ (w.deferral d).thunk = anyCharThunk

theorem stable_anyCharThunks : Stable AnyCharThunks False where
  log _ _ h := ⟨h.lt, h.thunk⟩
  rebind w r r' h := ⟨by simpa [World.rebind] using h.lt, h.thunk⟩
  resolve w d r h := by
    refine ⟨h.lt, fun d' => ?_⟩
    rcases World.deferral_resolve w d d' (.parser r) with hd | hd <;> rw [hd] <;> exact h.thunk d'
  plain := nofun

theorem movesFunctions_lookUpOnly (I : World Function → Prop) (X : DeferralRef → Prop) :
    MovesFunctions lookUpOnly I X := by
  intro _ _ f args
  unfold lookUpOnly
  split
  · unfold Script.lookUp
    split
    · exact (closed_moving I X).pure _
    · exact moving_throw _
  · exact moving_throw _

theorem makesObjects_lookUpOnly (budget depth : Nat) :
    MakesObjects (tools lookUpOnly budget depth) AnyCharThunks := by
  intro w o d hw hd
  cases depth with
  | zero => exact returns_throw
  | succ depth =>
    rcases hw.thunk d with h | h <;> rw [h]
    · exact returns_throw
    · have hcall : (tools lookUpOnly budget (depth + 1)).call anyCharThunk [] w =
          .ok (.parser Ref.anyChar) w := rfl
      rintro made w' hmade
      rw [hcall] at hmade
      cases hmade
      refine ⟨hd, fun r hr => ?_⟩
      cases hr
      exact hw.lt

theorem anyCharThunks_deferring : AnyCharThunks deferring where
  lt := by decide
  thunk d := by
    cases d with
    | zero => exact Or.inr rfl
    | succ => exact Or.inl rfl

theorem intact_deferring (X : DeferralRef → Prop) : deferring.Intact X := by
  rintro d o hd -
  obtain ⟨hlt, rfl, -⟩ := hd.deferral_eq
  obtain rfl : d = 0 := Nat.lt_one_iff.1 hlt
  rfl

/-- The deferred parser is made through the clone, and the parser of the rest is replaced. -/
theorem clone_agrees_deferring : ∃ w', (w'.cell 5).behaviour = .anyChar ∧
    (w'.cell 6).behaviour = .deferred 0 ∧ (w'.cell Ref.rest).behaviour = .eof ∧
    ∀ s i env o w'', ComesTo lookUpOnly 5 s i env w' o w'' ↔
      ComesTo lookUpOnly 6 s i env w' o w'' := by
  obtain ⟨outcome, w, hparse, hcell, hclone, hchar, heof, htarget, hself, hsize, hone⟩ :
      ∃ outcome w,
      (host (tools lookUpOnly 9 9)).parse 6 "a".toList .null cloned = .ok outcome w ∧
        (w.cell 5).behaviour = .anyChar ∧ (w.cell 6).behaviour = .deferred 0 ∧
        (w.cell Ref.anyChar).behaviour = .anyChar ∧ (w.cell Ref.eof).behaviour = .eof ∧
        (w.deferral 0).target = .parser Ref.anyChar ∧ (w.deferral 0).self = 5 ∧
        w.cells.size = 7 ∧ w.deferrals.size = 1 :=
    ⟨_, _, rfl, rfl, rfl, rfl, rfl, rfl, rfl, rfl, rfl⟩
  have hspares : Spares (fun _ => False) 5 6 w Ref.rest := by
    refine ⟨by rw [hsize]; decide, by decide, by decide, ?_, fun d hd => ?_⟩
    · have hplain : ∀ a, ¬w.PassesThrough a .anyChar := World.not_passesThrough nofun
      rw [hcell, hclone]
      refine ⟨fun h => absurd h (hplain _), fun h => ?_⟩
      rcases h.cases htarget with h | h
      · cases h
      · rwa [hchar] at h
    · obtain ⟨hlt, howner, -⟩ := hd.deferral_eq
      obtain rfl : d = 0 := Nat.lt_one_iff.1 (hone ▸ hlt)
      cases hself.symm.trans howner
  have hreplace : replace Ref.rest Ref.eof w = .ok ⟨⟩ (w.rebind Ref.rest .eof) := by
    rw [← heof]
    rfl
  refine ⟨w.rebind Ref.rest .eof, ?_, ?_, ?_, fun s i env o w'' => ?_⟩
  · rw [World.cell_rebind_of_ne (by decide), hcell]
  · rw [World.cell_rebind_of_ne (by decide), hclone]
  · rw [World.cell_rebind_self hspares.lt]
  · have hcloned : AnyCharThunks cloned := ⟨by decide, anyCharThunks_deferring.thunk⟩
    have hclone : clone 5 deferring = .ok 6 cloned := rfl
    exact clone_agrees stable_anyCharThunks (movesFunctions_lookUpOnly _ _)
      makesObjects_lookUpOnly hcloned (intact_deferring _) (by decide) hclone
      (.tail (.single (.parse 9 9 hparse)) (.replace hspares hreplace)) nofun s i env o w''

/-- The deferred parser is made, and then the parser of any character is replaced by the end of the
text: the deferred parser matches a character and its clone does not. -/
theorem clone_not_agrees : ¬∀ (w w₁ w' : World Function) (p c : Ref), p < w.cells.size →
    clone p w = .ok c w₁ → ReflTransGen (Alters (applyFunction []) (fun _ => True)
      (fun _ a => a ≠ p ∧ a ≠ c)) w₁ w' →
    ∀ s i env o w'', ComesTo (applyFunction []) p s i env w' o w'' ↔
      ComesTo (applyFunction []) c s i env w' o w'' := by
  intro h
  obtain ⟨outcome, w, hparse, hdeferred, hclone, heof, htarget, hsize⟩ : ∃ outcome w,
      (host (tools (applyFunction []) 9 9)).parse 5 "a".toList .null cloned = .ok outcome w ∧
        (w.cell 5).behaviour = .anyChar ∧ (w.cell 6).behaviour = .deferred 0 ∧
        (w.cell Ref.eof).behaviour = .eof ∧ (w.deferral 0).target = .parser Ref.anyChar ∧
        w.cells.size = 7 := by
    simp only [tools, callValue, applyFunction]
    exact ⟨_, _, rfl, rfl, rfl, rfl, rfl, rfl⟩
  have hreplace : replace Ref.anyChar Ref.eof w = .ok ⟨⟩ (w.rebind Ref.anyChar .eof) := by
    rw [← heof]
    rfl
  have hagree := h deferring cloned _ 5 6 (by decide) rfl
    (.tail (.single (.parse 9 9 hparse)) (.replace ⟨by decide, by decide⟩ hreplace)) ['a'] 0 .null
    (.ok (.success 1 (.text "a"))) (w.rebind Ref.anyChar .eof)
  have hchar : Ref.anyChar < w.cells.size := by
    rw [hsize]
    decide
  have hpasses : (w.rebind Ref.anyChar .eof).Passes (.deferred 0) .eof :=
    .made htarget (by simpa [World.rebind] using hchar) (by rw [World.cell_rebind_self hchar])
  simp only [comesTo_iff_denote] at hagree
  rw [World.cell_rebind_of_ne (by decide), World.cell_rebind_of_ne (by decide), hdeferred, hclone,
    denotes_iff_of_passes hpasses] at hagree
  obtain ⟨_, _, hfails⟩ := hagree.1 ⟨0, 0, rfl⟩
  cases hfails

end

end Furthest.Machine
