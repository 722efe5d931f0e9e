import Furthest.Proofs.Deferred.Runs
import Furthest.Script.Eval

/-!
# Worlds that are their own rules

A world says itself what its objects do: each object stands for itself.  That is simplest where no
object calls a function and nothing is deferred, since there is no function then that could have an
effect (`faithful_ofWorld`, `pureFunctions_ofWorld`).  Deferred parsers that were not used yet stand
for themselves too, and so do functions that change nothing (`faithful_own`, `pureFunctions_own`).
-/

namespace Furthest

variable {φ : Type} [FunctionText φ]

/-- The first objects of a world, each for itself. -/
def Bond.ofObjects (φ : Type) (n : Nat) : Bond φ where
  objects r := if r < n then some r else none
  deferrals _ := none
  functions _ _ := False
  thunks _ _ := False

/-- What a world says of its objects, where nothing is deferred and no function is called. -/
def Rules.ofWorld (w : World φ) : Rules φ where
  rule r := (w.cell r).behaviour
  target _ := 0
  names := w.names
  apply _ _ := .error .noAlternatives
  answers _ h := by cases h
  admits B := (∀ d, B.deferrals d = none) ∧ ∀ f f', ¬B.functions f f'
  admits_insert h _ := h

omit [FunctionText φ] in
theorem Bond.ofObjects_objects {n : Nat} {r r' : Ref} :
    (Bond.ofObjects φ n).objects r = some r' ↔ r < n ∧ r = r' := by
  simp [Bond.ofObjects]

theorem pureFunctions_ofWorld (apply : Tools φ → φ → List (Value φ) → Machine φ (Value φ))
    (w : World φ) (budget : Nat) : PureFunctions apply budget (.ofWorld w) where
  call hw hf := absurd hf (hw.admitted.2 _ _)
  thunk hw hd := by
    rw [hw.admitted.1] at hd
    cases hd

/-- A world models what it says of its objects, if these refer to each other only. -/
theorem faithful_ofWorld {w : World φ} {n : Nat} (hn : n ≤ w.cells.size) (heof : Ref.eof < n)
    (hnone : w.deferrals = #[])
    (h : ∀ r < n, (w.cell r).behaviour.Like (Bond.likeness φ) (.ofObjects φ n)
      (w.cell r).behaviour) :
    Faithful (.ofWorld w) (.ofObjects φ n) w where
  models := by
    refine ⟨Bond.ofObjects_objects.2 ⟨heof, rfl⟩, ⟨fun _ => rfl, fun _ _ => id⟩, fun hr => ?_, ?_,
      nofun, nofun, ?_, nofun, nofun⟩
    · exact Nat.lt_of_lt_of_le (Bond.ofObjects_objects.1 hr).1 hn
    · intro r r' hr
      obtain ⟨hlt, rfl⟩ := Bond.ofObjects_objects.1 hr
      exact .rule (h r hlt)
    · intro r r' hr
      obtain ⟨-, rfl⟩ := Bond.ofObjects_objects.1 hr
      rfl
  counted d := by
    have hdefault : w.deferral d = default := by simp [World.deferral, hnone]
    rw [hdefault]
    exact ⟨Nat.zero_le 1, fun _ => rfl⟩

/-! ## Deferred parsers and functions -/

/-- The first objects of a world, its deferred parsers and the functions `F`, each for itself. -/
def Bond.own (w : World φ) (n : Nat) (F : φ → Prop) : Bond φ where
  objects r := if r < n then some r else none
  deferrals d := if d < w.deferrals.size then some d else none
  functions f f' := f = f' ∧ F f
  thunks v d := d < w.deferrals.size ∧ v = (w.deferral d).thunk

/-- What a world says of its objects, where the functions of deferred parsers give the objects
`target` and the functions `F` give what `answer` says. -/
def Rules.own (w : World φ) (target : DeferralRef → Ref) (F : φ → Prop)
    (answer : φ → List (Value φ) → Except (Fault φ) (Value φ))
    (hcustom : ∀ r f, (w.cell r).behaviour ≠ .custom (.function f)) : Rules φ where
  rule r := (w.cell r).behaviour
  target := target
  names := w.names
  apply := answer
  answers hr _ := absurd hr (hcustom _ _)
  admits B := (∀ d < w.deferrals.size, B.objects (target d) = some (target d)) ∧
    (∀ f f', B.functions f f' → f = f' ∧ F f) ∧
    ∀ v d, B.thunks v d → d < w.deferrals.size ∧ v = (w.deferral d).thunk
  admits_insert h hr := ⟨fun d hd => (Bond.le_insert hr _).objects (h.1 d hd), h.2⟩

/-- No deferred parser of a world was used yet, and each is what its object does, which is one of
the first. -/
structure World.Unused (w : World φ) (n : Nat) : Prop where
  self_lt {d : DeferralRef} : d < w.deferrals.size → (w.deferral d).self < n
  behaviour_eq {d : DeferralRef} : d < w.deferrals.size →
    (w.cell (w.deferral d).self).behaviour = .deferred d
  target_eq (d : DeferralRef) : (w.deferral d).target = .null
  made_eq (d : DeferralRef) : (w.deferral d).made = 0

section

variable {w : World φ} {n : Nat} {F : φ → Prop} {target : DeferralRef → Ref}
  {answer : φ → List (Value φ) → Except (Fault φ) (Value φ)}
  {hcustom : ∀ r f, (w.cell r).behaviour ≠ .custom (.function f)}

omit [FunctionText φ] in
theorem Bond.own_objects {r r' : Ref} :
    (Bond.own w n F).objects r = some r' ↔ r < n ∧ r = r' := by
  simp [Bond.own]

omit [FunctionText φ] in
theorem Bond.own_deferrals {d d' : DeferralRef} :
    (Bond.own w n F).deferrals d = some d' ↔ d < w.deferrals.size ∧ d = d' := by
  simp [Bond.own]

/-- Functions that change nothing are pure. -/
theorem pureFunctions_own {apply : Tools φ → φ → List (Value φ) → Machine φ (Value φ)}
    {budget : Nat}
    (hcall : ∀ f, F f → ∀ depth args w₁,
      (Machine.tools apply budget (depth + 1)).call (.function f) args w₁ =
        settledIn (answer f args) w₁)
    (hanswer : ∀ f, F f → ∀ (B : Bond φ) args args', List.Forall₂ (Value.Like B) args args' →
      Related B (Value.Like B) (answer f args) (answer f args'))
    (hthunk : ∀ d < w.deferrals.size, ∀ depth w₁,
      (Machine.tools apply budget (depth + 1)).call (w.deferral d).thunk [] w₁ =
        settledIn (.ok (.parser (target d))) w₁) :
    PureFunctions apply budget (.own w target F answer hcustom) where
  call {B w₁ f f' args args'} hw hf hargs := by
    obtain ⟨-, hfunctions, -⟩ := hw.admitted
    obtain ⟨rfl, hF⟩ := hfunctions _ _ hf
    exact ⟨_, w₁, B, Machine.settlesIn_call fun depth => hcall f hF depth args w₁, le_refl B,
      ⟨hw, fun _ => rfl, fun _ => rfl⟩, hanswer f hF B _ _ hargs⟩
  thunk {B w₁ d d'} hw _ _ hd' := by
    obtain ⟨hobjects, -, hthunks⟩ := hw.admitted
    obtain ⟨hlt, heq⟩ := hthunks _ _ hd'
    rw [heq]
    exact ⟨target d', w₁, B, Machine.settlesIn_call fun depth => hthunk d' hlt depth w₁,
      le_refl B, ⟨hw, fun _ => rfl, fun _ => rfl⟩, hobjects d' hlt⟩

/-- A world models what it says of its objects and of its deferred parsers, if the objects refer to
each other and to the functions only and nothing was used yet. -/
theorem faithful_own (hn : n ≤ w.cells.size) (heof : Ref.eof < n) (hunused : w.Unused n)
    (htarget : ∀ d < w.deferrals.size, target d < n)
    (h : ∀ r < n, (w.cell r).behaviour.Like (Bond.likeness φ) (.own w n F) (w.cell r).behaviour) :
    Faithful (.own w target F answer hcustom) (.own w n F) w where
  models := by
    refine ⟨Bond.own_objects.2 ⟨heof, rfl⟩, ⟨?_, fun _ _ => id, fun _ _ => id⟩, fun hr => ?_, ?_,
      fun hd => (Bond.own_deferrals.1 hd).1, ?_, ?_, ?_, ?_⟩
    · exact fun d hd => Bond.own_objects.2 ⟨htarget d hd, rfl⟩
    · exact Nat.lt_of_lt_of_le (Bond.own_objects.1 hr).1 hn
    · intro r r' hr
      obtain ⟨hlt, rfl⟩ := Bond.own_objects.1 hr
      exact .rule (h r hlt)
    · intro d d' hd
      obtain ⟨hlt, rfl⟩ := Bond.own_deferrals.1 hd
      have hself : (Bond.own w n F).objects (w.deferral d).self = some (w.deferral d).self :=
        Bond.own_objects.2 ⟨hunused.self_lt hlt, rfl⟩
      exact ⟨⟨_, hself, hunused.behaviour_eq hlt⟩, Or.inl ⟨hunused.target_eq d, hlt, rfl⟩⟩
    · intro r r' hr
      obtain ⟨-, rfl⟩ := Bond.own_objects.1 hr
      rfl
    · rintro f _ ⟨rfl, -⟩
      rfl
    · rintro f _ ⟨rfl, -⟩
      rfl
  counted d := by
    have hmade := hunused.made_eq d
    exact ⟨hmade ▸ Nat.zero_le 1, fun _ => hmade⟩

end

/-! ### A function that gives an object -/

namespace Machine

open Script (Function applyFunction)

/-- A function that gives an object, and does nothing else. -/
def objectThunk (r : Ref) : Value Function :=
  .function (.closure none [] (.ref "p") [("p", .parser r)])

theorem call_objectThunk (r : Ref) (budget depth : Nat) (w : World Function) :
    (tools (applyFunction []) budget (depth + 1)).call (objectThunk r) [] w =
      settledIn (.ok (.parser r)) w := by
  simp only [tools, objectThunk, callValue, applyFunction, Script.eval, Script.lookUp]
  rfl

end Machine

end Furthest
