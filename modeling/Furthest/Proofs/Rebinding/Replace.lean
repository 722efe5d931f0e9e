import Mathlib.Logic.Relation
import Furthest.Proofs.Rebinding.Frame
import Furthest.Proofs.WellFormed.Machine

/-!
# What replacing lasts for

An object that was replaced does what its substitute did then, through any sequence of clones,
replacements of other objects, new objects, runs, calls and parses, as long as none of these makes a
deferred parser that awaited the object (`Machine.behaviour_after_replace`).

The condition is needed.  Making a deferred parser rebinds the object it was made with, whatever
that object has been replaced by (`Machine.rebound_useDeferred`), and a clone of the object makes it
too: the replacement is lost (`Machine.replace_not_kept`).
-/

namespace Furthest.Machine

open Relation (ReflTransGen)

variable {φ : Type} [FunctionText φ]

/-- What may happen to a world without an explicit replacement of the object `o`. -/
inductive Rewires (apply : Tools φ → φ → List (Value φ) → Machine φ (Value φ)) (o : Ref) :
    World φ → World φ → Prop where
  | clone {w w' : World φ} {r c : Ref} : clone r w = .ok c w' → Rewires apply o w w'
  | replace {w w' : World φ} {r substitute : Ref} : r ≠ o →
    replace r substitute w = .ok ⟨⟩ w' → Rewires apply o w w'
  | allocate {w w' : World φ} {c : Cell φ} {r : Ref} :
    allocate c w = .ok r w' → Rewires apply o w w'
  | allocateDeferred {w w' : World φ} {thunk : Value φ} {r : Ref} :
    allocateDeferred thunk w = .ok r w' → Rewires apply o w w'
  | run {w w' : World φ} {r : Ref} {s : Input} {i : Nat} {env : Value φ}
    {result : Result (Value φ)} (budget depth : Nat) :
    (tools apply budget depth).run r s i env w = .ok result w' → Rewires apply o w w'
  | call {w w' : World φ} {v answer : Value φ} {args : List (Value φ)} (budget depth : Nat) :
    (tools apply budget depth).call v args w = .ok answer w' → Rewires apply o w w'
  | parse {w w' : World φ} {r : Ref} {s : Input} {env : Value φ} {outcome : Outcome φ}
    (budget depth : Nat) :
    (host (tools apply budget depth)).parse r s env w = .ok outcome w' → Rewires apply o w w'

/-- In the world `w'` an object does what the function of a deferred parser made in `w`. -/
def Rebound (t : Tools φ) (w : World φ) (d : DeferralRef) (o : Ref) (w' : World φ) : Prop :=
  ∃ made w₁, t.call (w.deferral d).thunk [] w = .ok (.parser made) w₁ ∧
    (w'.cell o).behaviour = (w'.cell made).behaviour

section

variable {apply : Tools φ → φ → List (Value φ) → Machine φ (Value φ)} {o r : Ref}
  {w w₀ w' : World φ}

theorem Rewires.frame (happly : FramesFunctions apply o) (h : Rewires apply o w w')
    (ho : o < w.cells.size) : Frame o w w' := by
  cases h with
  | clone h => exact frames_clone _ w ho _ w' h
  | replace hr h => exact frames_replace hr _ w ho _ w' h
  | allocate h => exact frames_allocate _ w ho _ w' h
  | allocateDeferred h => exact frames_allocateDeferred _ w ho _ w' h
  | run budget depth h => exact (frames_tools happly budget depth).run _ _ _ _ w ho _ w' h
  | call budget depth h => exact (frames_tools happly budget depth).call _ _ w ho _ w' h
  | parse budget depth h => exact frames_parse happly budget depth _ _ _ w ho _ w' h

theorem frame_of_rewired (happly : FramesFunctions apply o)
    (h : ReflTransGen (Rewires apply o) w w') (ho : o < w.cells.size) : Frame o w w' := by
  induction h with
  | refl => exact .refl o w
  | tail _ hstep ih => exact ih.trans (hstep.frame happly (Nat.lt_of_lt_of_le ho ih.cells_le))

omit [FunctionText φ] in
theorem behaviour_replace (ho : o < w.cells.size) (h : replace o r w = .ok ⟨⟩ w₀) :
    o < w₀.cells.size ∧ (w₀.cell o).behaviour = (w.cell r).behaviour := by
  cases h
  refine ⟨?_, ?_⟩
  · show o < (w.cells.modify o _).size
    rwa [Array.size_modify]
  · show ((w.rebind o (w.cell r).behaviour).cell o).behaviour = _
    rw [World.cell_rebind_self ho]

omit [FunctionText φ] in
/-- The first use of a deferred parser rebinds the object that it was made with, whatever that
object did. -/
theorem rebound_useDeferred {α : Type} {use : Value φ → Machine φ α} {t : Tools φ}
    (ht : FramesTools o t) (huse : ∀ v, Frames o (use v)) (ho : o < w.cells.size) {d : DeferralRef}
    (hd : w.Awaits o d) : Returns (useDeferred t use d) w fun _ w' => Rebound t w d o w' := by
  obtain ⟨x, hx, rfl, hnull⟩ := hd
  have hdeferral : w.deferral d = x := by simp [World.deferral, hx]
  rintro result w' hrun
  obtain ⟨_, _, ⟨⟩, hrun⟩ := bind_eq_ok hrun
  simp only [hdeferral, hnull] at hrun
  obtain ⟨made, w₁, hcall, hadopt⟩ := bind_eq_ok hrun
  have ho₁ := Nat.lt_of_lt_of_le ho (ht.call _ _ w ho made w₁ hcall).cells_le
  obtain ⟨_, _, ⟨⟩, hadopt⟩ := bind_eq_ok hadopt
  cases made with
  | parser made =>
    refine ⟨made, w₁, by rwa [hdeferral], ?_⟩
    obtain ⟨_, w₂, ⟨⟩, hadopt⟩ := bind_eq_ok hadopt
    obtain ⟨result, w₃, hmade, hadopt⟩ := bind_eq_ok hadopt
    obtain ⟨_, _, ⟨⟩, ⟨⟩⟩ := bind_eq_ok hadopt
    have ho₂ : x.self < (((w₁.resolve d (.parser made)).rebind x.self
        (w₁.cell made).behaviour)).cells.size := by
      simpa [World.rebind, World.resolve] using ho₁
    have ho₃ := Nat.lt_of_lt_of_le ho₂ (huse _ _ ho₂ _ w₃ hmade).cells_le
    show ((w₃.rebind x.self (w₃.cell made).behaviour).cell x.self).behaviour =
      ((w₃.rebind x.self (w₃.cell made).behaviour).cell made).behaviour
    rw [World.cell_rebind_self ho₃]
    rcases World.behaviour_rebind w₃ x.self made (w₃.cell made).behaviour with h | h <;> rw [h]
  | _ => cases hadopt

/-- An object that was replaced goes on to do what its substitute did then, until it is replaced
again or a deferred parser that awaited it is made.  The first run of such a deferred parser, or the
first call of it, rebinds the object. -/
theorem behaviour_after_replace (happly : FramesFunctions apply o) (ho : o < w.cells.size)
    (hreplace : replace o r w = .ok ⟨⟩ w₀) (h : ReflTransGen (Rewires apply o) w₀ w')
    (hawaits : ∀ d, w₀.Awaits o d → w'.Awaits o d) :
    (w'.cell o).behaviour = (w.cell r).behaviour ∧
      (∀ budget depth s i env, (tools apply budget (depth + 1)).run o s i env w' =
        (w.cell r).behaviour.denote (host (tools apply budget depth)) s i env w') ∧
      ∀ d, w'.Awaits o d → ∀ budget depth,
        (∀ s i env, Returns (runDeferred (tools apply budget depth) d s i env) w'
          fun _ w'' => Rebound (tools apply budget depth) w' d o w'') ∧
        ∀ args, Returns (useDeferred (tools apply budget depth)
            (fun v => (tools apply budget depth).call v args) d) w'
          fun _ w'' => Rebound (tools apply budget depth) w' d o w'' := by
  obtain ⟨ho₀, hsubstitute⟩ := behaviour_replace ho hreplace
  have hframe := frame_of_rewired happly h ho₀
  have hkept := (hframe.behaviour_eq hawaits).trans hsubstitute
  refine ⟨hkept, fun budget depth s i env => ?_, fun d hd budget depth => ?_⟩
  · rw [← hkept]
    rfl
  · have ht := frames_tools happly budget depth
    have ho' := Nat.lt_of_lt_of_le ho₀ hframe.cells_le
    refine ⟨fun s i env => ?_, fun args => ?_⟩
    · exact rebound_useDeferred ht
        ((closed_frames o).runTarget frames_throw ht.run ht.call s i env) ho' hd
    · exact rebound_useDeferred ht (fun v => ht.call v args) ho' hd

end

/-! ## A deferred parser and its clone -/

section

open Script (Function)

/-- A world with a deferred parser of any character and a clone of it. -/
def cloned : World Function :=
  { deferring with cells := deferring.cells.push (deferring.cell 5) }

/-- Functions that give what a name stands for. -/
def lookUpOnly (_ : Tools Function) :
    Function → List (Value Function) → Machine Function (Value Function)
  | .closure _ [] (.ref name) scope, _ => Script.lookUp [] scope name
  | f, _ => fault (.notCallable (.function f))

theorem framesFunctions_lookUpOnly (o : Ref) : FramesFunctions lookUpOnly o := by
  intro _ _ f args
  unfold lookUpOnly
  split
  · unfold Script.lookUp
    split
    · exact frames_pure _
    · exact frames_throw _
  · exact frames_throw _

/-- The clone is replaced by the end of the text, and the deferred parser is made after that.  Where
the deferred parser's own object is replaced instead, that object is rebound. -/
theorem behaviour_after_replace_clone :
    (∃ w₀ w', replace 6 Ref.eof cloned = .ok ⟨⟩ w₀ ∧
      ReflTransGen (Rewires lookUpOnly 6) w₀ w' ∧ (∀ d, w₀.Awaits 6 d → w'.Awaits 6 d) ∧
      (w'.deferral 0).target = .parser Ref.anyChar ∧ (w'.cell 6).behaviour = .eof) ∧
    ∃ w₀, replace 5 Ref.eof cloned = .ok ⟨⟩ w₀ ∧ w₀.Awaits 5 0 ∧ (w₀.cell 5).behaviour = .eof ∧
      ∃ result w', runDeferred (tools lookUpOnly 9 9) 0 ['a'] 0 .null w₀ = .ok result w' ∧
        Rebound (tools lookUpOnly 9 9) w₀ 0 5 w' := by
  constructor
  · obtain ⟨outcome, w', hparse, htarget⟩ : ∃ outcome w',
        (host (tools lookUpOnly 9 9)).parse 5 "a".toList .null (cloned.rebind 6 .eof) =
          .ok outcome w' ∧ (w'.deferral 0).target = .parser Ref.anyChar := ⟨_, _, rfl, rfl⟩
    have hnone : ∀ d, ¬(cloned.rebind 6 .eof).Awaits 6 d := by
      rintro d ⟨x, hx, hself, -⟩
      cases d with
      | zero =>
        cases hx
        cases hself
      | succ d => simp [cloned, deferring, World.rebind] at hx
    have h := ReflTransGen.single (Rewires.parse (o := 6) 9 9 hparse)
    have hawaits : ∀ d, (cloned.rebind 6 .eof).Awaits 6 d → w'.Awaits 6 d :=
      fun d hd => absurd hd (hnone d)
    exact ⟨_, w', rfl, h, hawaits, htarget,
      (behaviour_after_replace (r := Ref.eof) (framesFunctions_lookUpOnly 6) (by decide) rfl h
        hawaits).1⟩
  · have hawaits : (cloned.rebind 5 .eof).Awaits 5 0 := ⟨_, rfl, rfl, rfl⟩
    obtain ⟨result, w', hused⟩ : ∃ result w', runDeferred (tools lookUpOnly 9 9) 0 ['a'] 0 .null
        (cloned.rebind 5 .eof) = .ok result w' := ⟨_, _, rfl⟩
    obtain ⟨hbehaviour, -, hrebound⟩ := behaviour_after_replace (w := cloned) (r := Ref.eof)
      (framesFunctions_lookUpOnly 5) (by decide) rfl .refl fun _ => id
    obtain ⟨hrun, -⟩ := hrebound 0 hawaits 9 9
    exact ⟨_, rfl, hawaits, hbehaviour, result, w', hused, hrun ['a'] 0 .null _ _ hused⟩

/-- A replacement is lost: the deferred parser is replaced by the end of the text, its clone is
used, and the deferred parser matches a character again. -/
theorem replace_not_kept : ¬∀ (w w₀ w' : World Function) (o r : Ref), o < w.cells.size →
    replace o r w = .ok ⟨⟩ w₀ → ReflTransGen (Rewires (Script.applyFunction []) o) w₀ w' →
    ∀ budget depth s i env,
      (tools (Script.applyFunction []) budget (depth + 1)).run o s i env w' =
        (w.cell r).behaviour.denote (host (tools (Script.applyFunction []) budget depth)) s i
          env w' := by
  intro h
  obtain ⟨outcome, w', hparse, hcell⟩ : ∃ outcome w',
      (host (tools (Script.applyFunction []) 9 9)).parse 6 "a".toList .null
        (cloned.rebind 5 .eof) = .ok outcome w' ∧ (w'.cell 5).behaviour = .anyChar := by
    simp only [tools, callValue, Script.applyFunction]
    exact ⟨_, _, rfl, rfl⟩
  have hrun := h cloned _ w' 5 Ref.eof (by decide) rfl (.single (.parse 9 9 hparse)) 9 9 ['a'] 0
    .null
  have hleft : (tools (Script.applyFunction []) 9 10).run 5 ['a'] 0 .null w' =
      .ok (.success 1 (.text "a")) w' := by
    show (w'.cell 5).behaviour.denote (host (tools (Script.applyFunction []) 9 9)) ['a'] 0 .null
      w' = _
    rw [hcell]
    rfl
  cases hleft.symm.trans hrun

end

end Furthest.Machine
