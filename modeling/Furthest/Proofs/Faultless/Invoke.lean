import Furthest.Proofs.Faultless.Constructors
import Furthest.Proofs.Faultless.Machine
import Furthest.Proofs.OrderedChoice.Sound
import Furthest.Proofs.WellFormed.Machine

/-!
# Invoked objects do not fault

The objects of a script that serve have grammars which the constructors make, and what lies outside
these grammars is total (`Machine.TotalObjects`).  Such an object, invoked anywhere in a text, comes
to a result (`Machine.invoke_total`): a text that does not match is never a fault, and neither is
anything the library does on its way.

There is one exception.  Whether so large a bound is finite cannot be told from a count on
(`Behaviour.boundCeiling`), so a repetition with such a bound faults on a match of nothing, which
the check of its arguments does not prevent (`Machine.times_faults`).
-/

namespace Furthest.Machine

open Setting Behaviour

/-- Counts are accepted as bounds, however large, if they are in order. -/
theorem checked_times {φ : Type} (p : Ref) {least most : Nat} (h : least ≤ most) :
    Checked.times (.parser p) (.nat least) (.nat most) =
      .ok (Checked.unnamed (.times (.object p) (.finite least) (.finite most)) : Cell φ) := by
  have hleast : (Number.int least).lt (.int 0) = false := by simp [Number.lt, Number.place]
  have hmost : (Number.int most).lt (.int least) = false := by
    simpa [Number.lt, Number.place] using h
  have hlimit : ∀ n : Nat, (Number.int n).limit = .finite n := fun n => by
    simp [Number.limit, Number.place]
  have hbounds : Checked.bounds (.int least) (.int most) =
      (.ok (.finite least, .finite most) : Checked.Built φ (Limit × Limit)) := by
    rw [Checked.bounds, hleast, hmost, hlimit, hlimit]
    rfl
  have hrepeated : Checked.repeated (.parser p) (.nat least) (.nat most) =
      (.ok (.times (.object p) (.finite least) (.finite most)) : Checked.Built φ (Grammar φ)) := by
    show (Checked.bounds (.int least) (.int most) >>= fun x =>
      pure (Grammar.times (.object p) x.1 x.2) : Checked.Built φ (Grammar φ)) = _
    rw [hbounds]
    rfl
  rw [Checked.times, hrepeated]
  rfl

/-! ## Objects that serve -/

/-- Objects that serve are made by constructors, and what lies outside their grammars is total
however deep a run may go.  What serves goes on serving, also once lines were logged. -/
structure TotalObjects
    (apply : Tools Script.Function → Script.Function → List (Value Script.Function) →
      Machine Script.Function (Value Script.Function)) (budget : Nat)
    (K : Setting Script.Function (World Script.Function))
    (S : World Script.Function → Ref → Value Script.Function → Prop) : Prop where
  made {w : World Script.Function} {r : Ref} {env : Value Script.Function} :
    S w r env → (w.cell r).behaviour.Made
  total (depth : Nat) {w : World Script.Function} {r : Ref} {env : Value Script.Function} :
    S w r env → (w.cell r).behaviour.Total (host (tools apply budget depth)) K
      (serving (tools apply budget depth) K S) env w
  mono {w w' : World Script.Function} {r : Ref} {env : Value Script.Function} :
    S w r env → K.reach w w' → S w' r env
  log (w : World Script.Function) (line : String) : K.reach w { w with log := w.log.push line }

section

variable {apply : Tools Script.Function → Script.Function → List (Value Script.Function) →
    Machine Script.Function (Value Script.Function)} {budget : Nat}
  {K : Setting Script.Function (World Script.Function)}
  {S : World Script.Function → Ref → Value Script.Function → Prop}
  {w : World Script.Function} {r : Ref} {env : Value Script.Function}

theorem serves_host (h : TotalObjects apply budget K S) {t : Tools Script.Function}
    (hS : ∀ {w r env}, S w r env → K.Serves (t.run r) env w) :
    (host t).Serves K (serving t K S) where
  object := hS
  deferred := serves_runDeferred hS
  describe _ w := ⟨K.reach_refl w, trivial⟩
  log _ w := ⟨h.log w _, trivial⟩

/-- Objects serve, however deep their runs may go. -/
theorem serves_run (h : TotalObjects apply budget K S) (hr : S w r env) (depth : Nat) :
    K.Serves ((tools apply budget depth).run r) env w := by
  induction depth generalizing w r env with
  | zero => exact fun _ _ _ _ _ => finishes_stopped
  | succ depth ih =>
    intro w' hw s i hi
    have htotal := h.total depth (h.mono hr hw)
    exact Grammar.serves_denote (serves_host h ih) _ htotal w' (K.reach_refl w') s i hi

/-- What a total grammar answers is a result, if calls of objects that serve come to results. -/
theorem finishes_answer (h : TotalObjects apply budget K S) {text : String} {i depth : Nat}
    (hi : K.place text.toList i) {g : Grammar Script.Function}
    (hg : g.Total (host (tools apply budget depth)) K (serving (tools apply budget depth) K S) env
      w)
    (hcall : ∀ w r env, S w r env → K.Finishes
      ((tools apply budget depth).call (.parser r) [.text text, .nat i, env]) w
      fun v _ => ∃ result, v = .result result) :
    K.Finishes (answer (tools apply budget depth) text i env g) w
      fun v _ => ∃ result, v = .result result := by
  have hrun := Grammar.serves_denote (serves_host h fun hr => serves_run h hr depth) g hg w
    (K.reach_refl w) text.toList i hi
  have hplain : K.Finishes (do
      let result ← g.denote (host (tools apply budget depth)) text.toList i env
      return Value.result result) w fun v _ => ∃ result, v = .result result :=
    hrun.bind fun result _ _ _ _ => finishes_pure ⟨result, rfl⟩
  cases g with
  | object r => exact hcall w r env hg
  | deferred d => exact finishes_useDeferred (fun w r hr => hcall w r env hr) hg
  | custom f =>
    have hf := hg w (K.reach_refl w) text.toList i hi
    rw [String.ofList_toList] at hf
    exact hf.mono fun _ _ _ ⟨result, hv, _⟩ => ⟨result, hv⟩
  | fromEnv lookup =>
    refine (hg w (K.reach_refl w)).bind fun v w' _ _ hv => ?_
    obtain ⟨r, rfl, hr⟩ := hv
    exact hcall w' r env hr
  | subEnv p derive =>
    cases p with
    | object r =>
      exact (hg w (K.reach_refl w)).bind fun inner w' _ _ hr => hcall w' r inner hr
    | _ => exact hplain
  | _ => exact hplain

theorem finishes_invoke (h : TotalObjects apply budget K S) (hr : S w r env) {text : String}
    {i : Nat} (hi : i ≤ text.length) (depth : Nat) :
    K.Finishes (invoke (tools apply budget depth) r text i env) w
      fun v _ => ∃ result, v = .result result := by
  have hplace : K.place text.toList i := K.place_of_le (by rwa [String.length_toList])
  have hcell : ∀ w, K.Finishes (cell r) w fun c w' => w.cell r = c ∧ w = w' :=
    fun w => ⟨K.reach_refl w, rfl, rfl⟩
  induction depth generalizing w r env with
  | zero =>
    refine (hcell w).bind ?_
    rintro _ _ - - ⟨rfl, rfl⟩
    exact finishes_answer h hplace (h.total 0 hr) fun _ _ _ _ => finishes_stopped
  | succ depth ih =>
    refine (hcell w).bind ?_
    rintro _ _ - - ⟨rfl, rfl⟩
    exact finishes_answer h hplace (h.total (depth + 1) hr) fun w' r' env' hr' =>
      ih hr' fun w => ⟨K.reach_refl w, rfl, rfl⟩

/-- An object that serves comes to a result wherever it is invoked in a text, unless it is stopped
or a bound is too large, if that is allowed for.  On the way, the functions of the library are only
applied to what they take. -/
theorem invoke_total (h : TotalObjects apply budget K S)
    (hK : ∀ cause, K.allowed cause → cause = .boundTooLarge) (r : Ref)
    (env : Value Script.Function) (hr : S w r env) (text : String) (i : Nat) (hi : i ≤ text.length)
    (depth : Nat) :
    ((∃ result w', invoke (tools apply budget depth) r text i env w = .ok (.result result) w') ∨
      (∃ w', invoke (tools apply budget depth) r text i env w = .error .exhausted w') ∨
      (K.allowed .boundTooLarge ∧
        ∃ w', invoke (tools apply budget depth) r text i env w =
          .error (.fault .boundTooLarge) w')) ∧
    (∀ w' r' env', S w' r' env' → ∀ p f, (w'.cell r').behaviour.Applies p f →
      ∀ t, Produces (p.denote (host t)) f.Takes) := by
  refine ⟨?_, fun w' r' env' hr' p f hf t => (h.made hr').fits.takes_value (host t) hf⟩
  have hrun := finishes_invoke h hr hi depth
  unfold Finishes at hrun
  cases hend : invoke (tools apply budget depth) r text i env w with
  | ok v w' =>
    rw [hend] at hrun
    obtain ⟨-, result, rfl⟩ := hrun
    exact Or.inl ⟨result, w', rfl⟩
  | error halt w' =>
    rw [hend] at hrun
    cases halt with
    | exhausted => exact Or.inr (Or.inl ⟨w', rfl⟩)
    | fault cause =>
      obtain rfl := hK cause hrun
      exact Or.inr (Or.inr ⟨hrun, w', rfl⟩)

end

/-! ### A repetition of a deferred parser -/

section

open Script (Function applyFunction)

/-- A world with up to three times the deferred parser of any character. -/
def repeatingDeferred : World Function :=
  { deferring with
    cells := deferring.cells.push
      (Checked.unnamed (.times (.object 5) (.finite 0) (.finite 3))) }

/-- The objects are the shared ones, the deferred parser and its repetition; the deferred parser has
been made or will be. -/
structure Repeats (w : World Function) : Prop where
  cells : ∀ r, (w.cell r).behaviour ∈ ([.offset, .position, .eof, .anyChar, .rest, .deferred 0,
    .times (.object 5) (.finite 0) (.finite 3)] : List (Grammar Function))
  thunk : (w.deferral 0).thunk = anyCharThunk
  target : (w.deferral 0).target = .null ∨ ∃ r, (w.deferral 0).target = .parser r

theorem repeats_repeatingDeferred : Repeats repeatingDeferred where
  cells r := by
    match r with
    | 0 | 1 | 2 | 3 | 4 | 5 | 6 =>
      simp [repeatingDeferred, deferring, World.initial, World.cell, Checked.unnamed]
    | _ + 7 => exact .tail _ (.tail _ (.tail _ (.tail _ (.head _))))
  thunk := rfl
  target := Or.inl rfl

theorem Repeats.resolve {w : World Function} (h : Repeats w) (d : DeferralRef) (r : Ref) :
    Repeats (w.resolve d (.parser r)) := by
  rcases World.deferral_resolve w d 0 (.parser r) with hd | hd
  · exact ⟨h.cells, by rw [hd]; exact h.thunk, Or.inr ⟨r, by rw [hd]⟩⟩
  · exact ⟨h.cells, by rw [hd]; exact h.thunk, by rw [hd]; exact h.target⟩

theorem Repeats.rebind {w : World Function} (h : Repeats w) (self r : Ref) :
    Repeats (w.rebind self (w.cell r).behaviour) := by
  refine ⟨fun r' => ?_, h.thunk, h.target⟩
  rcases World.behaviour_rebind w self r' (w.cell r).behaviour with hr | hr
  · rw [hr]
    exact h.cells r
  · rw [hr]
    exact h.cells r'

/-- Nothing is allowed to fault, and the objects stay what they are. -/
def repeatsSetting : Setting Function (World Function) where
  allowed _ := False
  reach w w' := Repeats w → Repeats w'
  place s i := i ≤ s.length
  reach_refl _ h := h
  reach_trans h h' hw := h' (h hw)
  place_of_le h := h

theorem deferralTotal_repeats (budget depth : Nat) {w : World Function} (h : Repeats w)
    (env : Value Function) :
    DeferralTotal (tools (applyFunction []) budget depth) repeatsSetting
      (fun w _ _ => Repeats w) w 0 env := by
  intro w' hreach
  have hw := hreach h
  rcases hw.target with htarget | ⟨r, htarget⟩
  · rw [htarget, hw.thunk]
    cases depth with
    | zero => exact finishes_stopped
    | succ depth =>
      have hcall : (tools (applyFunction []) budget (depth + 1)).call anyCharThunk [] w' =
          .ok (.parser Ref.anyChar) w' := by
        simp only [tools, anyCharThunk, callValue, applyFunction, Script.eval, Script.lookUp]
        rfl
      have hadopted : Repeats (adopted w' 0 (w'.deferral 0).self Ref.anyChar) :=
        (hw.resolve 0 Ref.anyChar).rebind _ _
      unfold Finishes
      rw [hcall]
      exact ⟨fun h => h, Ref.anyChar, rfl, fun _ => hadopted, hadopted, fun _ _ h => h.rebind _ _⟩
  · rw [htarget]
    exact hw

theorem totalObjects_repeats (budget : Nat) :
    TotalObjects (applyFunction []) budget repeatsSetting fun w _ _ => Repeats w where
  made {w r _} h := by
    have hr := h.cells r
    simp only [List.mem_cons, List.not_mem_nil, or_false] at hr
    rcases hr with hr | hr | hr | hr | hr | hr | hr <;> rw [hr]
    case inr.inr.inr.inr.inr.inl => exact .deferred 0
    case inr.inr.inr.inr.inr.inr =>
      exact @Grammar.Made.constructed Script.basicConstructors[6] [.parser 5, .nat 0, .nat 3] _
        (List.mem_append_left _ (List.mem_append_left _ (List.mem_append_left _
          (List.getElem_mem _)))) (congrArg some (checked_times 5 (Nat.zero_le 3)))
    all_goals exact .shared (by simp)
  total depth {w r env} h := by
    have hr := h.cells r
    simp only [List.mem_cons, List.not_mem_nil, or_false] at hr
    rcases hr with hr | hr | hr | hr | hr | hr | hr <;> rw [hr]
    case inr.inr.inr.inr.inr.inl => exact deferralTotal_repeats budget depth h env
    case inr.inr.inr.inr.inr.inr =>
      refine ⟨h, ?_⟩
      rintro _ ⟨⟩
      exact Or.inl (lt_boundCeiling (by decide +kernel))
    all_goals exact trivial
  mono h hreach := hreach h
  log _ _ h := ⟨h.cells, h.thunk, h.target⟩

/-- A deferred parser of one character, up to three times, on `"ab"`. -/
theorem invoke_total_repeatingDeferred :
    Repeats repeatingDeferred ∧
      ((∃ result w', invoke (tools (applyFunction []) 9 4) 6 "ab" 0 .null repeatingDeferred =
          .ok (.result result) w') ∨
        ∃ w', invoke (tools (applyFunction []) 9 4) 6 "ab" 0 .null repeatingDeferred =
          .error .exhausted w') := by
  refine ⟨repeats_repeatingDeferred, ?_⟩
  obtain ⟨h | h | h, -⟩ := invoke_total (totalObjects_repeats 9) nofun 6 .null
    repeats_repeatingDeferred "ab" 0 (Nat.zero_le _) 4
  · exact Or.inl h
  · exact Or.inr h
  · exact h.1.elim

end

/-! ## Bounds that are too large -/

section

variable {φ : Type}

theorem boundCeiling_pos : 0 < boundCeiling := by decide +kernel

variable [FunctionText φ]

/-- A repetition whose bound is too large faults on a match of nothing. -/
theorem times_faults {apply : Tools φ → φ → List (Value φ) → Machine φ (Value φ)}
    {w : World φ} {p r : Ref} {v : Value φ} {most : Nat}
    (hp : (w.cell p).behaviour = .succeed v)
    (hr : (w.cell r).behaviour = .times (.object p) (.finite 0) (.finite most))
    (hmost : boundCeiling ≤ most) (budget depth : Nat) (s : Input) (i : Nat) (env : Value φ) :
    (tools apply budget (depth + 2)).run r s i env w = .error (.fault .boundTooLarge) w := by
  have hmatch : (tools apply budget (depth + 1)).run p s i env w = .ok (.success i v) w := by
    show (w.cell p).behaviour.denote (host (tools apply budget depth)) s i env w = _
    rw [hp]
    rfl
  show (w.cell r).behaviour.denote (host (tools apply budget (depth + 1))) s i env w = _
  rw [hr]
  show Behaviour.optional ((tools apply budget (depth + 1)).run p) (.finite most) s env finish most
    i #[] none w = _
  cases most with
  | zero => exact absurd hmost (Nat.not_le.2 boundCeiling_pos)
  | succ n =>
    rw [Behaviour.optional, bind_apply, hmatch]
    have hlarge : ¬n + 1 < boundCeiling := Nat.not_lt.2 hmost
    simp only [Result.mergeWith_none, Result.success, if_true, if_neg hlarge]
    rfl

end

section

open Script (Function applyFunction)

/-- A world with a parser that matches nothing and a repetition of it, up to so many times. -/
def repeating (most : Nat) : World Function :=
  { World.initial with
    cells := World.initial.cells ++ #[Checked.unnamed (.succeed (.nat 1)),
      Checked.unnamed (.times (.object 5) (.finite 0) (.finite most))] }

theorem invoke_repeating {most : Nat} (h : boundCeiling ≤ most) :
    invoke (tools (applyFunction []) 9 2) 6 "" 0 .null (repeating most) =
      .error (.fault .boundTooLarge) (repeating most) := by
  have hfault : (tools (applyFunction []) 9 3).run 6 [] 0 .null (repeating most) =
      .error (.fault .boundTooLarge) (repeating most) :=
    times_faults (p := 5) rfl rfl h 9 1 [] 0 .null
  show ((tools (applyFunction []) 9 3).run 6 [] 0 .null >>= fun result =>
    pure (Value.result result)) (repeating most) = _
  rw [bind_apply, hfault]

/-- A repetition of nothing up to `2 ^ 1024` times is accepted, and faults on the empty text. -/
theorem invoke_times_faults :
    Checked.times (.parser 5) (.nat 0) (.nat (Nat.pow 2 1024)) =
        .ok ((repeating (Nat.pow 2 1024)).cell 6) ∧
      invoke (tools (applyFunction []) 9 2) 6 "" 0 .null (repeating (Nat.pow 2 1024)) =
        .error (.fault .boundTooLarge) (repeating (Nat.pow 2 1024)) :=
  ⟨checked_times 5 (Nat.zero_le _), invoke_repeating (by decide +kernel)⟩

end

end Furthest.Machine
