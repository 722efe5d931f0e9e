import Furthest.Proofs.Parallel.Runs

/-!
# Parsing further along a text

A parser that never asks where it is does the same wherever a text stands: after any other text it
comes to the same result, with the offsets moved by that text's length (`Machine.run_moved`).  Such
a grammar is `Rules.Movable`: it has no offset, position, pattern or function that looks at the text
itself, and neither have the objects that it refers to and that its callbacks choose.
-/

namespace Furthest

/-- The report of the same failures after `n` more characters; where nothing failed there is nothing
to move. -/
def Report.moved (n : Nat) (r : Report) : Report :=
  { r with furthest := if r.furthest = -1 then -1 else n + r.furthest }

/-- The same result after `n` more characters. -/
def Result.moved {α : Type} (n : Nat) (r : Result α) : Result α :=
  { r with toReport := r.toReport.moved n, index := n + r.index }

/-- A text that also stands after another one. -/
def Difference.after (pre : Input) : Difference := ⟨[], pre, True⟩

variable {φ : Type}

theorem looksAtNoValue_moved (n : Nat) : LooksAtNoValue (φ := φ) (Result.moved n) :=
  fun _ _ _ h => ⟨by simp only [Result.moved, h.toReport_eq], h.status_eq,
    congrArg (n + ·) h.index_eq, h.value_like⟩

theorem Difference.place_after (pre : Input) (i : Nat) :
    (after pre).Place i (pre.length + i) := ⟨i, (Nat.zero_add i).symm, rfl⟩

/-- Results that differ by what stands before are moved. -/
theorem Difference.Results.eq_moved {pre : Input} {V : Value φ → Prop} {r r' : Result (Value φ)}
    (h : (after pre).Results V r r') : r' = r.moved pre.length := by
  obtain ⟨⟨furthest, expected⟩, status, index, value⟩ := r
  obtain ⟨⟨furthest', expected'⟩, status', index', value'⟩ := r'
  obtain ⟨⟨hf, he⟩, rfl, ⟨k, hi, hj⟩, rfl, -, -⟩ := h
  obtain rfl : expected = expected' := he trivial
  obtain rfl : index = k := hi.trans (Nat.zero_add k)
  obtain rfl : index' = pre.length + index := hj
  have hmoved : furthest' = if furthest = -1 then -1 else pre.length + furthest := by
    rcases hf with ⟨ha, hb⟩ | ⟨_, _, ⟨k, rfl, rfl⟩, ha, hb⟩
    · rw [if_pos ha]
      exact hb
    · have ha : furthest = k := ha.trans (congrArg Nat.cast (Nat.zero_add k))
      have hb : furthest' = ((pre.length + k : Nat) : Int) := hb
      rw [if_neg (by omega), hb, ha]
      rfl
  obtain rfl := hmoved
  rfl

variable [FunctionText φ]

namespace Rules

variable (R : Rules φ) (V : Value φ → Prop) (S : Ref → Prop)

/-- Whatever a callback comes to of a value in an environment has a property. -/
def CallbackInto (P : Value φ → Prop) (f : Callback φ) : Prop :=
  ∀ budget v env u, V v → V env → Comes (f.run (R.hosts budget).call v env) u → P u

/-- Whatever a function comes to of an environment has a property. -/
def FunctionInto (P : Value φ → Prop) (f : Value φ) : Prop :=
  ∀ budget env u, V env → Comes ((R.hosts budget).call f [env]) u → P u

/-- A value that is one of some objects, if it is an object. -/
def ObjectIn (v : Value φ) : Prop := ∀ r, v = .parser r → S r

mutual

/-- A grammar that does not ask where it is, as the objects `S` do not: callbacks take values of `V`
to values of `V` and choose objects of `S`. -/
def Movable : Grammar φ → Prop
  | .object r => S r
  | .deferred d => S (R.target d)
  | .custom _ | .offset | .position | .regex _ _ _ => False
  | .fail _ | .eof | .anyChar | .rest | .string _ | .satisfy _ _ | .takeWhile _ => True
  | .succeed v => V v
  | .seq ps => MovableAll ps
  | .alt p ps => Movable p ∧ MovableAll ps
  | .times p _ _ | .relabel p _ | .lookAhead p | .trace p _ => Movable p
  | .except p q => Movable p ∧ Movable q
  | .mapEnv p f => Movable p ∧ R.CallbackInto V V f
  | .chainEnv p f => Movable p ∧ R.CallbackInto V (ObjectIn S) f
  | .subEnv p f => Movable p ∧ R.FunctionInto V V f
  | .fromEnv f => R.FunctionInto V (ObjectIn S) f

/-- All of several grammars are movable. -/
def MovableAll : List (Grammar φ) → Prop
  | [] => True
  | p :: ps => Movable p ∧ MovableAll ps

end

variable {R V S}

omit [FunctionText φ] in
theorem chosen_of_objectIn {v : Value φ} (h : ObjectIn S v) :
    Chosen (fun r r' => r = r' ∧ S r) v v :=
  ⟨fun hr => ⟨_, hr, rfl, h _ hr⟩, fun hr => ⟨_, hr, rfl, h _ hr⟩⟩

mutual

/-- A movable grammar is a twin of itself, whatever stands before the text. -/
theorem twin_of_movable (D : Difference) : (g : Grammar φ) → R.Movable V S g →
    R.Twin V D (fun r r' => r = r' ∧ S r) g g
  | .object _, h => .object ⟨rfl, h⟩
  | .deferred _, h => .deferred ⟨rfl, h⟩
  | .succeed _, h => .succeed h
  | .fail _, _ => .fail fun _ => rfl
  | .eof, _ => .eof
  | .anyChar, _ => .anyChar
  | .rest, _ => .rest
  | .string literal, _ => .string literal
  | .satisfy _ label, _ => .satisfy label fun _ _ _ _ => alike_refl fun _ _ => rfl
  | .takeWhile _, _ => .takeWhile fun _ _ _ _ => alike_refl fun _ _ => rfl
  | .seq ps, h => .seq (twinAll_of_movable D ps h)
  | .alt p ps, h => .alt (twin_of_movable D p h.1) (twinAll_of_movable D ps h.2)
  | .times p min max, h => .times min max (twin_of_movable D p h)
  | .relabel p _, h => .relabel (twin_of_movable D p h) fun _ => rfl
  | .lookAhead p, h => .lookAhead (twin_of_movable D p h)
  | .trace p label, h => .trace_left label (.trace_right label (twin_of_movable D p h))
  | .except p q, h => .except (twin_of_movable D p h.1) (twin_of_movable D q h.2)
  | .mapEnv p _, h => .mapEnv (twin_of_movable D p h.1) fun b v env hv henv =>
    alike_refl fun u hu => ⟨rfl, h.2 b v env u hv henv hu⟩
  | .chainEnv p _, h => .chainEnv (twin_of_movable D p h.1) fun b v env hv henv =>
    alike_refl fun u hu => chosen_of_objectIn (h.2 b v env u hv henv hu)
  | .subEnv p _, h => .subEnv (twin_of_movable D p h.1) fun b env henv =>
    alike_refl fun u hu => ⟨rfl, h.2 b env u henv hu⟩
  | .fromEnv _, h => .fromEnv fun b env henv =>
    alike_refl fun u hu => chosen_of_objectIn (h b env u henv hu)

theorem twinAll_of_movable (D : Difference) : (ps : List (Grammar φ)) → R.MovableAll V S ps →
    R.TwinAll V D (fun r r' => r = r' ∧ S r) ps ps
  | [], _ => .nil
  | p :: ps, h => .cons (twin_of_movable D p h.1) (twinAll_of_movable D ps h.2)

end

section

variable (hV : Domain V) (hS : ∀ r, S r → R.Movable V S (R.rule r)) {r : Ref} (hr : S r)
  {env : Value φ} (henv : V env) (pre s : Input) (i : Nat)

include hV hS hr henv

theorem gives_moved {result : Result (Value φ)} (h : R.Gives r s i env (.ok result)) :
    R.Gives r (pre ++ s) (pre.length + i) env (.ok (result.moved pre.length)) := by
  obtain ⟨m, hm, hmoved⟩ := R.gives_of_twin (D := .after pre) (T := fun r r' => r = r' ∧ S r)
    s hV (fun r r' h => h.1 ▸ twin_of_movable _ _ (hS r h.2)) ⟨rfl, hr⟩
    (Difference.place_after pre i) henv h
  rw [hmoved.eq_moved] at hm
  exact hm

theorem gives_of_moved {m : Result (Value φ)}
    (h : R.Gives r (pre ++ s) (pre.length + i) env (.ok m)) :
    ∃ result, R.Gives r s i env (.ok result) ∧ m = result.moved pre.length := by
  obtain ⟨result, hresult, hmoved⟩ :=
    R.gives_of_twin (D := (Difference.after pre).swap) (T := fun r r' => r = r' ∧ S r) s hV
      (fun r r' h => h.1 ▸ twin_of_movable _ _ (hS r h.2)) ⟨rfl, hr⟩
      (Difference.place_after pre i).swap henv h
  exact ⟨result, hresult, hmoved.swap.eq_moved⟩

end

end Rules

namespace Machine

variable {R : Rules φ} {V : Value φ → Prop} {S : Ref → Prop}
  {B₁ B₂ : Bond φ} {w₁ w₂ : World φ}
  {apply : Tools φ → φ → List (Value φ) → Machine φ (Value φ)}

/-- Where a parser that does not ask where it is comes to a result, it comes after any other text to
that result moved, and the other way round. -/
theorem run_moved (hpure : ∀ budget, PureFunctions apply budget R) (hV : Domain V)
    (hS : ∀ r, S r → R.Movable V S (R.rule r)) (hw₁ : Faithful R B₁ w₁)
    (hw₂ : Faithful R B₂ w₂) {r₁ r₂ r : Ref} (hr₁ : B₁.objects r₁ = some r)
    (hr₂ : B₂.objects r₂ = some r) (hr : S r) {env₁ env₂ env : Value φ}
    (henv₁ : Value.Like B₁ env₁ env) (henv₂ : Value.Like B₂ env₂ env) (henv : V env)
    (pre s : Input) (i : Nat) :
    (∀ result w₁', ComesTo apply r₁ s i env₁ w₁ (.ok result) w₁' →
      Yields apply r₂ (pre ++ s) (pre.length + i) env₂ w₂ fun m w₂' =>
        SameOutcome w₁'.names w₂'.names (.ok (result.moved pre.length)) (.ok m)) ∧
    (∀ m w₂', ComesTo apply r₂ (pre ++ s) (pre.length + i) env₂ w₂ (.ok m) w₂' →
      Yields apply r₁ s i env₁ w₁ fun result w₁' =>
        SameOutcome w₂'.names w₁'.names (.ok m) (.ok (result.moved pre.length))) := by
  refine ⟨fun result w₁' h => ?_, fun m w₂' h => ?_⟩
  · exact yields_of_gives hpure hw₁ hw₂ hr₁ hr₂ henv₁ henv₂ (looksAtNoValue_moved _)
      looksAtNoValue_id (fun given hgiven => ⟨_, R.gives_moved hV hS hr henv pre s i hgiven, rfl⟩) h
  · exact yields_of_gives hpure hw₂ hw₁ hr₂ hr₁ henv₂ henv₁ looksAtNoValue_id
      (looksAtNoValue_moved _) (fun given hgiven => R.gives_of_moved hV hS hr henv pre s i hgiven) h

section

open Script (Function applyFunction)

/-- The objects that the rule that refers to itself is put together from, and itself. -/
def ruleObjects : List Ref := [Ref.eof, Ref.anyChar, 5, 6]

theorem movable_recursive (r : Ref) (hr : r ∈ ruleObjects) :
    recursiveRules.Movable (fun _ => True) (· ∈ ruleObjects) (recursiveRules.rule r) := by
  simp only [ruleObjects, List.mem_cons, List.not_mem_nil, or_false] at hr
  rcases hr with rfl | rfl | rfl | rfl
  · exact trivial
  · exact trivial
  · show 6 ∈ ruleObjects
    decide
  · refine ⟨⟨?_, ?_, trivial⟩, ?_, trivial⟩
    · show Ref.anyChar ∈ ruleObjects
      decide
    · show 5 ∈ ruleObjects
      decide
    · show Ref.eof ∈ ruleObjects
      decide

/-- The deferred parser, used for the first time, takes the last two characters of `"xyab"` as it
takes those of `"ab"`. -/
theorem run_moved_recursive : ∃ result w₁ m w₂, (recursive.deferral 0).target = .null ∧
    ComesTo (applyFunction []) 5 ['a', 'b'] 0 .null recursive (.ok result) w₁ ∧
    ComesTo (applyFunction []) 5 (['x', 'y'] ++ ['a', 'b']) 2 .null recursive (.ok m) w₂ ∧
    result.index = 2 ∧ result.furthest = 2 ∧ m = result.moved 2 := by
  obtain ⟨result, w₁, hrun, hindex, hfurthest, hplain⟩ : ∃ result w₁,
      (tools (applyFunction []) 9 9).run 5 ['a', 'b'] 0 .null recursive =
        settledIn (.ok result) w₁ ∧
      result.index = 2 ∧ result.furthest = 2 ∧ (result.moved 2).value.Plain :=
    ⟨_, _, rfl, rfl, rfl, ⟨trivial, ⟨trivial, trivial, trivial⟩, trivial⟩⟩
  have hrule : selfBond.objects 5 = some 5 := rfl
  obtain ⟨hforth, -⟩ := run_moved pureFunctions_recursive domain_true movable_recursive
    faithful_recursive faithful_recursive hrule hrule (by decide) .null .null trivial
    ['x', 'y'] ['a', 'b'] 0
  have hyields := hforth result w₁ ⟨9, 9, hrun⟩
  obtain ⟨_, w₂, hmoved⟩ := hyields.ends
  obtain ⟨m, rfl, hsame⟩ := hyields.result hmoved
  cases hsame with
  | ok _ _ _ _ heq =>
    exact ⟨result, w₁, m, w₂, rfl, ⟨9, 9, hrun⟩, hmoved, hindex, hfurthest, (heq hplain).symm⟩

end

end Machine

end Furthest
