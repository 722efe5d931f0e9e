import Furthest.Proofs.Lists.Recursion
import Furthest.Script.Eval

/-!
# The recursive grammars of chains

A chain of operators is read as one loop, over an operator and an operand at a time, and only in the
end are the operators applied: from the left (`Grammar.chainLeft`) or from the right
(`Grammar.chainRight`).  The recursive grammars apply them as they go.  To the left, what is parsed
after a value is an operator and an operand, and then the same after what they make of it; to the
right, it is an operator and a chain again.

Both come to the same as the loops (`chains_recursive`), on whole results and in every state, where an
operator and an operand together consume something.  The loop to the left parses everything before it
applies anything, so here operators must be functions without effects; to the right, the operators are
applied in the same order anyway.
-/

namespace Furthest

variable {φ σ : Type}

namespace Behaviour

variable {I : σ → Prop} {V : Value φ → Prop} {p op C : Behaviour (EStateM (Halt φ) σ) φ}
  {call : Value φ → List (Value φ) → EStateM (Halt φ) σ (Value φ)}
  {apply : Value φ → Value φ → Value φ → Value φ} {s : Input} {env : Value φ} {i n : Nat} {w : σ}

/-! ## The grammars -/

/-- What follows a value in a chain to the left: an operator and an operand, and what follows the
value that they make of it, or nothing. -/
def leftRest (call : Value φ → List (Value φ) → EStateM (Halt φ) σ (Value φ))
    (op p : Behaviour (EStateM (Halt φ) σ) φ)
    (rest : Value φ → Behaviour (EStateM (Halt φ) σ) φ) (x : Value φ) :
    Behaviour (EStateM (Halt φ) σ) φ :=
  alt (chain op fun f => pure (chain p fun y => do return rest (← call f [x, y]))) [succeed x]

/-- What follows a value in a chain to the right: an operator and a chain, or nothing. -/
def rightRest (call : Value φ → List (Value φ) → EStateM (Halt φ) σ (Value φ))
    (op C : Behaviour (EStateM (Halt φ) σ) φ) (x : Value φ) : Behaviour (EStateM (Halt φ) σ) φ :=
  alt (chain op fun f => pure (map C fun y => call f [x, y])) [succeed x]

/-- A chain to the right: an operand and what follows it. -/
def rightChain (call : Value φ → List (Value φ) → EStateM (Halt φ) σ (Value φ))
    (op p C : Behaviour (EStateM (Halt φ) σ) φ) : Behaviour (EStateM (Halt φ) σ) φ :=
  chain p fun x => pure (rightRest call op C x)

/-- Values with operators between them, grouped to the left. -/
def leftGrouped (apply : Value φ → Value φ → Value φ → Value φ) (x : Value φ)
    (pairs : List (Value φ × Value φ)) : Value φ :=
  pairs.foldl (fun x a => apply a.1 x a.2) x

/-- Values with operators between them, grouped to the right. -/
def rightGrouped (apply : Value φ → Value φ → Value φ → Value φ) :
    Value φ → List (Value φ × Value φ) → Value φ
  | x, [] => x
  | x, (f, y) :: pairs => apply f x (rightGrouped apply y pairs)

/-- `f` is a total function of any two values with `V`, from states with `I`.  It gives such a value
again, the one that `apply` says, and has no effects. -/
def Applies (call : Value φ → List (Value φ) → EStateM (Halt φ) σ (Value φ)) (I : σ → Prop)
    (V : Value φ → Prop) (apply : Value φ → Value φ → Value φ → Value φ) (f : Value φ) : Prop :=
  ∀ x y, V x → V y → V (apply f x y) ∧ ∀ w, I w → call f [x, y] w = .ok (apply f x y) w

/-- The values of `op` are functions of two values like those of `p`. -/
structure Operators (call : Value φ → List (Value φ) → EStateM (Halt φ) σ (Value φ)) (I : σ → Prop)
    (V : Value φ → Prop) (apply : Value φ → Value φ → Value φ → Value φ)
    (op p : Behaviour (EStateM (Halt φ) σ) φ) : Prop where
  operand : YieldsFrom I p V
  operator : YieldsFrom I op (Applies call I V apply)

/-- A chain whose operators are applied in the end, to all its values at once. -/
theorem grouped_of_ok (hop : WellFormed I op) (hp : WellFormed I p) (hc : PairsConsume I op p)
    (hcalls : Operators call I V apply op p)
    {fold : Value φ → List (Value φ) → EStateM (Halt φ) σ (Value φ)}
    {grouped : Value φ → List (Value φ × Value φ) → Value φ}
    (hfold : ∀ {x pairs w}, V x → (∀ a ∈ pairs, Applies call I V apply a.1 ∧ V a.2) → I w →
      fold x (pairs.map fun a => .list [a.1, a.2]) w = .ok (grouped x pairs) w)
    (hi : i ≤ s.length) (hw : I w) {r : Result (Value φ)} {w' : σ}
    (hr : chain p (fun x => pure (map (loop (pairWith op p fun f y => .list [f, y]) n)
      fun l => fold x l.items)) s i env w = .ok r w') (hs : r.status = true) :
    ∃ x pairs, Separated op p s env i w x pairs r w' ∧ r.value = grouped x pairs := by
  obtain ⟨x, pairs, w₁, hseparated, hfolded⟩ := separated_of_ok hop hp hc _ _ hi hw hr hs
  obtain ⟨hx, hpairs, hw₁⟩ := hseparated.values hop hp hcalls.operator hcalls.operand hi hw
  obtain ⟨hvalue, rfl⟩ := EStateM.Result.ok.inj ((hfold hx hpairs hw₁).symm.trans hfolded)
  exact ⟨x, pairs, hseparated, hvalue.symm⟩

/-! ## To the left -/

theorem chain_made (p : Behaviour (EStateM (Halt φ) σ) φ)
    (f : Value φ → EStateM (Halt φ) σ (Behaviour (EStateM (Halt φ) σ) φ)) :
    chain p f = chain p fun x => pure (made (f x)) := by
  funext s i env
  simp only [chain_apply, made, pure_bind, bind_assoc]

theorem leftRest_eq_pairOrStop (rest : Value φ → Behaviour (EStateM (Halt φ) σ) φ) (x : Value φ) :
    leftRest call op p rest x =
      pairOrStop op p (fun rest x f y => made (do return rest (← call f [x, y]))) id rest x := by
  have hmade : ∀ f, chain p (fun y => do return rest (← call f [x, y])) =
      chain p fun y => pure (made (do return rest (← call f [x, y]))) := fun f => chain_made p _
  simp only [leftRest, hmade]
  rfl

theorem folds_left (hop : WellFormed I op) (hp : WellFormed I p)
    (hcalls : Operators call I V apply op p) :
    Folds I V op p (fun f y => .list [f, y])
      (fun rest x f y => made (do return rest (← call f [x, y]))) id
      (Value.foldPairsLeft call) where
  stop _ := rfl
  step {rest n x s i env w o y w'} hx hi hw hm hrest := by
    obtain ⟨hw', -, hwy⟩ := hm.wellFormed hop hp hi hw
    obtain ⟨hf, hy⟩ := hm.values hop hcalls.operator hcalls.operand hi hw
    obtain ⟨hV, hcall⟩ := hf x y.value hx hy
    have hgo : made (do return rest (← call o.value [x, y.value])) s y.index env w' =
        rest (apply o.value x y.value) s y.index env w' := by
      rw [made, bind_apply, bind_apply, hcall w' hw']
      rfl
    rw [hgo, hrest _ hV]
    -- the loop goes on to states with `I`, and there the operator gives the same
    refine map_congr_returns (returns_loop hop hp _ n hwy.index_le hw') fun l w'' h => ?_
    rw [Value.foldPairsLeft, bind_apply, hcall w'' h.1]

theorem foldPairsLeft_eq {pairs : List (Value φ × Value φ)} {x : Value φ} (hx : V x)
    (hpairs : ∀ a ∈ pairs, Applies call I V apply a.1 ∧ V a.2) (hw : I w) :
    Value.foldPairsLeft call x (pairs.map fun a => .list [a.1, a.2]) w =
      .ok (leftGrouped apply x pairs) w := by
  induction pairs generalizing x with
  | nil => rfl
  | cons a pairs ih =>
    obtain ⟨⟨hf, hy⟩, hrest⟩ := List.forall_mem_cons.1 hpairs
    obtain ⟨hV, hcall⟩ := hf x a.2 hx hy
    rw [List.map_cons, Value.foldPairsLeft, bind_apply, hcall w hw]
    exact ih hV hrest

/-! ## To the right -/

theorem map_chain (p : Behaviour (EStateM (Halt φ) σ) φ)
    (f : Value φ → Behaviour (EStateM (Halt φ) σ) φ)
    (k : Value φ → EStateM (Halt φ) σ (Value φ)) :
    map (chain p fun x => pure (f x)) k = chain p fun x => pure (map (f x) k) := by
  simp only [map_eq_chain, chain_assoc, pure_bind]

theorem folds_right (I : σ → Prop) (call : Value φ → List (Value φ) → EStateM (Halt φ) σ (Value φ))
    (op p : Behaviour (EStateM (Halt φ) σ) φ) :
    Folds I (fun _ => True) op p (fun f y => .list [f, y])
      (fun rest x f y => map (rest y) fun z => call f [x, z]) id (Value.foldPairsRight call) where
  stop _ := rfl
  step _ _ _ _ hrest := by
    rw [map_congr (hrest _ trivial), map_map]
    rfl

theorem foldPairsRight_eq {pairs : List (Value φ × Value φ)} {x : Value φ} (hx : V x)
    (hpairs : ∀ a ∈ pairs, Applies call I V apply a.1 ∧ V a.2) (hw : I w) :
    V (rightGrouped apply x pairs) ∧
      Value.foldPairsRight call x (pairs.map fun a => .list [a.1, a.2]) w =
        .ok (rightGrouped apply x pairs) w := by
  induction pairs generalizing x with
  | nil => exact ⟨hx, rfl⟩
  | cons a pairs ih =>
    obtain ⟨⟨hf, hy⟩, hrest⟩ := List.forall_mem_cons.1 hpairs
    obtain ⟨hgrouped, hfold⟩ := ih hy hrest
    obtain ⟨hV, hcall⟩ := hf x _ hx hgrouped
    refine ⟨hV, ?_⟩
    rw [List.map_cons, Value.foldPairsRight, bind_apply, hfold]
    exact hcall w hw

theorem rightRest_eq_map_loop (hop : WellFormed I op) (hp : WellFormed I p)
    (hc : PairsConsume I op p) (hC : SameFrom I C (rightChain call op p C)) (x : Value φ)
    (hi : i ≤ s.length) (hw : I w) (hn : s.length - i < n) :
    rightRest call op C x s i env w =
      map (loop (pairWith op p fun f y => .list [f, y]) n)
        (fun l => Value.foldPairsRight call x l.items) s i env w := by
  refine (folds_right I call op p).eq_map_loop hop hp hc (fun x _ => ?_) trivial hi hw hn
  refine alt_chain_congr hop (fun f s i env w hi hw => ?_) _
  rw [map_congr (hC s i env w hi hw)]
  exact congrFun (congrFun (congrFun (congrFun (map_chain p _ _) s) i) env) w

theorem exists_rightChain (hop : WellFormed I op) (hp : WellFormed I p) (hc : PairsConsume I op p) :
    ∃ C, SameFrom I C (rightChain call op p C) := by
  obtain ⟨rest, hrest⟩ := (folds_right I call op p).exists_rest hop hp hc
  refine ⟨chain p fun x => pure (rest x), fun s i env w hi hw => ?_⟩
  simp only [rightChain, rightRest, map_chain]
  refine chain_congr fun r w' hr _ => ?_
  have hwf := hp s i env w hi hw r w' hr
  exact hrest r.value trivial s r.index env w' hwf.2.index_le hwf.1

end Behaviour

open Behaviour

section

variable {host : Host (EStateM (Halt φ) σ) φ} {I : σ → Prop} {V : Value φ → Prop}
  {apply : Value φ → Value φ → Value φ → Value φ} {p op : Grammar φ}

theorem Grammar.denote_chainLeft (host : Host (EStateM (Halt φ) σ) φ) (p op : Grammar φ)
    (s : Input) (i : Nat) (env : Value φ) : (chainLeft p op).denote host s i env =
      chain (p.denote host) (fun x => pure (map
        (loop (pairWith (op.denote host) (p.denote host) fun f y => .list [f, y]) host.budget)
        fun l => Value.foldPairsLeft host.call x l.items)) s i env := by
  rw [← seq_pair]
  exact mapEnv_seq_loop fun _ _ => rfl

theorem Grammar.denote_chainRight (host : Host (EStateM (Halt φ) σ) φ) (p op : Grammar φ)
    (s : Input) (i : Nat) (env : Value φ) : (chainRight p op).denote host s i env =
      chain (p.denote host) (fun x => pure (map
        (loop (pairWith (op.denote host) (p.denote host) fun f y => .list [f, y]) host.budget)
        fun l => Value.foldPairsRight host.call x l.items)) s i env := by
  rw [← seq_pair]
  exact mapEnv_seq_loop fun _ _ => rfl

/-- Chains of operators are the recursive grammars of chains, on whole results and in every state
with `I`, as long as a loop may match as often as there are characters left and once more.  A chain
ends after its last operand, before an operator that none follows, and its value is that of all the
operands in order, grouped to the left or to the right. -/
theorem chains_recursive (hp : WellFormed I (p.denote host)) (hop : WellFormed I (op.denote host))
    (hc : PairsConsume I (op.denote host) (p.denote host))
    (hcalls : Operators host.call I V apply (op.denote host) (p.denote host)) :
    (∃ rest, ∀ x, V x →
      SameFrom I (rest x) (leftRest host.call (op.denote host) (p.denote host) rest x)) ∧
    (∀ rest, (∀ x, V x →
        SameFrom I (rest x) (leftRest host.call (op.denote host) (p.denote host) rest x)) →
      ∀ s i env w, i ≤ s.length → I w → s.length - i < host.budget →
        (Grammar.chainLeft p op).denote host s i env w =
          chain (p.denote host) (fun x => pure (rest x)) s i env w) ∧
    (∃ C, SameFrom I C (rightChain host.call (op.denote host) (p.denote host) C)) ∧
    (∀ C, SameFrom I C (rightChain host.call (op.denote host) (p.denote host) C) →
      ∀ s i env w, i ≤ s.length → I w → s.length - i < host.budget →
        (Grammar.chainRight p op).denote host s i env w = C s i env w) ∧
    ∀ s i env w r w', i ≤ s.length → I w → r.status = true →
      ((Grammar.chainLeft p op).denote host s i env w = .ok r w' → ∃ x pairs,
        Separated (op.denote host) (p.denote host) s env i w x pairs r w' ∧
        r.value = leftGrouped apply x pairs) ∧
      ((Grammar.chainRight p op).denote host s i env w = .ok r w' → ∃ x pairs,
        Separated (op.denote host) (p.denote host) s env i w x pairs r w' ∧
        r.value = rightGrouped apply x pairs) := by
  have hleft := folds_left hop hp hcalls
  simp only [leftRest_eq_pairOrStop]
  refine ⟨hleft.exists_rest hop hp hc, fun rest hrest s i env w hi hw hn => ?_,
    exists_rightChain hop hp hc, fun C hC s i env w hi hw hn => ?_,
    fun s i env w r w' hi hw hs => ⟨fun hr => ?_, fun hr => ?_⟩⟩
  · rw [Grammar.denote_chainLeft]
    refine chain_congr fun r w' hr hs => Eq.symm ?_
    obtain ⟨hw', hwf⟩ := hp s i env w hi hw r w' hr
    have hx := hcalls.operand s i env w hi hw r w' hr hs
    have henough := (Nat.sub_le_sub_left hwf.le_index s.length).trans_lt hn
    exact hleft.eq_map_loop hop hp hc hrest hx hwf.index_le hw' henough
  · rw [Grammar.denote_chainRight, hC s i env w hi hw, rightChain]
    refine chain_congr fun r w' hr _ => Eq.symm ?_
    obtain ⟨hw', hwf⟩ := hp s i env w hi hw r w' hr
    have henough := (Nat.sub_le_sub_left hwf.le_index s.length).trans_lt hn
    exact rightRest_eq_map_loop hop hp hc hC r.value hwf.index_le hw' henough
  · rw [Grammar.denote_chainLeft] at hr
    exact grouped_of_ok hop hp hc hcalls foldPairsLeft_eq hi hw hr hs
  · rw [Grammar.denote_chainRight] at hr
    exact grouped_of_ok hop hp hc hcalls (fun hx ha hw => (foldPairsRight_eq hx ha hw).2) hi hw hr hs

end

/-! ## A chain of letters -/

section

open Script (Function applyFunction)

/-- `lambda x, y: [x, y]`. -/
def both : Value Function := .function (.closure none ["x", "y"] (.list [.ref "x", .ref "y"]) [])

/-- The machine at a depth at which functions can be called, with loops of up to eight. -/
def shallow : Host (Machine Function) Function :=
  Machine.host (Machine.tools (applyFunction []) 9 1)

/-- A plus sign, which stands for `both`. -/
def plus : Grammar Function := .mapEnv (.string "+") (.constant both)

theorem operators_plus : Operators shallow.call (fun _ => True) (fun _ => True)
    (fun _ x y => .list [x, y]) (plus.denote shallow) ((Grammar.string "a").denote shallow) where
  operand _ _ _ _ _ _ := (returns_any _ _).mono fun _ _ _ _ => trivial
  operator s i env w _ _ := by
    refine (returns_any _ w).bind fun r w' _ => ?_
    split
    · refine (returns_pure (Q := fun v _ => v = both) rfl).bind fun v w'' hv => ?_
      subst hv
      exact returns_pure fun _ x y _ _ => ⟨trivial, fun w _ => rfl⟩
    · next hs => exact returns_pure fun h => absurd h hs

/-- In `a+a+a+` the last operator is given back. -/
theorem chains_recursive_plus : ∃ rest C,
    (∀ x, SameFrom (fun _ => True) (rest x) (leftRest shallow.call (plus.denote shallow)
      ((Grammar.string "a").denote shallow) rest x)) ∧
    SameFrom (fun _ => True) C (rightChain shallow.call (plus.denote shallow)
      ((Grammar.string "a").denote shallow) C) ∧
    chain ((Grammar.string "a").denote shallow) (fun x => pure (rest x)) "a+a+a+".toList 0 .null
      World.initial = .ok ⟨⟨6, ["'a'"]⟩, true, 5,
        .list [.list [.text "a", .text "a"], .text "a"]⟩ World.initial ∧
    C "a+a+a+".toList 0 .null World.initial = .ok ⟨⟨6, ["'a'"]⟩, true, 5,
      .list [.text "a", .list [.text "a", .text "a"]]⟩ World.initial := by
  have hstring : ∀ text, WellFormed (fun _ => True) ((Grammar.string text).denote shallow) :=
    fun text => wellFormed_leaf fun _ _ hi => Leaf.wellFormed_string text hi
  have hplus : WellFormed (fun _ => True) (plus.denote shallow) :=
    wellFormed_mapEnv (hstring "+") fun _ _ _ _ => (returns_any _ _)
  have hc : PairsConsume (fun _ => True) (plus.denote shallow)
      ((Grammar.string "a").denote shallow) :=
    pairsConsume_of_second hplus fun s i env w _ _ =>
      returns_string_consumes "a" (by simp) s i env w
  obtain ⟨⟨rest, hrest⟩, hleft, ⟨C, hC⟩, hright, -⟩ :=
    chains_recursive (hstring "a") hplus hc operators_plus
  refine ⟨rest, C, fun x => hrest x trivial, hC, ?_, ?_⟩
  · rw [← hleft rest hrest "a+a+a+".toList 0 .null World.initial (by decide) trivial (by decide)]
    rfl
  · rw [← hright C hC "a+a+a+".toList 0 .null World.initial (by decide) trivial (by decide)]
    rfl

end

end Furthest
