import Furthest.Proofs.Algebra.Grounded
import Furthest.Proofs.Repetition.Recursive
import Furthest.Script.Term

/-!
# The laws of chains

A success carries the report of what failed on the way to it, and a chain joins the report of each
of its steps to what came before.  Chains are a monad nevertheless, on whole results and with all
effects: `succeed` is neutral on both sides as long as reports are grounded, and chains regroup
because joining is associative.  A map is a chain that ends in `succeed`, and so its laws follow.
-/

namespace Furthest

variable {φ σ : Type}

namespace Result

variable {r : Result (Value φ)}

/-- A match of nothing in which nothing failed adds nothing to a later result. -/
theorem merge_success (h : -1 ≤ r.furthest) (i : Nat) (v : Value φ) :
    r.merge (.success i v) = r := by
  rw [merge, success, Report.join_silent h]

/-- A later match in which nothing failed keeps the report of what came before it. -/
theorem success_merge (h : -1 ≤ r.furthest) (i : Nat) (v : Value φ) :
    (Result.success i v).merge r = ⟨r.toReport, true, i, v⟩ := by
  rw [merge, success, Report.silent_join h]

/-- Of two matches of nothing, the latter counts. -/
theorem success_merge_success (i j : Nat) (v v' : Value φ) :
    (Result.success i v').merge ((Result.success j v).merge r) = (Result.success i v').merge r := by
  rw [← merge_assoc, merge_success (neg_one_le_success i v')]

/-- A match is kept by a later one that matches nothing and gives the same value. -/
theorem success_merge_self (h : -1 ≤ r.furthest) (hs : r.status = true) :
    (Result.success r.index r.value).merge r = r := by
  rw [success_merge h, ← hs]

end Result

namespace Behaviour

/-- Matches nothing and gives a value. -/
def succeed (v : Value φ) : Behaviour (EStateM (Halt φ) σ) φ := leaf (Leaf.succeed v)

/-- Runs the parser that a function makes of the value. -/
def chain (p : Behaviour (EStateM (Halt φ) σ) φ)
    (f : Value φ → EStateM (Halt φ) σ (Behaviour (EStateM (Halt φ) σ) φ)) :
    Behaviour (EStateM (Halt φ) σ) φ :=
  chainEnv p fun v _ => f v

/-- Transforms the value of a match by a function. -/
def map (p : Behaviour (EStateM (Halt φ) σ) φ) (f : Value φ → EStateM (Halt φ) σ (Value φ)) :
    Behaviour (EStateM (Halt φ) σ) φ :=
  mapEnv p fun v _ => f v

/-- Runs the parser that a computation comes to. -/
def made (x : EStateM (Halt φ) σ (Behaviour (EStateM (Halt φ) σ) φ)) :
    Behaviour (EStateM (Halt φ) σ) φ :=
  fun s i env => do (← x) s i env

variable {m : Behaviour (EStateM (Halt φ) σ) φ}
  {f : Value φ → EStateM (Halt φ) σ (Behaviour (EStateM (Halt φ) σ) φ)}

theorem grounded_succeed (v : Value φ) : Grounded (σ := σ) (succeed v) :=
  grounded_leaf fun _ i => Result.neg_one_le_success i v

theorem chain_apply (p : Behaviour (EStateM (Halt φ) σ) φ)
    (f : Value φ → EStateM (Halt φ) σ (Behaviour (EStateM (Halt φ) σ) φ)) (s : Input) (i : Nat)
    (env : Value φ) :
    chain p f s i env = (p s i env >>= fun r =>
      if r.status then f r.value >>= fun next => next s r.index env >>= fun r' => pure (r'.merge r)
      else pure r) := rfl

theorem map_apply (p : Behaviour (EStateM (Halt φ) σ) φ)
    (f : Value φ → EStateM (Halt φ) σ (Value φ)) (s : Input) (i : Nat) (env : Value φ) :
    map p f s i env = (p s i env >>= fun r =>
      if r.status then f r.value >>= fun v => pure ((Result.success r.index v).merge r)
      else pure r) := rfl

/-- A chain in a grammar goes on with the parser object that a user's function gives. -/
theorem denote_chain (host : Host (EStateM (Halt φ) σ) φ) (p : Grammar φ) (f : Value φ) :
    (Grammar.chainEnv p (.value f)).denote host = chain (p.denote host) fun v =>
      (do host.chosen (.unfit "chain" .parser) (← host.call f [v])) := rfl

/-- A map in a grammar is one by a user's function. -/
theorem denote_map (host : Host (EStateM (Halt φ) σ) φ) (p : Grammar φ) (f : Value φ) :
    (Grammar.mapEnv p (.value f)).denote host = map (p.denote host) fun v => host.call f [v] := rfl

/-! ## The laws -/

theorem succeed_chain (hf : ∀ v, Grounds (f v)) (v : Value φ) :
    chain (succeed v) f = made (f v) := by
  funext s i env w
  show (f v >>= fun next => next s i env >>= fun r => pure (r.merge (.success i v))) w =
    (f v >>= fun next => next s i env) w
  refine bind_congr_returns (hf v w) fun next w' hnext => ?_
  refine bind_eq_self (hnext s i env w') fun r w'' hr => ?_
  rw [Result.merge_success hr]
  rfl

theorem chain_succeed (hm : Grounded m) : chain m (fun v => pure (succeed v)) = m := by
  funext s i env w
  rw [chain_apply]
  refine bind_eq_self (hm s i env w) fun r w' hr => ?_
  by_cases hs : r.status = true
  · rw [if_pos hs]
    show EStateM.Result.ok ((Result.success r.index r.value).merge r) w' = .ok r w'
    rw [Result.success_merge_self hr hs]
  · rw [if_neg hs]
    rfl

/-- Chains regroup, whatever the reports are. -/
theorem chain_assoc (m : Behaviour (EStateM (Halt φ) σ) φ)
    (f g : Value φ → EStateM (Halt φ) σ (Behaviour (EStateM (Halt φ) σ) φ)) :
    chain (chain m f) g = chain m fun v => do return chain (← f v) g := by
  funext s i env
  simp only [chain_apply, bind_assoc]
  refine bind_congr fun r => ?_
  by_cases hs : r.status = true
  · simp only [hs, if_true, bind_assoc, pure_bind, chain_apply]
    refine bind_congr fun next => bind_congr fun r' => ?_
    by_cases hs' : r'.status = true
    · simp [hs', Result.merge_assoc]
    · simp [hs']
  · simp [hs]

/-- A map is a chain that ends in `succeed`. -/
theorem map_eq_chain (m : Behaviour (EStateM (Halt φ) σ) φ)
    (h : Value φ → EStateM (Halt φ) σ (Value φ)) :
    map m h = chain m fun v => do return succeed (← h v) := by
  funext s i env
  simp [chain_apply, map_apply, succeed, leaf, Leaf.succeed]

theorem map_pure (hm : Grounded m) : map m pure = m := by
  simpa [map_eq_chain] using chain_succeed hm

/-- Two maps are one by both functions, the one after the other. -/
theorem map_map (m : Behaviour (EStateM (Halt φ) σ) φ)
    (h k : Value φ → EStateM (Halt φ) σ (Value φ)) :
    map (map m h) k = map m fun v => h v >>= k := by
  funext s i env
  simp only [map_apply, bind_assoc]
  refine bind_congr fun r => ?_
  by_cases hs : r.status = true
  · simp only [hs, if_true, bind_assoc, pure_bind]
    refine bind_congr fun v => ?_
    show (k v >>= fun v' =>
      pure ((Result.success r.index v').merge ((Result.success r.index v).merge r))) = _
    simp only [Result.success_merge_success]
  · simp [hs]

/-- Chains are a monad and maps its functor, on whole results and with all effects, for all grounded
behaviours.  Grammars that chain and map by a user's function are such chains and maps, and whatever
grammar the machine runs is grounded, at any depth. -/
theorem chain_laws [FunctionText φ] :
    (∀ (m : Behaviour (EStateM (Halt φ) σ) φ)
        (f g : Value φ → EStateM (Halt φ) σ (Behaviour (EStateM (Halt φ) σ) φ))
        (h k : Value φ → EStateM (Halt φ) σ (Value φ)),
      Grounded m → (∀ v, Grounds (f v)) →
      (∀ v, chain (succeed v) f = made (f v)) ∧
      chain m (fun v => pure (succeed v)) = m ∧
      chain (chain m f) g = chain m (fun v => do return chain (← f v) g) ∧
      map m h = chain m (fun v => do return succeed (← h v)) ∧
      map m pure = m ∧
      map (map m h) k = map m (fun v => h v >>= k)) ∧
    (∀ (host : Host (EStateM (Halt φ) σ) φ) (p : Grammar φ) (f v : Value φ),
      (Grammar.succeed v).denote host = succeed v ∧
      (Grammar.mapEnv p (.value f)).denote host =
        map (p.denote host) (fun v => host.call f [v]) ∧
      (Grammar.chainEnv p (.value f)).denote host = chain (p.denote host) (fun v =>
        (do host.chosen (.unfit "chain" .parser) (← host.call f [v])))) ∧
    ∀ (apply : Tools φ → φ → List (Value φ) → Machine φ (Value φ)) (budget depth : Nat),
      (∀ (t : Tools φ) f args w, t.Grounded →
        Returns (apply t f args) w fun v _ => v.Grounded) →
      ∀ g : Grammar φ, Grounded (g.denote (Machine.host (Machine.tools apply budget depth))) := by
  refine ⟨fun m f g h k hm hf => ?_, fun host p f v => ?_, fun apply budget depth happly => ?_⟩
  · exact ⟨succeed_chain hf, chain_succeed hm, chain_assoc m f g, map_eq_chain m h, map_pure hm,
      map_map m h k⟩
  · exact ⟨rfl, denote_map host p f, denote_chain host p f⟩
  · have htools := Machine.grounded_tools happly budget depth
    exact Grammar.grounded_denote (Machine.grounded_host htools)

section

/-- `ab` or any character. -/
def pairOrAny : Behaviour (EStateM (Halt Script.Function) Unit) Script.Function :=
  alt (leaf (Leaf.string "ab")) [leaf Leaf.anyChar]

/-- Goes on with a comma, or else with nothing, and keeps the value then. -/
def orComma (v : Value Script.Function) : EStateM (Halt Script.Function) Unit
    (Behaviour (EStateM (Halt Script.Function) Unit) Script.Function) :=
  pure (alt (leaf (Leaf.string ",")) [succeed v])

theorem grounded_pairOrAny : Grounded pairOrAny :=
  grounded_alt (grounded_string "ab") (by simpa using grounded_anyChar)

theorem grounds_orComma (v : Value Script.Function) : Grounds (orComma v) := fun _ =>
  returns_pure (grounded_alt (grounded_string ",") (by simpa using grounded_succeed v))

/-- On `ax` the second attempt matches, and the report tells of the first one, also after a step
that changes nothing.  Where two more steps fail at the same offset, all the labels are kept in
order, however the steps are grouped. -/
theorem chain_laws_pairOrAny :
    Grounded pairOrAny ∧ (∀ v, Grounds (orComma v)) ∧
    chain pairOrAny (fun v => pure (succeed v)) "ax".toList 0 .null () =
      .ok ⟨⟨1, ["'ab'"]⟩, true, 1, .text "a"⟩ () ∧
    chain (chain pairOrAny orComma) orComma "ax".toList 0 .null () =
      .ok ⟨⟨1, ["','", "','", "'ab'"]⟩, true, 1, .text "a"⟩ () ∧
    Grounded ((Grammar.anyChar : Grammar Script.Function).denote
      (Machine.host (Machine.tools (fun _ _ _ => pure .null) 1 1))) := by
  obtain ⟨hlaws, -, hmachine⟩ := chain_laws (φ := Script.Function) (σ := Unit)
  obtain ⟨-, hright, hassoc, -⟩ :=
    hlaws pairOrAny orComma orComma pure pure grounded_pairOrAny grounds_orComma
  refine ⟨grounded_pairOrAny, grounds_orComma, ?_, ?_, ?_⟩
  · rw [hright]
    rfl
  · rw [hassoc]
    rfl
  · exact hmachine _ 1 1 (fun _ _ _ _ _ => returns_pure (by rintro _ ⟨⟩)) .anyChar

end

end Behaviour

end Furthest
