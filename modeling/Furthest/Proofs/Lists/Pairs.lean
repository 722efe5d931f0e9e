import Furthest.Proofs.Algebra.Regrouping
import Furthest.Proofs.WellFormed.Behaviour

/-!
# Loops over pairs

Lists with separators and chains of operators are one loop: over `op` and then `p`, as long as both
match.  A repetition without bounds takes one step and is then the same repetition with one match
fewer, whatever its reports are (`Behaviour.loop_succ`), and where each pair consumes something it ends
where the next pair fails (`Behaviour.exists_pairs`).

A list or a chain starts with a match of `p` alone.  What it comes to in the end is told by
`Behaviour.Separated`: where it ends, and the reports of all that was tried on the way.
-/

namespace Furthest

variable {φ σ : Type}

namespace Result

variable {r : Result (Value φ)} {best : Option (Result (Value φ))}

/-- The last match of a loop. -/
def last (r : Result (Value φ)) : Result (Value φ) :=
  (Result.success r.index (.list [r.value])).merge r

theorem onto_last (values : Array (Value φ)) :
    r.last.onto values best =
      (Result.success r.index (.list (values.push r.value).toList)).merge (r.mergeWith best) := by
  cases best <;> simp [onto, last, merge, success, Report.join_assoc]

theorem onto_nil (values : Array (Value φ)) :
    (r.onto #[] none).onto values best = r.onto values best := by
  cases best <;> rfl

/-- The match of a pair, with a value made of both. -/
def paired (h : Value φ → Value φ → Value φ) (o y : Result (Value φ)) : Result (Value φ) :=
  (Result.success y.index (h o.value y.value)).merge (y.merge o)

variable (h : Value φ → Value φ → Value φ) (o y : Result (Value φ))

@[simp] theorem status_paired : (paired h o y).status = true := rfl

@[simp] theorem index_paired : (paired h o y).index = y.index := rfl

@[simp] theorem value_paired : (paired h o y).value = h o.value y.value := rfl

theorem toReport_paired {y : Result (Value φ)} (hy : -1 ≤ y.furthest) :
    (paired h o y).toReport = y.toReport.join o.toReport :=
  Report.silent_join (neg_one_le_merge hy o)

end Result

namespace Behaviour

variable {I : σ → Prop} {p q op : Behaviour (EStateM (Halt φ) σ) φ} {s : Input} {env : Value φ}
  {i n : Nat} {w w' : σ} {o y : Result (Value φ)}

/-! ## The loop, step by step -/

/-- As many matches as there are, and at most `n` of them. -/
def loop (q : Behaviour (EStateM (Halt φ) σ) φ) (n : Nat) : Behaviour (EStateM (Halt φ) σ) φ :=
  times q (.finite 0) .infinite n

theorem loop_eq_optional (q : Behaviour (EStateM (Halt φ) σ) φ) (n : Nat) (s : Input) (i : Nat)
    (env : Value φ) : loop q n s i env = optional q .infinite s env spent n i #[] none := rfl

/-- One step of a loop without an upper bound. -/
theorem optional_succ (q : Behaviour (EStateM (Halt φ) σ) φ) (s : Input) (env : Value φ)
    (n i : Nat) (values : Array (Value φ)) (best : Option (Result (Value φ))) :
    optional q .infinite s env spent (n + 1) i values best = (q s i env >>= fun r =>
      if r.status then
        if r.index = i then pure (r.last.onto values best)
        else optional q .infinite s env spent n r.index (values.push r.value)
          (some (r.mergeWith best))
      else pure ((r.skipped i).onto values best)) := by
  refine bind_congr fun r => ?_
  simp only [Result.onto_last, Result.onto_skipped, Result.status_mergeWith,
    Result.index_mergeWith, Result.value_mergeWith]
  by_cases hc : r.index = i
  · simp only [hc]
    rfl
  · simp only [if_neg hc]
    rfl

/-- What a loop carries may as well be put before what it comes to from here on. -/
theorem optional_eq_onto (q : Behaviour (EStateM (Halt φ) σ) φ) (s : Input) (env : Value φ)
    (n i : Nat) (values : Array (Value φ)) (best : Option (Result (Value φ))) :
    optional q .infinite s env spent n i values best =
      Result.onto values best <$> loop q n s i env := by
  induction n generalizing i values best with
  | zero => rfl
  | succ n ih =>
    rw [optional_succ, loop_eq_optional, optional_succ, map_bind]
    refine bind_congr fun r => ?_
    split
    · split
      · exact congrArg pure (Result.onto_nil values).symm
      · rw [ih, ih, Functor.map_map]
        refine congrArg (· <$> loop q n s r.index env) (funext fun later => ?_)
        exact (Result.onto_cons values).symm
    · exact congrArg pure (Result.onto_nil values).symm

theorem loop_succ (q : Behaviour (EStateM (Halt φ) σ) φ) (n : Nat) (s : Input) (i : Nat)
    (env : Value φ) :
    loop q (n + 1) s i env = (q s i env >>= fun r =>
      if r.status then
        if r.index = i then pure r.last else r.cons <$> loop q n s r.index env
      else pure (r.skipped i)) := by
  rw [loop_eq_optional, optional_succ]
  refine bind_congr fun r => ?_
  rw [optional_eq_onto]
  rfl

/-! ## Pairs -/

/-- `op` and then `p` match from an offset in a state. -/
structure PairMatch (op p : Behaviour (EStateM (Halt φ) σ) φ) (s : Input) (env : Value φ) (i : Nat)
    (w : σ) (o y : Result (Value φ)) (w' : σ) : Prop where
  run : ∃ w₁, op s i env w = .ok o w₁ ∧ p s o.index env w₁ = .ok y w'
  first : o.status = true
  second : y.status = true

/-- Whatever `op` and then `p` match, from states with `I`, they consume some of the text. -/
def PairsConsume (I : σ → Prop) (op p : Behaviour (EStateM (Halt φ) σ) φ) : Prop :=
  ∀ ⦃s i env w o y w'⦄, i ≤ s.length → I w → PairMatch op p s env i w o y w' → i < y.index

/-- The values of matches from offsets inside the text and states with `I`. -/
def YieldsFrom (I : σ → Prop) (p : Behaviour (EStateM (Halt φ) σ) φ) (V : Value φ → Prop) : Prop :=
  ∀ s i env w, i ≤ s.length → I w → Returns (p s i env) w fun r _ => r.status = true → V r.value

theorem PairMatch.wellFormed (hm : PairMatch op p s env i w o y w') (hop : WellFormed I op)
    (hp : WellFormed I p) (hi : i ≤ s.length) (hw : I w) :
    I w' ∧ o.WellFormed i s.length ∧ y.WellFormed o.index s.length := by
  obtain ⟨⟨w₁, ho, hy⟩, -, -⟩ := hm
  obtain ⟨hw₁, hwf⟩ := hop s i env w hi hw o w₁ ho
  obtain ⟨hw', hwf'⟩ := hp s o.index env w₁ hwf.index_le hw₁ y w' hy
  exact ⟨hw', hwf, hwf'⟩

theorem PairMatch.values {F V : Value φ → Prop} (hm : PairMatch op p s env i w o y w')
    (hop : WellFormed I op) (hF : YieldsFrom I op F) (hV : YieldsFrom I p V) (hi : i ≤ s.length)
    (hw : I w) : F o.value ∧ V y.value := by
  obtain ⟨⟨w₁, ho, hy⟩, hos, hys⟩ := hm
  obtain ⟨hw₁, hwf⟩ := hop s i env w hi hw o w₁ ho
  exact ⟨hF s i env w hi hw o w₁ ho hos, hV s o.index env w₁ hwf.index_le hw₁ y w' hy hys⟩

/-- Pairs consume something if what comes second does. -/
theorem pairsConsume_of_second (hop : WellFormed I op)
    (hp : ∀ s i env w, i ≤ s.length → I w →
      Returns (p s i env) w fun r _ => r.status = true → i < r.index) : PairsConsume I op p := by
  rintro s i env w o y w' hi hw ⟨⟨w₁, ho, hy⟩, -, hs⟩
  obtain ⟨hw₁, hwf⟩ := hop s i env w hi hw o w₁ ho
  exact Nat.lt_of_le_of_lt hwf.le_index (hp s o.index env w₁ hwf.index_le hw₁ y w' hy hs)

theorem returns_string_consumes (literal : String) (hne : literal.toList ≠ []) (s : Input) (i : Nat)
    (env : Value φ) (w : σ) :
    Returns (leaf (Leaf.string literal) s i env : EStateM (Halt φ) σ (Result (Value φ))) w
      fun r _ => r.status = true → i < r.index := by
  refine returns_pure fun hs => ?_
  unfold Leaf.string at hs ⊢
  dsimp only at hs ⊢
  split at hs
  · next h =>
    rw [if_pos h]
    exact Nat.lt_add_of_pos_right (List.length_pos_of_ne_nil hne)
  · cases hs

/-! ## Going on after a pair -/

/-- Runs `op` and then `p`, and goes on from where both have matched or from the first failure. -/
def afterPair (op p : Behaviour (EStateM (Halt φ) σ) φ) (s : Input) (i : Nat) (env : Value φ)
    {α : Type} (matched : Result (Value φ) → Result (Value φ) → EStateM (Halt φ) σ α)
    (missed : Result (Value φ) → EStateM (Halt φ) σ α) : EStateM (Halt φ) σ α := do
  let o ← op s i env
  if o.status then
    let y ← p s o.index env
    if y.status then matched o y else missed (y.merge o)
  else missed o

section

variable {α β : Type} {matched matched' : Result (Value φ) → Result (Value φ) →
  EStateM (Halt φ) σ α} {missed missed' : Result (Value φ) → EStateM (Halt φ) σ α}

theorem afterPair_bind (k : α → EStateM (Halt φ) σ β) :
    afterPair op p s i env matched missed >>= k =
      afterPair op p s i env (fun o y => matched o y >>= k) (fun r => missed r >>= k) := by
  unfold afterPair
  rw [bind_assoc]
  refine bind_congr fun o => ?_
  split
  · rw [bind_assoc]
    refine bind_congr fun y => ?_
    split <;> rfl
  · rfl

theorem afterPair_congr
    (hmatched : ∀ o y w', PairMatch op p s env i w o y w' → matched o y w' = matched' o y w')
    (hmissed : ∀ r, r.status = false → missed r = missed' r) :
    afterPair op p s i env matched missed w = afterPair op p s i env matched' missed' w := by
  refine bind_congr_returns (fun o w₁ ho => ho) fun o w₁ ho => ?_
  cases hs : o.status with
  | false => simp [hmissed o hs]
  | true =>
    refine bind_congr_returns (fun y w₂ hy => hy) fun y w₂ hy => ?_
    cases hy' : y.status with
    | false => simp [hmissed (y.merge o) hy']
    | true => exact hmatched o y w₂ ⟨⟨w₁, ho, hy⟩, hs, hy'⟩

end

theorem pairWith_eq_afterPair (h : Value φ → Value φ → Value φ) :
    pairWith op p h s i env =
      afterPair op p s i env (fun o y => pure (Result.paired h o y)) pure := by
  rw [pairWith, chain_apply, afterPair]
  refine bind_congr fun o => ?_
  split
  · rw [pure_bind, mapValue_apply, bind_assoc]
    refine bind_congr fun y => ?_
    split
    · rw [pure_bind, Result.merge_assoc, Result.paired]
    · rw [pure_bind]
  · rfl

/-- A sequence of two is a pair. -/
theorem seq_pair (op p : Behaviour (EStateM (Halt φ) σ) φ) :
    seq [op, p] = pairWith op p fun f y => .list [f, y] := by
  funext s i env
  rw [pairWith_eq_afterPair, afterPair]
  refine bind_congr fun o => ?_
  by_cases hs : o.status = true
  · simp only [Result.mergeWith_none, hs, if_true]
    refine bind_congr fun y => ?_
    by_cases hy : y.status = true
    · simp only [Result.mergeWith_some, Result.status_merge, hy, if_true]
      rfl
    · simp [hy]
  · simp [hs]

/-! ## A loop over pairs -/

theorem matched_loop (q : Behaviour (EStateM (Halt φ) σ) φ) (n : Nat) (s : Input) (i : Nat)
    (env : Value φ) (w : σ) :
    Returns (loop q n s i env) w fun l _ => l.status = true ∧ l.value = .list l.value.items := by
  cases n with
  | zero => exact returns_throw
  | succ n =>
    rw [loop_succ]
    refine (returns_any _ w).bind fun r w' _ => ?_
    split
    · split
      · exact returns_pure ⟨rfl, rfl⟩
      · exact Returns.map ((returns_any _ w').mono fun _ _ _ => ⟨rfl, rfl⟩)
    · exact returns_pure ⟨rfl, rfl⟩

theorem wellFormed_pairWith (hop : WellFormed I op) (hp : WellFormed I p)
    (h : Value φ → Value φ → Value φ) : WellFormed I (pairWith op p h) := by
  show WellFormed I (chainEnv op fun f _ => pure (mapValue p (h f)))
  refine wellFormed_chainEnv hop fun f _ w hw => ?_
  exact returns_pure ⟨hw, wellFormed_mapEnv hp fun _ _ _ hw => returns_pure hw⟩

theorem returns_loop (hop : WellFormed I op) (hp : WellFormed I p)
    (h : Value φ → Value φ → Value φ) (n : Nat) (hi : i ≤ s.length) (hw : I w) :
    Returns (loop (pairWith op p h) n s i env) w fun l w' =>
      I w' ∧ l.status = true ∧ -1 ≤ l.furthest := fun l w' hl =>
  have hwf := wellFormed_times (wellFormed_pairWith hop hp h) (.finite 0) .infinite n s i env w hi
    hw l w' hl
  have hs := (matched_loop _ n s i env w l w' hl).1
  ⟨hwf.1, hs, (hwf.2.of_success hs).neg_one_le⟩

/-- One step of a loop over pairs. -/
theorem loop_pair_succ (hc : PairsConsume I op p) (h : Value φ → Value φ → Value φ) (n : Nat)
    (hi : i ≤ s.length) (hw : I w) :
    loop (pairWith op p h) (n + 1) s i env w =
      afterPair op p s i env
        (fun o y => (Result.paired h o y).cons <$> loop (pairWith op p h) n s y.index env)
        (fun r => pure (r.skipped i)) w := by
  rw [loop_succ, pairWith_eq_afterPair, afterPair_bind]
  refine afterPair_congr (fun o y w' hm => congrFun ?_ w') fun r hs => ?_
  · have hne : ¬y.index = i := Nat.ne_of_gt (hc hi hw hm)
    rw [pure_bind, if_pos (Result.status_paired h o y), Result.index_paired, if_neg hne]
  · rw [pure_bind, if_neg (by simp [hs])]

/-- A loop over pairs does not depend on how often it may match, if that is often enough. -/
theorem loop_eq_loop (hop : WellFormed I op) (hp : WellFormed I p) (hc : PairsConsume I op p)
    (h : Value φ → Value φ → Value φ) {k : Nat} (hi : i ≤ s.length) (hw : I w)
    (hn : s.length - i < n) (hk : s.length - i < k) :
    loop (pairWith op p h) n s i env w = loop (pairWith op p h) k s i env w := by
  induction n generalizing i k w with
  | zero => omega
  | succ n ih =>
    obtain ⟨k, rfl⟩ : ∃ k', k = k' + 1 := ⟨k - 1, by omega⟩
    rw [loop_pair_succ hc h n hi hw, loop_pair_succ hc h k hi hw]
    refine afterPair_congr (fun o y w' hm => ?_) fun r _ => rfl
    obtain ⟨hw', -, hwy⟩ := hm.wellFormed hop hp hi hw
    have hlt := hc hi hw hm
    have hy := hwy.index_le
    have hrest := ih (k := k) (w := w') hy hw' (by omega) (by omega)
    rw [map_eq_pure_bind, map_eq_pure_bind, bind_apply, hrest, ← bind_apply]

/-! ## Runs of a loop over pairs -/

/-- An attempt of `op` and then `p` fails, with a report of all that failed. -/
def PairFails (op p : Behaviour (EStateM (Halt φ) σ) φ) (s : Input) (env : Value φ) (i : Nat)
    (w : σ) (report : Report) (w' : σ) : Prop :=
  (∃ o, op s i env w = .ok o w' ∧ o.status = false ∧ report = o.toReport) ∨
  ∃ o w₁ y, op s i env w = .ok o w₁ ∧ o.status = true ∧ p s o.index env w₁ = .ok y w' ∧
    y.status = false ∧ report = y.toReport.join o.toReport

/-- `op` and then `p` match one time after another: the values of both each time, all their reports
as one, the latest first, and where that leads. -/
inductive Pairs (op p : Behaviour (EStateM (Halt φ) σ) φ) (s : Input) (env : Value φ) :
    Nat → σ → List (Value φ × Value φ) → Report → Nat → σ → Prop where
  | nil (i : Nat) (w : σ) : Pairs op p s env i w [] .silent i w
  | cons {i j : Nat} {w w₁ w₂ : σ} {o y : Result (Value φ)} {pairs : List (Value φ × Value φ)}
    {report : Report} :
    PairMatch op p s env i w o y w₁ → Pairs op p s env y.index w₁ pairs report j w₂ →
    Pairs op p s env i w ((o.value, y.value) :: pairs)
      (report.join (y.toReport.join o.toReport)) j w₂

theorem afterPair_eq_ok {α : Type} {matched : Result (Value φ) → Result (Value φ) →
    EStateM (Halt φ) σ α} {missed : Result (Value φ) → EStateM (Halt φ) σ α} {a : α}
    (h : afterPair op p s i env matched missed w = .ok a w') :
    (∃ o y w₁, PairMatch op p s env i w o y w₁ ∧ matched o y w₁ = .ok a w') ∨
    ∃ r w₁, r.status = false ∧ PairFails op p s env i w r.toReport w₁ ∧ missed r w₁ = .ok a w' := by
  obtain ⟨o, w₁, ho, h⟩ := bind_eq_ok h
  by_cases hs : o.status = true
  · rw [if_pos hs] at h
    obtain ⟨y, w₂, hy, h⟩ := bind_eq_ok h
    by_cases hs' : y.status = true
    · rw [if_pos hs'] at h
      exact .inl ⟨o, y, w₂, ⟨⟨w₁, ho, hy⟩, hs, hs'⟩, h⟩
    · rw [if_neg hs'] at h
      have hmissed : y.status = false := by simpa using hs'
      exact .inr ⟨y.merge o, w₂, hmissed, .inr ⟨o, w₁, y, ho, hs, hy, hmissed, rfl⟩, h⟩
  · rw [if_neg hs] at h
    have hmissed : o.status = false := by simpa using hs
    exact .inr ⟨o, w₁, hmissed, .inl ⟨o, ho, hmissed, rfl⟩, h⟩

theorem PairFails.neg_one_le {report : Report} (h : PairFails op p s env i w report w')
    (hop : WellFormed I op) (hp : WellFormed I p) (hi : i ≤ s.length) (hw : I w) :
    -1 ≤ report.furthest := by
  rcases h with ⟨o, ho, -, rfl⟩ | ⟨o, w₁, y, ho, -, hy, -, rfl⟩
  · exact (hop s i env w hi hw o w' ho).2.fits.neg_one_le
  · obtain ⟨hw₁, hwf⟩ := hop s i env w hi hw o w₁ ho
    have hwf' := (hp s o.index env w₁ hwf.index_le hw₁ y w' hy).2
    exact Result.neg_one_le_merge hwf'.fits.neg_one_le o

theorem PairFails.keeps {report : Report} (h : PairFails op p s env i w report w')
    (hop : WellFormed I op) (hp : WellFormed I p) (hi : i ≤ s.length) (hw : I w) : I w' := by
  rcases h with ⟨o, ho, -⟩ | ⟨o, w₁, y, ho, -, hy, -⟩
  · exact (hop s i env w hi hw o w' ho).1
  · obtain ⟨hw₁, hwf⟩ := hop s i env w hi hw o w₁ ho
    exact (hp s o.index env w₁ hwf.index_le hw₁ y w' hy).1

theorem Pairs.values {F V : Value φ → Prop} {pairs : List (Value φ × Value φ)} {report : Report}
    {j : Nat} (h : Pairs op p s env i w pairs report j w') (hop : WellFormed I op)
    (hp : WellFormed I p) (hF : YieldsFrom I op F) (hV : YieldsFrom I p V) (hi : i ≤ s.length)
    (hw : I w) : (∀ a ∈ pairs, F a.1 ∧ V a.2) ∧ j ≤ s.length ∧ I w' := by
  induction h with
  | nil => exact ⟨nofun, hi, hw⟩
  | @cons i j w w₁ w₂ o y pairs report hm _ ih =>
    obtain ⟨hw₁, -, hwy⟩ := hm.wellFormed hop hp hi hw
    obtain ⟨hpairs, hend⟩ := ih hwy.index_le hw₁
    exact ⟨List.forall_mem_cons.2 ⟨hm.values hop hF hV hi hw, hpairs⟩, hend⟩

/-- What a loop over pairs comes to: pairs lead to where it ends, and there the next one fails. -/
theorem exists_pairs (hop : WellFormed I op) (hp : WellFormed I p) (hc : PairsConsume I op p)
    (h : Value φ → Value φ → Value φ) (hi : i ≤ s.length) (hw : I w) {l : Result (Value φ)}
    (hl : loop (pairWith op p h) n s i env w = .ok l w') :
    ∃ pairs report w₁ last, Pairs op p s env i w pairs report l.index w₁ ∧
      PairFails op p s env l.index w₁ last w' ∧
      l.value = .list (pairs.map fun a => h a.1 a.2) ∧ l.toReport = last.join report := by
  induction n generalizing i w l with
  | zero => cases hl
  | succ n ih =>
    rw [loop_pair_succ hc h n hi hw] at hl
    rcases afterPair_eq_ok hl with ⟨o, y, w₁, hm, hl⟩ | ⟨r, w₁, -, hfails, ⟨⟩⟩
    · obtain ⟨hw₁, -, hwy⟩ := hm.wellFormed hop hp hi hw
      rw [map_eq_pure_bind] at hl
      obtain ⟨later, w₂, hlater, ⟨⟩⟩ := bind_eq_ok hl
      obtain ⟨pairs, report, w₃, last, hpairs, hfails, hvalue, hreport⟩ :=
        ih hwy.index_le hw₁ hlater
      refine ⟨_, _, w₃, last, .cons hm hpairs, hfails, ?_, ?_⟩
      · simp [Result.cons, hvalue]
      · simp only [Result.cons, hreport, Report.join_assoc,
          Result.toReport_paired h o hwy.fits.neg_one_le]
    · have hr := hfails.neg_one_le hop hp hi hw
      refine ⟨[], .silent, w, r.toReport, .nil i w, hfails, rfl, ?_⟩
      rw [Report.join_silent hr]
      exact Report.silent_join hr

/-- What is done with the values of a loop over pairs is done after pairs have led to where the next
one fails. -/
theorem map_loop_eq_ok (hop : WellFormed I op) (hp : WellFormed I p) (hc : PairsConsume I op p)
    (h : Value φ → Value φ → Value φ) {F : List (Value φ) → EStateM (Halt φ) σ (Value φ)}
    (hi : i ≤ s.length) (hw : I w) {r : Result (Value φ)}
    (hr : map (loop (pairWith op p h) n) (fun l => F l.items) s i env w = .ok r w') :
    ∃ pairs report w₁ last w₂, Pairs op p s env i w pairs report r.index w₁ ∧
      PairFails op p s env r.index w₁ last w₂ ∧ r.toReport = last.join report ∧
      F (pairs.map fun a => h a.1 a.2) w₂ = .ok r.value w' := by
  rw [map_apply] at hr
  obtain ⟨l, w₁, hl, hr⟩ := bind_eq_ok hr
  obtain ⟨-, hs, hfurthest⟩ := returns_loop hop hp h n hi hw l w₁ hl
  rw [if_pos hs] at hr
  obtain ⟨v, w₂, hv, ⟨⟩⟩ := bind_eq_ok hr
  obtain ⟨pairs, report, w₃, last, hpairs, hfails, hvalue, hreport⟩ :=
    exists_pairs hop hp hc h hi hw hl
  refine ⟨pairs, report, w₃, last, w₁, hpairs, hfails, ?_, ?_⟩
  · exact (Report.silent_join hfurthest).trans hreport
  · rwa [hvalue] at hv

/-! ## A match, and then pairs -/

/-- `p` matches, pairs of `op` and `p` lead from there to where `r` ends, and there the next pair
fails.  The report of `r` is that of all of them, the latest first. -/
def Separated (op p : Behaviour (EStateM (Halt φ) σ) φ) (s : Input) (env : Value φ) (i : Nat)
    (w : σ) (x : Value φ) (pairs : List (Value φ × Value φ)) (r : Result (Value φ)) (w' : σ) : Prop :=
  ∃ first w₁ report w₂ last, p s i env w = .ok first w₁ ∧ first.status = true ∧ first.value = x ∧
    Pairs op p s env first.index w₁ pairs report r.index w₂ ∧
    PairFails op p s env r.index w₂ last w' ∧ r.toReport = last.join (report.join first.toReport)

/-- A match and then a loop, with something done to all the values, is a chain. -/
theorem mapEnv_seq_loop {f : Value φ → Value φ → EStateM (Halt φ) σ (Value φ)}
    {fold : Value φ → List (Value φ) → EStateM (Halt φ) σ (Value φ)}
    (hf : ∀ x vs, f (.list [x, .list vs]) env = fold x vs) :
    mapEnv (seq [p, loop q n]) f s i env =
      chain p (fun x => pure (map (loop q n) fun l => fold x l.items)) s i env := by
  rw [seq_pair, mapEnv, chain_apply, pairWith_eq_afterPair, afterPair_bind, afterPair]
  refine bind_congr fun r => ?_
  by_cases hs : r.status = true
  · rw [if_pos hs, if_pos hs, pure_bind, map_apply, bind_assoc]
    funext w
    refine bind_congr_returns (matched_loop q n s r.index env w) fun l w' hmatched => ?_
    obtain ⟨hl, hvalue⟩ := hmatched
    rw [if_pos hl, if_pos hl, pure_bind, if_pos (Result.status_paired _ r l),
      Result.value_paired, hvalue, hf, Value.items_list, bind_assoc]
    simp only [pure_bind, Result.paired, Result.success_merge_success, Result.merge_assoc]
    rfl
  · simp [hs]

theorem separated_of_ok (hop : WellFormed I op) (hp : WellFormed I p) (hc : PairsConsume I op p)
    (h : Value φ → Value φ → Value φ)
    (fold : Value φ → List (Value φ) → EStateM (Halt φ) σ (Value φ)) (hi : i ≤ s.length) (hw : I w)
    {r : Result (Value φ)}
    (hr : chain p (fun x => pure (map (loop (pairWith op p h) n) fun l => fold x l.items))
      s i env w = .ok r w') (hs : r.status = true) :
    ∃ x pairs w₁, Separated op p s env i w x pairs r w₁ ∧
      fold x (pairs.map fun a => h a.1 a.2) w₁ = .ok r.value w' := by
  rw [chain_apply] at hr
  obtain ⟨first, w₁, hfirst, hr⟩ := bind_eq_ok hr
  by_cases hfs : first.status = true
  · rw [if_pos hfs, pure_bind] at hr
    obtain ⟨hw₁, hwf⟩ := hp s i env w hi hw first w₁ hfirst
    obtain ⟨rest, w₂, hrest, ⟨⟩⟩ := bind_eq_ok hr
    obtain ⟨pairs, report, w₃, last, w₄, hpairs, hfails, hreport, hvalue⟩ :=
      map_loop_eq_ok hop hp hc h hwf.index_le hw₁ hrest
    refine ⟨first.value, pairs, w₄, ⟨first, w₁, report, w₃, last, hfirst, hfs, rfl, hpairs, hfails,
      ?_⟩, hvalue⟩
    rw [Result.toReport_merge, hreport, Report.join_assoc]
  · rw [if_neg hfs] at hr
    cases hr
    exact absurd hs hfs

theorem Separated.values {F V : Value φ → Prop} {x : Value φ} {pairs : List (Value φ × Value φ)}
    {r : Result (Value φ)} (h : Separated op p s env i w x pairs r w') (hop : WellFormed I op)
    (hp : WellFormed I p) (hF : YieldsFrom I op F) (hV : YieldsFrom I p V) (hi : i ≤ s.length)
    (hw : I w) : V x ∧ (∀ a ∈ pairs, F a.1 ∧ V a.2) ∧ I w' := by
  obtain ⟨first, w₁, report, w₂, last, hfirst, hs, rfl, hpairs, hfails, -⟩ := h
  obtain ⟨hw₁, hwf⟩ := hp s i env w hi hw first w₁ hfirst
  obtain ⟨hvalues, hj, hw₂⟩ := hpairs.values hop hp hF hV hwf.index_le hw₁
  exact ⟨hV s i env w hi hw first w₁ hfirst hs, hvalues, hfails.keeps hop hp hj hw₂⟩

/-- Only the first match can fail. -/
theorem failed_of_chain_loop {F : Value φ → Value φ → EStateM (Halt φ) σ (Value φ)}
    {r : Result (Value φ)}
    (hr : chain p (fun x => pure (map (loop q n) (F x))) s i env w = .ok r w')
    (hs : r.status = false) : p s i env w = .ok r w' := by
  rw [chain_apply] at hr
  obtain ⟨first, w₁, hfirst, hr⟩ := bind_eq_ok hr
  by_cases hfs : first.status = true
  · rw [if_pos hfs, pure_bind] at hr
    obtain ⟨rest, w₂, hrest, ⟨⟩⟩ := bind_eq_ok hr
    rw [map_apply] at hrest
    obtain ⟨l, w₃, hl, hrest⟩ := bind_eq_ok hrest
    rw [if_pos (matched_loop q n _ _ _ _ l w₃ hl).1] at hrest
    obtain ⟨v, w₄, -, ⟨⟩⟩ := bind_eq_ok hrest
    cases hs
  · rw [if_neg hfs] at hr
    cases hr
    exact hfirst

end Behaviour

end Furthest
