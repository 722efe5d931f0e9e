import Furthest.Parser.Behaviour
import Furthest.Proofs.Returns

/-!
# The recursive form of an optional repetition

`upTo p k` matches `p` up to `k` times by recursion: one match and then up to one fewer, or else
nothing.  `asLong p budget` does the same without an upper bound and stops after a match that
consumed nothing; `budget` bounds it as it bounds the loop.  Each is made of sequences, alternatives
and functions of values only, and each comes to one step of `p` with the rest mapped over it
(`upTo_succ_apply`, `asLong_succ_apply`).

The loop of `Behaviour.optional` carries the values and the best result so far, where the recursion
joins reports on the way back.  `Result.onto` takes what the recursion comes to over to what the
loop carries, and the two agree (`optional_eq_upTo`, `optional_eq_asLong`) because joining is
associative and a silent report adds nothing to one that points at `-1` or later.
-/

namespace Furthest

variable {σ φ : Type}

/-! ## Lists of values -/

namespace Value

/-- The items of a list value. -/
def items : Value φ → List (Value φ)
  | .list vs => vs
  | _ => []

/-- The value of `p` before the list of what came after it. -/
def consed : Value φ → Value φ
  | .list [first, .list others] => .list (first :: others)
  | v => v

/-- Two lists as one. -/
def appended : Value φ → Value φ
  | .list [.list first, .list others] => .list (first ++ others)
  | v => v

@[simp] theorem items_list (vs : List (Value φ)) : (list vs).items = vs := rfl

@[simp] theorem consed_list (v : Value φ) (vs : List (Value φ)) :
    consed (.list [v, .list vs]) = .list (v :: vs) := rfl

@[simp] theorem appended_list (vs vs' : List (Value φ)) :
    appended (.list [.list vs, .list vs']) = .list (vs ++ vs') := rfl

end Value

/-! ## Results of repetitions -/

namespace Result

/-- The result of an attempt that started at offset `i` of a text of `n` characters: its report
points at `-1` or later, and a match goes on between `i` and the end. -/
structure InRange (r : Result (Value φ)) (i n : Nat) : Prop where
  le_furthest : -1 ≤ r.furthest
  index_mem : r.status = true → i ≤ r.index ∧ r.index ≤ n

/-- A match whose value is a list. -/
structure Lists (r : Result (Value φ)) (i n : Nat) : Prop extends r.InRange i n where
  matched : r.status = true
  value_eq : r.value = .list r.value.items

/-- What a later match that lists values comes to after this one, whose value stands first. -/
def cons (r later : Result (Value φ)) : Result (Value φ) :=
  ⟨later.toReport.join r.toReport, true, later.index, .list (r.value :: later.value.items)⟩

/-- What a later match that lists values comes to after this one, which lists values too. -/
def append (r later : Result (Value φ)) : Result (Value φ) :=
  ⟨later.toReport.join r.toReport, true, later.index, .list (r.value.items ++ later.value.items)⟩

/-- A match that lists values, after the values and the best result of a loop. -/
def onto (values : Array (Value φ)) (best : Option (Result (Value φ))) (r : Result (Value φ)) :
    Result (Value φ) :=
  ⟨(r.mergeWith best).toReport, true, r.index, .list (values.toList ++ r.value.items)⟩

/-- A match of nothing, after this attempt. -/
def skipped (r : Result (Value φ)) (i : Nat) : Result (Value φ) :=
  (Result.success i (.list [])).merge r

/-- A match that is the last. -/
def alone (r : Result (Value φ)) : Result (Value φ) := { r with value := .list [r.value] }

variable {r later : Result (Value φ)} {i j n : Nat} {best : Option (Result (Value φ))}

theorem InRange.mergeWith (h : r.InRange j n) (hij : i ≤ j) (hb : ∀ b ∈ best, -1 ≤ b.furthest) :
    (r.mergeWith best).InRange i n := by
  refine ⟨?_, fun hs => ?_⟩
  · cases best with
    | none => exact h.le_furthest
    | some b =>
      have := h.le_furthest
      rw [mergeWith_some, toReport_merge, Report.furthest_join]
      omega
  · rw [status_mergeWith] at hs
    rw [index_mergeWith]
    exact ⟨Nat.le_trans hij (h.index_mem hs).1, (h.index_mem hs).2⟩

theorem lists_success (vs : List (Value φ)) (hij : i ≤ j) (hjn : j ≤ n) :
    (Result.success j (.list vs) : Result (Value φ)).Lists i n :=
  ⟨⟨Int.le_refl _, fun _ => ⟨hij, hjn⟩⟩, rfl, rfl⟩

theorem Lists.cons (h : r.InRange i n) (hs : r.status = true) (hl : later.Lists r.index n) :
    (r.cons later).Lists i n := by
  refine ⟨⟨?_, fun _ => ⟨Nat.le_trans (h.index_mem hs).1 (hl.index_mem hl.matched).1,
    (hl.index_mem hl.matched).2⟩⟩, rfl, rfl⟩
  have := h.le_furthest
  rw [Result.cons, Report.furthest_join]
  omega

theorem Lists.skipped (h : -1 ≤ r.furthest) (hi : i ≤ n) : (r.skipped i).Lists i n :=
  ⟨⟨by rw [Result.skipped, toReport_merge, Report.furthest_join]; omega,
    fun _ => ⟨Nat.le_refl i, hi⟩⟩, rfl, rfl⟩

theorem Lists.alone (h : r.InRange i n) (hs : r.status = true) : r.alone.Lists i n :=
  ⟨⟨h.le_furthest, h.index_mem⟩, hs, rfl⟩

/-- Whether the values before a match are carried or put before it afterwards. -/
theorem onto_cons (values : Array (Value φ)) :
    (r.cons later).onto values best =
      later.onto (values.push r.value) (some (r.mergeWith best)) := by
  cases best <;> simp [onto, cons, merge, Report.join_assoc]

theorem onto_skipped (values : Array (Value φ)) :
    (r.skipped i).onto values best =
      (Result.success i (.list values.toList)).merge (r.mergeWith best) := by
  cases best <;> simp [onto, skipped, merge, success, Report.join_assoc]

theorem onto_alone (h : -1 ≤ r.furthest) (values : Array (Value φ)) :
    r.alone.onto values best =
      (Result.success r.index (.list (values.push r.value).toList)).merge (r.mergeWith best) := by
  cases best with
  | none => simp [onto, alone, merge, success, Report.silent_join h]
  | some b => simp [onto, alone, merge, success, ← Report.join_assoc, Report.silent_join h]

/-- A loop that has ended, and the rest after it. -/
theorem onto_eq_append (h : -1 ≤ r.furthest) (hb : ∀ b ∈ best, -1 ≤ b.furthest)
    (values : Array (Value φ)) :
    r.onto values best = ((Result.success i (.list values.toList)).mergeWith best).append r := by
  cases best with
  | none => simp [onto, append, success, Report.join_silent h]
  | some b => simp [onto, append, merge, success, Report.silent_join (hb b rfl)]

end Result

namespace Behaviour

variable {p q : Behaviour (EStateM (Halt φ) σ) φ} {s : Input} {env : Value φ} {i : Nat} {w : σ}

/-! ## Behaviours that can be repeated -/

/-- From every offset of every text, in every environment and state, results are in range. -/
def InRange (p : Behaviour (EStateM (Halt φ) σ) φ) : Prop :=
  ∀ s i env w, i ≤ s.length → Returns (p s i env) w fun r _ => r.InRange i s.length

/-- From every offset of every text, in every environment and state, results are matches that list
values. -/
def Lists (q : Behaviour (EStateM (Halt φ) σ) φ) : Prop :=
  ∀ s i env w, i ≤ s.length → Returns (q s i env) w fun r _ => r.Lists i s.length

/-- Transforms the value of a match. -/
def mapValue (p : Behaviour (EStateM (Halt φ) σ) φ) (f : Value φ → Value φ) :
    Behaviour (EStateM (Halt φ) σ) φ :=
  mapEnv p fun v _ => pure (f v)

/-- A match of nothing, with no values. -/
def nothing : Behaviour (EStateM (Halt φ) σ) φ := leaf (Leaf.succeed (.list []))

/-- Up to so many matches: one and then up to one fewer, or else none. -/
def upTo (p : Behaviour (EStateM (Halt φ) σ) φ) : Nat → Behaviour (EStateM (Halt φ) σ) φ
  | 0 => nothing
  | k + 1 => alt (mapValue (seq [p, upTo p k]) Value.consed) [nothing]

/-- A match, and then more: nothing where it consumed nothing, and otherwise `q`. -/
def thenMore (p q : Behaviour (EStateM (Halt φ) σ) φ) : Behaviour (EStateM (Halt φ) σ) φ :=
  fun s i env => do
    let r ← p s i env
    if r.status then
      let more := if r.index = i then leaf (Leaf.succeed (.list [r.value]))
        else mapValue q fun v => .list (r.value :: v.items)
      pure ((← more s r.index env).merge r)
    else pure r

/-- As many matches as there are, and at most `budget`: one and then more, or else none. -/
def asLong (p : Behaviour (EStateM (Halt φ) σ) φ) : Nat → Behaviour (EStateM (Halt φ) σ) φ
  | 0 => fun _ _ _ => throw .exhausted
  | budget + 1 => alt (thenMore p (asLong p budget)) [nothing]

/-! ## One step of the recursion -/

/-- A match with the rest after it, or else nothing. -/
def consOr (p q : Behaviour (EStateM (Halt φ) σ) φ) : Behaviour (EStateM (Halt φ) σ) φ :=
  fun s i env => do
    let r ← p s i env
    if r.status then r.cons <$> q s r.index env else pure (r.skipped i)

/-- A match with the rest after it, where it consumed something, or else nothing. -/
def consOrAlone (p q : Behaviour (EStateM (Halt φ) σ) φ) : Behaviour (EStateM (Halt φ) σ) φ :=
  fun s i env => do
    let r ← p s i env
    if r.status then if r.index = i then pure r.alone else r.cons <$> q s r.index env
    else pure (r.skipped i)

theorem mapValue_apply (p : Behaviour (EStateM (Halt φ) σ) φ) (f : Value φ → Value φ) (s : Input)
    (i : Nat) (env : Value φ) :
    mapValue p f s i env = (p s i env >>= fun r =>
      if r.status then pure ((Result.success r.index (f r.value)).merge r) else pure r) := by
  simp [mapValue, mapEnv]

theorem alt_nothing_apply (p : Behaviour (EStateM (Halt φ) σ) φ) (s : Input) (i : Nat)
    (env : Value φ) :
    alt p [nothing] s i env = (p s i env >>= fun r =>
      if r.status then pure r else pure (r.skipped i)) := by
  simp [alt, altFrom, nothing, leaf, Leaf.succeed, Result.skipped, Result.success]

/-- The value of a sequence of two, where the second always matches. -/
theorem mapValue_seq_apply (hp : InRange p) (hq : Lists q) (f : Value φ → Value φ)
    (hi : i ≤ s.length) :
    mapValue (seq [p, q]) f s i env w = (p s i env >>= fun r =>
      if r.status then (fun later : Result (Value φ) =>
        ⟨later.toReport.join r.toReport, true, later.index, f (.list [r.value, later.value])⟩) <$>
          q s r.index env
      else pure r) w := by
  simp only [mapValue_apply, seq, seqFrom, bind_assoc, Result.mergeWith_none]
  refine bind_congr_returns (hp s i env w hi) fun r w' hr => ?_
  by_cases hs : r.status = true
  · simp only [hs, if_true, bind_assoc, map_eq_pure_bind]
    refine bind_congr_returns (hq s r.index env w' (hr.index_mem hs).2) fun later w'' hl => ?_
    have hm : -1 ≤ (later.toReport.join r.toReport).furthest := by
      have := hr.le_furthest
      rw [Report.furthest_join]
      omega
    simp [hl.matched, Result.merge, Result.success, Report.silent_join hm]
  · simp [hs]

theorem upTo_succ_apply (hp : InRange p) {k : Nat} (hk : Lists (upTo p k)) (hi : i ≤ s.length) :
    upTo p (k + 1) s i env w = consOr p (upTo p k) s i env w := by
  rw [upTo, alt_nothing_apply, bind_apply, mapValue_seq_apply hp hk _ hi, ← bind_apply, consOr,
    bind_assoc]
  refine bind_congr_returns (hp s i env w hi) fun r w' hr => ?_
  cases hs : r.status with
  | false => simp [hs]
  | true =>
    simp only [if_true, bind_assoc, map_eq_pure_bind]
    refine bind_congr_returns (hk s r.index env w' (hr.index_mem hs).2) fun later w'' hl => ?_
    rw [hl.value_eq]
    simp [Result.cons]

theorem asLong_succ_apply (hp : InRange p) {budget : Nat} (hb : Lists (asLong p budget))
    (hi : i ≤ s.length) :
    asLong p (budget + 1) s i env w = consOrAlone p (asLong p budget) s i env w := by
  rw [asLong, alt_nothing_apply, thenMore, consOrAlone, bind_assoc]
  refine bind_congr_returns (hp s i env w hi) fun r w' hr => ?_
  cases hs : r.status with
  | false => simp [hs]
  | true =>
    by_cases hc : r.index = i
    · simp [hc, leaf, Leaf.succeed, Result.success, Result.merge, Result.alone,
        Report.silent_join hr.le_furthest, hs]
    · simp only [if_true, if_neg hc, mapValue_apply, bind_assoc, map_eq_pure_bind]
      refine bind_congr_returns (hb s r.index env w' (hr.index_mem hs).2) fun later w'' hl => ?_
      simp [hl.matched, Result.merge, Result.success, Result.cons,
        Report.silent_join hl.le_furthest]

/-! ## The recursion lists values -/

theorem lists_nothing : Lists (nothing : Behaviour (EStateM (Halt φ) σ) φ) :=
  fun _ i _ _ hi => returns_pure (Result.lists_success [] (Nat.le_refl i) hi)

theorem lists_consOr (hp : InRange p) (hq : Lists q) : Lists (consOr p q) := by
  intro s i env w hi
  refine (hp s i env w hi).bind fun r w' hr => ?_
  split
  · next hs =>
    exact Returns.map ((hq s r.index env w' (hr.index_mem hs).2).mono fun _ _ hl => .cons hr hs hl)
  · exact returns_pure (.skipped hr.le_furthest hi)

theorem lists_consOrAlone (hp : InRange p) (hq : Lists q) : Lists (consOrAlone p q) := by
  intro s i env w hi
  refine (hp s i env w hi).bind fun r w' hr => ?_
  split
  · next hs =>
    split
    · exact returns_pure (.alone hr hs)
    · have hlater := hq s r.index env w' (hr.index_mem hs).2
      exact Returns.map (hlater.mono fun _ _ hl => .cons hr hs hl)
  · exact returns_pure (.skipped hr.le_furthest hi)

theorem lists_upTo (hp : InRange p) (k : Nat) : Lists (upTo p k) := by
  induction k with
  | zero => exact lists_nothing
  | succ k ih =>
    intro s i env w hi r w' h
    rw [upTo_succ_apply hp ih hi] at h
    exact lists_consOr hp ih s i env w hi r w' h

theorem lists_asLong (hp : InRange p) (budget : Nat) : Lists (asLong p budget) := by
  induction budget with
  | zero => exact fun _ _ _ _ _ => returns_throw
  | succ budget ih =>
    intro s i env w hi r w' h
    rw [asLong_succ_apply hp ih hi] at h
    exact lists_consOrAlone hp ih s i env w hi r w' h

/-! ## The loop agrees with the recursion -/

/-- Going on with a loop comes to what a behaviour comes to, after what the loop carries. -/
def Unrolls (s : Input) (env : Value φ) (next : Repeat (EStateM (Halt φ) σ) φ)
    (q : Behaviour (EStateM (Halt φ) σ) φ) : Prop :=
  ∀ i values best w, i ≤ s.length →
    next i values best w = (Result.onto values best <$> q s i env) w

theorem unrolls_finish : Unrolls s env finish (nothing : Behaviour (EStateM (Halt φ) σ) φ) := by
  intro i values best w _
  cases best <;>
    simp [finish, nothing, leaf, Leaf.succeed, Result.onto, Result.success, Result.merge]

theorem optional_eq_upTo (hp : InRange p) {bound : Nat} (hbound : bound < boundCeiling) (k : Nat) :
    Unrolls s env (optional p (.finite bound) s env finish k) (upTo p k) := by
  induction k with
  | zero => exact unrolls_finish
  | succ k ih =>
    intro i values best w hi
    rw [map_eq_pure_bind, bind_apply, upTo_succ_apply hp (lists_upTo hp k) hi, ← bind_apply,
      consOr, bind_assoc, optional]
    refine bind_congr_returns (hp s i env w hi) fun r w' hr => ?_
    by_cases hs : r.status = true
    · simp only [Result.status_mergeWith, Result.index_mergeWith, Result.value_mergeWith, hs,
        hbound, if_true, ite_self, bind_assoc, map_eq_pure_bind, pure_bind, Result.onto_cons]
      rw [ih _ _ _ _ (hr.index_mem hs).2, map_eq_pure_bind]
    · simp [hs, finish, Result.onto_skipped]

theorem optional_eq_asLong (hp : InRange p) (budget : Nat) :
    Unrolls s env (optional p .infinite s env spent budget) (asLong p budget) := by
  induction budget with
  | zero => exact fun _ _ _ _ _ => rfl
  | succ budget ih =>
    intro i values best w hi
    rw [map_eq_pure_bind, bind_apply, asLong_succ_apply hp (lists_asLong hp budget) hi,
      ← bind_apply, consOrAlone, bind_assoc, optional]
    refine bind_congr_returns (hp s i env w hi) fun r w' hr => ?_
    by_cases hs : r.status = true
    · by_cases hc : r.index = i
      · simp [hs, hc, finish, Result.onto_alone hr.le_furthest]
      · simp only [Result.status_mergeWith, Result.index_mergeWith, Result.value_mergeWith, hs,
          if_true, if_neg hc, bind_assoc, map_eq_pure_bind, pure_bind, Result.onto_cons]
        rw [ih _ _ _ _ (hr.index_mem hs).2, map_eq_pure_bind]
    · simp [hs, finish, Result.onto_skipped]

end Behaviour

end Furthest
