import Furthest.Proofs.Algebra.Chain
import Furthest.Proofs.Faultless.Shapes
import Furthest.Proofs.Repetition.Times

/-!
# Sequences as chains

`pairWith p q f` runs `p` and then `q` and puts their values together with `f`.  A sequence is such
pairs, one in another, and ends in a match of nothing (`seq_nil_eq`, `seq_cons`).  Pairs regroup as
far as their functions do (`pairWith_assoc`), by the laws of chains, and so do sequences
(`seq_append`).
-/

namespace Furthest

variable {φ σ : Type}

namespace Value

/-- A value before the items of a list. -/
def listed (v later : Value φ) : Value φ := .list (v :: later.items)

/-- The items of two lists as one list. -/
def joined (v later : Value φ) : Value φ := .list (v.items ++ later.items)

theorem joined_listed (v v' v'' : Value φ) : joined (listed v v') v'' = listed v (joined v' v'') :=
  rfl

end Value

namespace Behaviour

open Value (listed joined)

variable {p q : Behaviour (EStateM (Halt φ) σ) φ}
  {ps qs : List (Behaviour (EStateM (Halt φ) σ) φ)} {f g : Value φ → Value φ → Value φ}

/-! ## Functions without effects -/

theorem grounded_mapValue (hp : Grounded p) (h : Value φ → Value φ) : Grounded (mapValue p h) :=
  grounded_mapEnv hp _

theorem mapValue_eq_map (p : Behaviour (EStateM (Halt φ) σ) φ) (h : Value φ → Value φ) :
    mapValue p h = map p fun v => pure (h v) := rfl

theorem mapValue_mapValue (p : Behaviour (EStateM (Halt φ) σ) φ) (h k : Value φ → Value φ) :
    mapValue (mapValue p h) k = mapValue p fun v => k (h v) := by
  simp only [mapValue_eq_map, map_map, pure_bind]

theorem mapValue_succeed (v : Value φ) (h : Value φ → Value φ) :
    mapValue (succeed v) h = succeed (σ := σ) (h v) := rfl

/-- Values that come out the same may be transformed by either function. -/
theorem mapValue_congr {V : Value φ → Prop} {h k : Value φ → Value φ} (hp : Produces p V)
    (hV : ∀ v, V v → h v = k v) : mapValue p h = mapValue p k := by
  funext s i env w
  refine bind_congr_returns (hp s i env w) fun r w' hr => ?_
  by_cases hs : r.status = true
  · simp only [hs, if_true, hV r.value (hr hs)]
  · rw [if_neg hs, if_neg hs]

theorem mapValue_self {V : Value φ → Prop} {h : Value φ → Value φ} (hg : Grounded p)
    (hp : Produces p V) (hV : ∀ v, V v → h v = v) : mapValue p h = p := by
  rw [mapValue_congr hp hV]
  exact map_pure hg

/-- A transformed value goes on where the value itself would have. -/
theorem chain_mapValue (p : Behaviour (EStateM (Halt φ) σ) φ) (h : Value φ → Value φ)
    {k : Value φ → Behaviour (EStateM (Halt φ) σ) φ} (hk : ∀ v, Grounded (k v)) :
    chain (mapValue p h) (fun v => pure (k v)) = chain p fun v => pure (k (h v)) := by
  have hmade : ∀ v, chain (succeed (h v)) (fun v => pure (k v)) = k (h v) := fun v =>
    succeed_chain (fun v _ => returns_pure (hk v)) (h v)
  simp only [mapValue_eq_map, map_eq_chain, chain_assoc, pure_bind, hmade]

theorem mapValue_chain (p : Behaviour (EStateM (Halt φ) σ) φ)
    (k : Value φ → Behaviour (EStateM (Halt φ) σ) φ) (h : Value φ → Value φ) :
    mapValue (chain p fun v => pure (k v)) h = chain p fun v => pure (mapValue (k v) h) := by
  simp only [mapValue_eq_map, map_eq_chain, chain_assoc, pure_bind]

/-! ## Two behaviours, one after the other -/

/-- Runs two behaviours one after the other and puts their values together. -/
def pairWith (p q : Behaviour (EStateM (Halt φ) σ) φ) (f : Value φ → Value φ → Value φ) :
    Behaviour (EStateM (Halt φ) σ) φ :=
  chain p fun v => pure (mapValue q (f v))

theorem grounded_pairWith (hp : Grounded p) (hq : Grounded q) (f : Value φ → Value φ → Value φ) :
    Grounded (pairWith p q f) :=
  grounded_chainEnv hp fun v _ _ => returns_pure (grounded_mapValue hq (f v))

theorem mapValue_pairWith (p q : Behaviour (EStateM (Halt φ) σ) φ)
    (f : Value φ → Value φ → Value φ) (h : Value φ → Value φ) :
    mapValue (pairWith p q f) h = pairWith p q fun v v' => h (f v v') := by
  simp only [pairWith, mapValue_chain, mapValue_mapValue]

theorem pairWith_mapValue (p q : Behaviour (EStateM (Halt φ) σ) φ) (h : Value φ → Value φ)
    (f : Value φ → Value φ → Value φ) :
    pairWith p (mapValue q h) f = pairWith p q fun v v' => f v (h v') := by
  simp only [pairWith, mapValue_mapValue]

/-- Values that come out the same may be put together by either function. -/
theorem pairWith_congr {V V' : Value φ → Prop} (hp : Produces p V) (hq : Produces q V')
    (h : ∀ v v', V v → V' v' → f v v' = g v v') : pairWith p q f = pairWith p q g := by
  funext s i env w
  refine bind_congr_returns (hp s i env w) fun r w' hr => ?_
  by_cases hs : r.status = true
  · simp only [hs, if_true, pure_bind, mapValue_congr hq fun v' => h r.value v' (hr hs)]
  · rw [if_neg hs, if_neg hs]

theorem succeed_pairWith (hq : Grounded q) (v : Value φ) (f : Value φ → Value φ → Value φ) :
    pairWith (succeed v) q f = mapValue q (f v) :=
  succeed_chain (fun v _ => returns_pure (grounded_mapValue hq (f v))) v

theorem pairWith_succeed (p : Behaviour (EStateM (Halt φ) σ) φ) (v' : Value φ)
    (f : Value φ → Value φ → Value φ) :
    pairWith p (succeed v') f = mapValue p fun v => f v v' := by
  simp only [pairWith, mapValue_succeed]
  simp only [mapValue_eq_map, map_eq_chain, pure_bind]

/-- Three behaviours in turn may be grouped either way, if the functions of their values may. -/
theorem pairWith_assoc (p : Behaviour (EStateM (Halt φ) σ) φ)
    {q r : Behaviour (EStateM (Halt φ) σ) φ} (hr : Grounded r)
    {f g f' g' : Value φ → Value φ → Value φ}
    (h : ∀ v v' v'', g (f v v') v'' = f' v (g' v' v'')) :
    pairWith (pairWith p q f) r g = pairWith p (pairWith q r g') f' := by
  have hrest : ∀ v, Grounded (mapValue r (g v)) := fun v => grounded_mapValue hr (g v)
  have hvalues : ∀ v v', g (f v v') = fun v'' => f' v (g' v' v'') := fun v v' => funext (h v v')
  simp only [pairWith, chain_assoc, pure_bind, chain_mapValue _ _ hrest, mapValue_chain,
    mapValue_mapValue, hvalues]

/-! ## Sequences -/

/-- What the last parts of a sequence come to after the parts before them: the values come after
those, and the report joins the best result so far. -/
def after (values : Array (Value φ)) (best : Option (Result (Value φ))) (r : Result (Value φ)) :
    Result (Value φ) :=
  if r.status then r.onto values best else r.mergeWith best

theorem after_after (values : Array (Value φ)) (best : Option (Result (Value φ)))
    (r later : Result (Value φ)) :
    after values best (after #[r.value] (some r) later) =
      after (values.push r.value) (some (r.mergeWith best)) later := by
  by_cases hs : later.status = true
  · cases best <;> simp [after, Result.onto, hs, Result.merge, Report.join_assoc]
  · cases best <;> simp [after, hs, Result.merge, Report.join_assoc]

/-- What the loop of a sequence carries may as well be added to what the rest of it comes to. -/
theorem seqFrom_eq_after (s : Input) (env : Value φ)
    (ps : List (Behaviour (EStateM (Halt φ) σ) φ)) (i : Nat) (values : Array (Value φ))
    (best : Option (Result (Value φ))) :
    seqFrom s env ps i values best = after values best <$> seq ps s i env := by
  unfold seq
  induction ps generalizing i values best with
  | nil => cases best <;> simp [seqFrom, after, Result.onto, Result.success, Result.merge]
  | cons p ps ih =>
    simp only [seqFrom, map_bind, Result.mergeWith_none]
    refine bind_congr fun r => ?_
    by_cases hs : r.status = true
    · simp only [Result.status_mergeWith, Result.index_mergeWith, Result.value_mergeWith, hs,
        if_true]
      rw [ih r.index _ (some (r.mergeWith best)), ih r.index _ (some r)]
      simp [after_after]
    · simp [after, hs]

theorem seq_nil_eq : seq [] = succeed (σ := σ) (.list [] : Value φ) := rfl

/-- A sequence is its first part and then the sequence of the rest. -/
theorem seq_cons (p : Behaviour (EStateM (Halt φ) σ) φ) (hps : ∀ p ∈ ps, Grounded p) :
    seq (p :: ps) = pairWith p (seq ps) listed := by
  funext s i env w
  rw [pairWith, chain_apply]
  show (p s i env >>= fun r => _) w = _
  refine congrFun (bind_congr fun r => ?_) w
  by_cases hs : r.status = true
  · simp only [Result.mergeWith_none, hs, if_true, pure_bind]
    rw [seqFrom_eq_after, map_eq_pure_bind, mapValue_eq_map, map_apply, bind_assoc]
    funext w'
    refine bind_congr_returns (grounded_seq hps s r.index env w') fun later w'' hlater => ?_
    by_cases hlast : later.status = true
    · have hreport : (Result.success later.index (listed r.value later.value)).merge later =
          ⟨later.toReport, true, later.index, listed r.value later.value⟩ :=
        Result.success_merge hlater _ _
      simp only [after, hlast, if_true, pure_bind]
      rw [hreport]
      rfl
    · simp [after, hlast]
  · simp [hs]

/-- A sequence of two parts is a pair. -/
theorem mapValue_seq_pair (p : Behaviour (EStateM (Halt φ) σ) φ) (hq : Grounded q)
    (h : Value φ → Value φ) :
    mapValue (seq [p, q]) h = pairWith p q fun v v' => h (.list [v, v']) := by
  have hnil : ∀ p ∈ ([] : List (Behaviour (EStateM (Halt φ) σ) φ)), Grounded p := nofun
  rw [seq_cons p (by simpa using hq), seq_cons q hnil, seq_nil_eq, pairWith_succeed,
    mapValue_pairWith, pairWith_mapValue]
  rfl

theorem produces_seq_list (ps : List (Behaviour (EStateM (Halt φ) σ) φ)) :
    Produces (seq ps) fun v => ∃ vs, v = .list vs := by
  have hps : List.Forall₂ Produces ps (ps.map fun _ _ => True) := by
    rw [List.forall₂_map_right_iff, List.forall₂_same]
    exact fun p _ => produces_trivial p
  exact (produces_seq hps).mono fun v ⟨vs, hv, _⟩ => ⟨vs, hv⟩

theorem appended_seq_seq (ps : List (Behaviour (EStateM (Halt φ) σ) φ))
    (hqs : ∀ q ∈ qs, Grounded q) :
    appended (seq ps) (seq qs) = pairWith (seq ps) (seq qs) joined := by
  rw [appended, mapValue_seq_pair _ (grounded_seq hqs)]
  refine pairWith_congr (produces_seq_list ps) (produces_seq_list qs) ?_
  rintro _ _ ⟨vs, rfl⟩ ⟨vs', rfl⟩
  rfl

/-- A sequence may be cut in two at any place. -/
theorem seq_append (hps : ∀ p ∈ ps, Grounded p) (hqs : ∀ q ∈ qs, Grounded q) :
    seq (ps ++ qs) = appended (seq ps) (seq qs) := by
  rw [appended_seq_seq ps hqs]
  induction ps with
  | nil =>
    rw [List.nil_append, seq_nil_eq, succeed_pairWith (grounded_seq hqs)]
    refine (mapValue_self (grounded_seq hqs) (produces_seq_list qs) ?_).symm
    rintro _ ⟨vs, rfl⟩
    rfl
  | cons p ps ih =>
    have hps' : ∀ p ∈ ps, Grounded p := fun p hp => hps p (List.mem_cons_of_mem _ hp)
    have hboth : ∀ p ∈ ps ++ qs, Grounded p := fun p hp =>
      (List.mem_append.1 hp).elim (hps' p) (hqs p)
    rw [List.cons_append, seq_cons p hboth, seq_cons p hps', ih hps']
    exact (pairWith_assoc p (grounded_seq hqs) Value.joined_listed).symm

end Behaviour

end Furthest
