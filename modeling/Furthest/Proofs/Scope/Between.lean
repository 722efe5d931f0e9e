import Furthest.Proofs.Parallel.Behaviour

/-!
# Behaviours in two environments

A behaviour in a fixed environment (`Behaviour.inEnv`) forgets the environment it is run in.  Since
the combinators hand the environment on to their parts as it is, fixing it for a whole is fixing it
for each part.

So two behaviours may be compared where each is run in an environment of its own: they agree between
related environments (`Between`) if the one leads to the results of the other there.  Every
combinator takes parts that agree to a whole that agrees, whatever the relation is.  A derived
environment moves to another relation.
-/

namespace Furthest

namespace Behaviour

variable {m : Type → Type} [Monad m] {φ : Type}

/-- A behaviour in one environment, whatever environment it is run in. -/
def inEnv (x : Value φ) (p : Behaviour m φ) : Behaviour m φ := fun s i _ => p s i x

variable (x : Value φ) (p q : Behaviour m φ) (ps : List (Behaviour m φ))

theorem seqFrom_inEnv (s : Input) (env : Value φ) (i : Nat) (values : Array (Value φ))
    (best : Option (Result (Value φ))) :
    seqFrom s env (ps.map (inEnv x)) i values best = seqFrom s x ps i values best := by
  induction ps generalizing i values best with
  | nil => rfl
  | cons p ps ih => simp only [List.map_cons, seqFrom, inEnv, ih]

theorem inEnv_seq : inEnv x (seq ps) = seq (ps.map (inEnv x)) := by
  funext s i env
  exact (seqFrom_inEnv x ps s env i #[] none).symm

theorem altFrom_inEnv (s : Input) (i : Nat) (env : Value φ) (best : Result (Value φ)) :
    altFrom s i env (ps.map (inEnv x)) best = altFrom s i x ps best := by
  induction ps generalizing best with
  | nil => rfl
  | cons p ps ih => simp only [List.map_cons, altFrom, inEnv, ih]

theorem inEnv_alt : inEnv x (alt p ps) = alt (inEnv x p) (ps.map (inEnv x)) := by
  funext s i env
  simp only [inEnv, alt, altFrom_inEnv]

theorem inEnv_relabel (label : String) : inEnv x (relabel p label) = relabel (inEnv x p) label :=
  rfl

theorem inEnv_except (describe : Value φ → m String) :
    inEnv x (except p q describe) = except (inEnv x p) (inEnv x q) describe := rfl

theorem inEnv_lookAhead : inEnv x (lookAhead p) = lookAhead (inEnv x p) := rfl

theorem inEnv_trace (label : Value φ) (log : LogEntry φ → m PUnit) :
    inEnv x (trace p label log) = trace (inEnv x p) label log := rfl

theorem inEnv_mapEnv (f : Value φ → Value φ → m (Value φ)) :
    inEnv x (mapEnv p f) = mapEnv (inEnv x p) fun v _ => f v x := rfl

theorem inEnv_satisfy (test : Char → Value φ → m Bool) (label : String) :
    inEnv x (satisfy test label) = satisfy (fun c _ => test c x) label := rfl

theorem inEnv_chainEnv [LawfulMonad m] (f : Value φ → Value φ → m (Behaviour m φ)) :
    inEnv x (chainEnv p f) = chainEnv (inEnv x p) fun v _ => inEnv x <$> f v x := by
  funext s i env
  simp only [inEnv, chainEnv, map_eq_pure_bind, bind_assoc, pure_bind]

theorem inEnv_fromEnv [LawfulMonad m] (lookup : Value φ → m (Behaviour m φ)) :
    inEnv x (fromEnv lookup) = fromEnv fun _ => inEnv x <$> lookup x := by
  funext s i env
  simp only [inEnv, fromEnv, map_eq_pure_bind, bind_assoc, pure_bind]

theorem mandatory_inEnv (s : Input) (env : Value φ) (next : Repeat m φ) (n : Nat) :
    mandatory (inEnv x p) s env next n = mandatory p s x next n := by
  induction n with
  | zero => rfl
  | succ n ih =>
    funext i values best
    simp only [mandatory, inEnv, ih]

section

variable [MonadExceptOf (Halt φ) m]

theorem optional_inEnv (max : Limit) (s : Input) (env : Value φ) (next : Repeat m φ) (n : Nat) :
    optional (inEnv x p) max s env next n = optional p max s x next n := by
  induction n with
  | zero => rfl
  | succ n ih =>
    funext i values best
    simp only [optional, inEnv, ih]

theorem inEnv_times (min max : Limit) (budget : Nat) :
    inEnv x (times p min max budget) = times (inEnv x p) min max budget := by
  funext s i env
  show times p min max budget s i x = times (inEnv x p) min max budget s i env
  simp only [times, mandatory_inEnv, optional_inEnv]

end

end Behaviour

open Behaviour Pairing

variable {φ : Type} {F : Value φ → Value φ → Prop} {p p' : Within φ} {q q' : Throughout φ}

variable (F) in
/-- Between related environments, the one behaviour leads to the results of the other. -/
def Between (p : Within φ) (q : Throughout φ) : Prop :=
  ∀ x e, F x e → (leading φ).Like () (inEnv x p) (inEnv e q)

/-- In related environments, attempts lead to equal results. -/
theorem between_iff : Between F p q ↔
    ∀ x e, F x e → ∀ s i, Leads Eq (p s i x) (q s i e) := by
  refine ⟨fun h x e hF s i => ?_, fun h x e hF _ _ s i _ _ _ => ?_⟩
  · exact (h x e hF () (le_refl _) s i .null .null rfl).mono fun _ _ => Likeness.results_same.1
  · exact (h x e hF s i).mono fun _ _ => Likeness.results_same.2

theorem Between.leads (h : Between F p q) {x e : Value φ} (hF : F x e) (s : Input) (i : Nat) :
    Leads Eq (p s i x) (q s i e) :=
  between_iff.1 h x e hF s i

/-- A behaviour that looks at no environment. -/
theorem between_of_blind {p : Within φ} {q : Throughout φ} (hp : ∀ x, inEnv x p = p)
    (hq : ∀ e, inEnv e q = q) (h : (leading φ).Like () p q) : Between F p q := by
  intro x e _
  rwa [hp, hq]

/-! ## Sequences, alternatives and repetitions -/

theorem like_inEnv {ps : List (Within φ)} {qs : List (Throughout φ)}
    (h : List.Forall₂ (Between F) ps qs) {x e : Value φ} (hF : F x e) :
    List.Forall₂ ((leading φ).Like ()) (ps.map (inEnv x)) (qs.map (inEnv e)) := by
  rw [List.forall₂_map_left_iff, List.forall₂_map_right_iff]
  exact h.imp fun _ _ hpq => hpq x e hF

theorem between_seq {ps : List (Within φ)} {qs : List (Throughout φ)}
    (h : List.Forall₂ (Between F) ps qs) : Between F (seq ps) (seq qs) := by
  intro x e hF
  rw [inEnv_seq, inEnv_seq]
  exact like_seq (like_inEnv h hF)

theorem between_alt (hp : Between F p q) {ps : List (Within φ)} {qs : List (Throughout φ)}
    (h : List.Forall₂ (Between F) ps qs) : Between F (alt p ps) (alt q qs) := by
  intro x e hF
  rw [inEnv_alt, inEnv_alt]
  exact like_alt (hp x e hF) (like_inEnv h hF)

theorem between_times (hp : Between F p q) (min max : Limit) (budget : Nat) :
    Between F (times p min max budget) (times q min max budget) := by
  intro x e hF
  rw [inEnv_times, inEnv_times]
  exact like_times (hp x e hF) min max budget

/-! ## Labels, looking ahead and the log -/

theorem between_relabel (hp : Between F p q) (label : String) :
    Between F (relabel p label) (relabel q label) := by
  intro x e hF
  rw [inEnv_relabel, inEnv_relabel]
  exact like_relabel (hp x e hF) label

theorem between_except (hp : Between F p q) (hp' : Between F p' q')
    {describe : Value φ → Except (Halt φ) String}
    {describe' : Value φ → ReaderT Nat (Except (Halt φ)) String}
    (hd : ∀ v, Leads Eq (describe v) (describe' v)) :
    Between F (except p p' describe) (except q q' describe') := by
  intro x e hF
  rw [inEnv_except, inEnv_except]
  refine like_except (hp x e hF) (hp' x e hF) fun _ _ v v' hv => ?_
  obtain rfl : v = v' := hv
  exact hd v

theorem between_lookAhead (hp : Between F p q) : Between F (lookAhead p) (lookAhead q) := by
  intro x e hF
  rw [inEnv_lookAhead, inEnv_lookAhead]
  exact like_lookAhead (hp x e hF)

theorem between_trace (hp : Between F p q) (label : Value φ)
    {log : LogEntry φ → Except (Halt φ) PUnit}
    {log' : LogEntry φ → ReaderT Nat (Except (Halt φ)) PUnit}
    (hl : ∀ entry entry', Leads (fun _ _ => True) (log entry) (log' entry')) :
    Between F (trace p label log) (trace q label log') := by
  intro x e hF
  rw [inEnv_trace, inEnv_trace]
  exact like_trace (hp x e hF) rfl fun _ _ entry entry' _ => hl entry entry'

/-! ## What reads the environment -/

theorem between_mapEnv (hp : Between F p q) {f : Value φ → Value φ → Except (Halt φ) (Value φ)}
    {g : Value φ → Value φ → ReaderT Nat (Except (Halt φ)) (Value φ)}
    (hf : ∀ v x e, F x e → Leads Eq (f v x) (g v e)) : Between F (mapEnv p f) (mapEnv q g) := by
  intro x e hF
  rw [inEnv_mapEnv, inEnv_mapEnv]
  refine like_mapEnv (hp x e hF) fun _ _ v v' _ _ hv _ => ?_
  obtain rfl : v = v' := hv
  exact hf v x e hF

theorem between_chainEnv (hp : Between F p q)
    {f : Value φ → Value φ → Except (Halt φ) (Within φ)}
    {g : Value φ → Value φ → ReaderT Nat (Except (Halt φ)) (Throughout φ)}
    (hf : ∀ v x e, F x e → Leads (Between F) (f v x) (g v e)) :
    Between F (chainEnv p f) (chainEnv q g) := by
  intro x e hF
  rw [inEnv_chainEnv, inEnv_chainEnv]
  refine like_chainEnv (hp x e hF) fun _ _ v v' _ _ hv _ => ?_
  obtain rfl : v = v' := hv
  simp only [map_eq_pure_bind]
  exact (hf v x e hF).bind fun _ _ hnext => .pure (hnext x e hF)

theorem between_fromEnv {f : Value φ → Except (Halt φ) (Within φ)}
    {g : Value φ → ReaderT Nat (Except (Halt φ)) (Throughout φ)}
    (hf : ∀ x e, F x e → Leads (Between F) (f x) (g e)) :
    Between F (fromEnv f) (fromEnv g) := by
  intro x e hF
  rw [inEnv_fromEnv, inEnv_fromEnv]
  refine like_fromEnv fun _ _ _ _ _ => ?_
  simp only [map_eq_pure_bind]
  exact (hf x e hF).bind fun _ _ hnext => .pure (hnext x e hF)

theorem between_satisfy {test : Char → Value φ → Except (Halt φ) Bool}
    {test' : Char → Value φ → ReaderT Nat (Except (Halt φ)) Bool}
    (ht : ∀ c x e, F x e → Leads Eq (test c x) (test' c e)) (label : String) :
    Between F (satisfy test label) (satisfy test' label) := by
  intro x e hF
  rw [inEnv_satisfy, inEnv_satisfy]
  exact like_satisfy (fun _ _ c _ _ _ => ht c x e hF) label

/-! ## Derived environments -/

/-- The derived environments may be related in another way. -/
theorem between_subEnv {G : Value φ → Value φ → Prop} (hp : Between G p q)
    {derive : Value φ → Except (Halt φ) (Value φ)}
    {derive' : Value φ → ReaderT Nat (Except (Halt φ)) (Value φ)}
    (hd : ∀ x e, F x e → Leads G (derive x) (derive' e)) :
    Between F (subEnv p derive) (subEnv q derive') :=
  between_iff.2 fun x e hF s i => (hd x e hF).bind fun _ _ hG => hp.leads hG s i

/-- An environment may be derived on the right side only. -/
theorem between_subEnv_right {G : Value φ → Value φ → Prop} (hp : Between G p q)
    {derive' : Value φ → ReaderT Nat (Except (Halt φ)) (Value φ)}
    (hd : ∀ x e, F x e → Leads G (pure x) (derive' e)) : Between F p (subEnv q derive') :=
  between_iff.2 fun x e hF s i => by
    rw [← pure_bind x (p s i)]
    exact (hd x e hF).bind fun _ _ hG => hp.leads hG s i

/-- An environment may be derived on the left side only. -/
theorem between_subEnv_left {G : Value φ → Value φ → Prop} (hp : Between G p q)
    {derive : Value φ → Except (Halt φ) (Value φ)}
    (hd : ∀ x e, F x e → Leads G (derive x) (pure e)) : Between F (subEnv p derive) q :=
  between_iff.2 fun x e hF s i => by
    rw [← pure_bind e (q s i)]
    exact (hd x e hF).bind fun _ _ hG => hp.leads hG s i

end Furthest
