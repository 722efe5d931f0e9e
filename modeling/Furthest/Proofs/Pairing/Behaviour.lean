import Furthest.Proofs.Pairing.Basic

/-!
# Pairs of behaviours

Two behaviours are alike under a pairing if, in related environments, attempts at the same offset
come to related results.  Every combinator takes alike parts to alike wholes.  The loops are
followed by what they carry: related values so far and related best results.
-/

namespace Furthest.Pairing

variable {φ S : Type} [Preorder S] {L : Likeness S φ} {m₁ m₂ : Type → Type} [Monad m₁]
  [MonadExceptOf (Halt φ) m₁] [Monad m₂] [MonadExceptOf (Halt φ) m₂] (P : Pairing L m₁ m₂)

/-- From a stage on, attempts in related environments come to related results. -/
def Like (s : S) (p : Behaviour m₁ φ) (q : Behaviour m₂ φ) : Prop :=
  ∀ s', s ≤ s' → ∀ (text : Input) (i : Nat) (env env' : Value φ), L.values s' env env' →
    P.Holds s' L.results (p text i env) (q text i env')

/-- Two loops go on alike from related values and related best results. -/
def GoesOn (s : S) (next : Behaviour.Repeat m₁ φ) (next' : Behaviour.Repeat m₂ φ) : Prop :=
  ∀ s', s ≤ s' → ∀ (i : Nat) (values values' : Array (Value φ))
      (best best' : Option (Result (Value φ))),
    List.Forall₂ (L.values s') values.toList values'.toList →
    Option.Rel (L.results s') best best' →
    P.Holds s' L.results (next i values best) (next' i values' best')

variable {P}

theorem Like.mono {s s' : S} {p : Behaviour m₁ φ} {q : Behaviour m₂ φ} (h : P.Like s p q)
    (hs : s ≤ s') : P.Like s' p q :=
  fun s'' hs' => h s'' (hs.trans hs')

/-- Two computations branch in the same way. -/
theorem holds_ite {α β : Type} {s : S} {Q : S → α → β → Prop} {b b' : Bool} (hb : b = b')
    {x₁ x₂ : m₁ α} {y₁ y₂ : m₂ β} (h₁ : b = true → P.Holds s Q x₁ y₁)
    (h₂ : b = false → P.Holds s Q x₂ y₂) :
    P.Holds s Q (if b then x₁ else x₂) (if b' then y₁ else y₂) := by
  subst hb
  cases b with
  | true => exact h₁ rfl
  | false => exact h₂ rfl

theorem like_leaf {s : S} {f f' : Input → Nat → Result (Value φ)}
    (h : ∀ s', s ≤ s' → ∀ text i, L.results s' (f text i) (f' text i)) :
    P.Like s (Behaviour.leaf f) (Behaviour.leaf f') :=
  fun s' hs text i _ _ _ => P.pure (h s' hs text i)

/-! ## Sequences and alternatives -/

section

variable {s : S} {p : Behaviour m₁ φ} {q : Behaviour m₂ φ} {ps : List (Behaviour m₁ φ)}
  {qs : List (Behaviour m₂ φ)}

/-- Lists of related values grow by related values. -/
theorem forall₂_push {vs vs' : Array (Value φ)} {v v' : Value φ}
    (h : List.Forall₂ (L.values s) vs.toList vs'.toList) (hv : L.values s v v') :
    List.Forall₂ (L.values s) (vs.push v).toList (vs'.push v').toList := by
  rw [Array.toList_push, Array.toList_push]
  exact List.rel_append h (.cons hv .nil)

theorem forall₂_mono {s' : S} (hs : s ≤ s') {vs vs' : List (Value φ)}
    (h : List.Forall₂ (L.values s) vs vs') : List.Forall₂ (L.values s') vs vs' :=
  h.imp fun _ _ => L.values_mono hs

theorem results_mono {s' : S} (hs : s ≤ s') {r r' : Result (Value φ)} (h : L.results s r r') :
    L.results s' r r' :=
  h.mono fun _ _ => L.values_mono hs

theorem best_mono {s' : S} (hs : s ≤ s') {b b' : Option (Result (Value φ))}
    (h : Option.Rel (L.results s) b b') : Option.Rel (L.results s') b b' := by
  cases h with
  | none => exact .none
  | some h => exact .some (results_mono hs h)

theorem results_finish {i : Nat} {values values' : Array (Value φ)}
    {best best' : Option (Result (Value φ))}
    (hv : List.Forall₂ (L.values s) values.toList values'.toList)
    (hb : Option.Rel (L.results s) best best') :
    L.results s ((Result.success i (.list values.toList)).mergeWith best)
      ((Result.success i (.list values'.toList)).mergeWith best') :=
  (Result.Like.success i (L.list hv)).mergeWith hb

theorem goesOn_finish : P.GoesOn s Behaviour.finish Behaviour.finish :=
  fun _ _ _ _ _ _ _ hv hb => P.pure (results_finish hv hb)

theorem goesOn_seqFrom (text : Input) {env env' : Value φ} (henv : L.values s env env')
    (h : List.Forall₂ (P.Like s) ps qs) :
    P.GoesOn s (Behaviour.seqFrom text env ps) (Behaviour.seqFrom text env' qs) := by
  induction h with
  | nil => exact goesOn_finish
  | cons hp _ ih =>
    intro s₁ hs₁ i values values' best best' hv hb
    refine P.bind (hp s₁ hs₁ text i _ _ (L.values_mono hs₁ henv)) fun s₂ r r' hs₂ hr => ?_
    have hm := hr.mergeWith (best_mono hs₂ hb)
    refine holds_ite hm.status_eq (fun _ => ?_) fun _ => P.pure hm
    have hvs := forall₂_push (forall₂_mono hs₂ hv) hm.value_like
    rw [hm.index_eq]
    exact ih s₂ (hs₁.trans hs₂) _ _ _ _ _ hvs (.some hm)

theorem like_seq (h : List.Forall₂ (P.Like s) ps qs) :
    P.Like s (Behaviour.seq ps) (Behaviour.seq qs) := by
  intro s' hs text i env env' henv
  have hps := h.imp fun _ _ hp => Like.mono hp hs
  exact goesOn_seqFrom text henv hps s' (le_refl s') i #[] #[] none none .nil .none

theorem holds_altFrom (text : Input) (i : Nat) {env env' : Value φ}
    (henv : L.values s env env') (h : List.Forall₂ (P.Like s) ps qs)
    {best best' : Result (Value φ)} {s' : S} (hs : s ≤ s') (hb : L.results s' best best') :
    P.Holds s' L.results (Behaviour.altFrom text i env ps best)
      (Behaviour.altFrom text i env' qs best') := by
  induction h generalizing best best' s' with
  | nil => exact P.pure hb
  | cons hp _ ih =>
    refine P.bind (hp s' hs text i _ _ (L.values_mono hs henv)) fun s₂ r r' hs₂ hr => ?_
    have hm := hr.merge (results_mono hs₂ hb)
    exact holds_ite hm.status_eq (fun _ => P.pure hm) fun _ => ih (hs.trans hs₂) hm

theorem like_alt (hp : P.Like s p q) (h : List.Forall₂ (P.Like s) ps qs) :
    P.Like s (Behaviour.alt p ps) (Behaviour.alt q qs) := by
  intro s₁ hs₁ text i env env' henv
  refine P.bind (hp s₁ hs₁ text i env env' henv) fun s₂ r r' hs₂ hr => ?_
  refine holds_ite hr.status_eq (fun _ => P.pure hr) fun _ => ?_
  have hps := h.imp fun _ _ hp => Like.mono hp hs₁
  exact holds_altFrom text i henv hps hs₂ hr

/-! ## Repetition -/

theorem goesOn_mandatory_succ (text : Input) {env env' : Value φ} (henv : L.values s env env')
    (hp : P.Like s p q) {next : Behaviour.Repeat m₁ φ} {next' : Behaviour.Repeat m₂ φ} {n n' : Nat}
    (h : P.GoesOn s (Behaviour.mandatory p text env next n)
      (Behaviour.mandatory q text env' next' n')) :
    P.GoesOn s (Behaviour.mandatory p text env next (n + 1))
      (Behaviour.mandatory q text env' next' (n' + 1)) := by
  intro s₁ hs₁ i values values' best best' hv hb
  refine P.bind (hp s₁ hs₁ text i _ _ (L.values_mono hs₁ henv)) fun s₂ r r' hs₂ hr => ?_
  have hm := hr.mergeWith (best_mono hs₂ hb)
  refine holds_ite hm.status_eq (fun _ => ?_) fun _ => P.pure hm
  have hvs := forall₂_push (forall₂_mono hs₂ hv) hm.value_like
  rw [hm.index_eq]
  exact h s₂ (hs₁.trans hs₂) _ _ _ _ _ hvs (.some hm)

theorem goesOn_mandatory (text : Input) {env env' : Value φ} (henv : L.values s env env')
    (hp : P.Like s p q) {next : Behaviour.Repeat m₁ φ} {next' : Behaviour.Repeat m₂ φ}
    (hn : P.GoesOn s next next') (n : Nat) :
    P.GoesOn s (Behaviour.mandatory p text env next n)
      (Behaviour.mandatory q text env' next' n) := by
  induction n with
  | zero => exact hn
  | succ n ih => exact goesOn_mandatory_succ text henv hp ih

theorem goesOn_spent :
    P.GoesOn s (Behaviour.spent (m := m₁) (φ := φ)) (Behaviour.spent (m := m₂)) :=
  fun _ _ _ _ _ _ _ _ _ => P.throw .exhausted

theorem goesOn_optional_succ (max : Limit) (text : Input) {env env' : Value φ}
    (henv : L.values s env env') (hp : P.Like s p q) {next : Behaviour.Repeat m₁ φ}
    {next' : Behaviour.Repeat m₂ φ} {n n' : Nat}
    (h : P.GoesOn s (Behaviour.optional p max text env next n)
      (Behaviour.optional q max text env' next' n')) :
    P.GoesOn s (Behaviour.optional p max text env next (n + 1))
      (Behaviour.optional q max text env' next' (n' + 1)) := by
  intro s₁ hs₁ i values values' best best' hv hb
  refine P.bind (hp s₁ hs₁ text i _ _ (L.values_mono hs₁ henv)) fun s₂ r r' hs₂ hr => ?_
  have hm := hr.mergeWith (best_mono hs₂ hb)
  have hv₂ := forall₂_mono hs₂ hv
  have hvs := forall₂_push hv₂ hm.value_like
  have hgo := h s₂ (hs₁.trans hs₂) (r'.mergeWith best').index _ _ _ _ hvs (.some hm)
  have hend : ∀ vs vs' : Array (Value φ), List.Forall₂ (L.values s₂) vs.toList vs'.toList → _ :=
    fun vs vs' hvs => goesOn_finish (P := P) s₂ (le_refl s₂) i vs vs' _ _ hvs (.some hm)
  refine holds_ite hm.status_eq (fun _ => ?_) fun _ => hend _ _ hv₂
  rw [hm.index_eq]
  split
  · cases max with
    | infinite => exact hend _ _ hvs
    | finite bound =>
      dsimp only
      split
      · exact hgo
      · exact P.throw (.fault .boundTooLarge)
  · exact hgo

theorem goesOn_optional (max : Limit) (text : Input) {env env' : Value φ}
    (henv : L.values s env env') (hp : P.Like s p q) {next : Behaviour.Repeat m₁ φ}
    {next' : Behaviour.Repeat m₂ φ} (hn : P.GoesOn s next next') (n : Nat) :
    P.GoesOn s (Behaviour.optional p max text env next n)
      (Behaviour.optional q max text env' next' n) := by
  induction n with
  | zero => exact hn
  | succ n ih => exact goesOn_optional_succ max text henv hp ih

theorem holds_start {next : Behaviour.Repeat m₁ φ} {next' : Behaviour.Repeat m₂ φ}
    (h : P.GoesOn s next next') (i : Nat) :
    P.Holds s L.results (next i #[] none) (next' i #[] none) :=
  h s (le_refl s) i #[] #[] none none .nil .none

theorem like_times (hp : P.Like s p q) (min max : Limit) (budget : Nat) :
    P.Like s (Behaviour.times p min max budget) (Behaviour.times q min max budget) := by
  intro s' hs text i env env' henv
  have hp' := hp.mono hs
  cases min with
  | infinite => exact holds_start (goesOn_mandatory text henv hp' goesOn_spent budget) i
  | finite least =>
    cases max with
    | infinite =>
      have h := goesOn_optional .infinite text henv hp' goesOn_spent budget
      exact holds_start (goesOn_mandatory text henv hp' h least) i
    | finite most =>
      have h := goesOn_optional (.finite most) text henv hp' goesOn_finish (most - least)
      exact holds_start (goesOn_mandatory text henv hp' h least) i

theorem like_times_of_eq {budget budget' : Nat} (hb : budget = budget') {s' : S} (_ : s ≤ s')
    (hp : P.Like s' p q) (min max : Limit) :
    P.Like s' (Behaviour.times p min max budget) (Behaviour.times q min max budget') := by
  subst hb
  exact like_times hp min max budget

/-! ## Values and continuations -/

theorem like_mapEnv (hp : P.Like s p q) {f : Value φ → Value φ → m₁ (Value φ)}
    {g : Value φ → Value φ → m₂ (Value φ)}
    (hf : ∀ s', s ≤ s' → ∀ v v' env env', L.values s' v v' → L.values s' env env' →
      P.Holds s' L.values (f v env) (g v' env')) :
    P.Like s (Behaviour.mapEnv p f) (Behaviour.mapEnv q g) := by
  intro s₁ hs₁ text i env env' henv
  refine P.bind (hp s₁ hs₁ text i env env' henv) fun s₂ r r' hs₂ hr => ?_
  refine holds_ite hr.status_eq (fun _ => ?_) fun _ => P.pure hr
  have hfs := hf s₂ (hs₁.trans hs₂) _ _ _ _ hr.value_like (L.values_mono hs₂ henv)
  refine P.bind hfs fun s₃ v v' hs₃ hv => P.pure ?_
  rw [hr.index_eq]
  exact (Result.Like.success _ hv).merge (results_mono hs₃ hr)

theorem like_chainEnv (hp : P.Like s p q) {f : Value φ → Value φ → m₁ (Behaviour m₁ φ)}
    {g : Value φ → Value φ → m₂ (Behaviour m₂ φ)}
    (hf : ∀ s', s ≤ s' → ∀ v v' env env', L.values s' v v' → L.values s' env env' →
      P.Holds s' P.Like (f v env) (g v' env')) :
    P.Like s (Behaviour.chainEnv p f) (Behaviour.chainEnv q g) := by
  intro s₁ hs₁ text i env env' henv
  refine P.bind (hp s₁ hs₁ text i env env' henv) fun s₂ r r' hs₂ hr => ?_
  refine holds_ite hr.status_eq (fun _ => ?_) fun _ => P.pure hr
  have hfs := hf s₂ (hs₁.trans hs₂) _ _ _ _ hr.value_like (L.values_mono hs₂ henv)
  refine P.bind hfs fun s₃ next next' hs₃ hnext => ?_
  have henv₃ := L.values_mono (hs₂.trans hs₃) henv
  rw [hr.index_eq]
  refine P.bind (hnext s₃ (le_refl s₃) text _ _ _ henv₃) fun s₄ r₂ r₂' hs₄ hr₂ => P.pure ?_
  exact hr₂.merge (results_mono (hs₃.trans hs₄) hr)

theorem like_relabel (hp : P.Like s p q) (label : String) :
    P.Like s (Behaviour.relabel p label) (Behaviour.relabel q label) := by
  intro s₁ hs₁ text i env env' henv
  refine P.bind (hp s₁ hs₁ text i env env' henv) fun s₂ r r' hs₂ hr => ?_
  refine holds_ite hr.status_eq (fun _ => P.pure hr) fun _ => P.pure ?_
  exact ⟨by rw [hr.toReport_eq], rfl, hr.index_eq, L.null s₂⟩

/-! ## Looking ahead -/

theorem like_except {allowed forbidden : Behaviour m₁ φ} {allowed' forbidden' : Behaviour m₂ φ}
    (ha : P.Like s allowed allowed') (hf : P.Like s forbidden forbidden')
    {describe : Value φ → m₁ String} {describe' : Value φ → m₂ String}
    (hd : ∀ s', s ≤ s' → ∀ v v', L.values s' v v' →
      P.Holds s' (fun _ => Eq) (describe v) (describe' v')) :
    P.Like s (Behaviour.except allowed forbidden describe)
      (Behaviour.except allowed' forbidden' describe') := by
  intro s₁ hs₁ text i env env' henv
  refine P.bind (hf s₁ hs₁ text i env env' henv) fun s₂ u u' hs₂ hu => ?_
  refine holds_ite hu.status_eq (fun _ => ?_) fun _ => ?_
  · refine P.bind (hd s₂ (hs₁.trans hs₂) _ _ hu.value_like) ?_
    rintro s₃ words _ hs₃ rfl
    exact P.pure (.failure i _ (L.null s₃))
  · have henv₂ := L.values_mono hs₂ henv
    refine P.bind (ha s₂ (hs₁.trans hs₂) text i _ _ henv₂) fun s₃ r r' hs₃ hr => ?_
    refine holds_ite hr.status_eq (fun _ => P.pure hr) fun _ => P.pure ?_
    rw [hr.toReport_eq, hu.toReport_eq]
    exact .failure i _ (L.null s₃)

theorem like_lookAhead (hp : P.Like s p q) :
    P.Like s (Behaviour.lookAhead p) (Behaviour.lookAhead q) := by
  intro s₁ hs₁ text i env env' henv
  refine P.bind (hp s₁ hs₁ text i env env' henv) fun s₂ r r' hs₂ hr => ?_
  refine holds_ite hr.status_eq (fun _ => P.pure ?_) fun _ => P.pure hr
  exact ⟨hr.toReport_eq, hr.status_eq, rfl, hr.value_like⟩

/-! ## Environments and the log -/

theorem like_subEnv (hp : P.Like s p q) {derive : Value φ → m₁ (Value φ)}
    {derive' : Value φ → m₂ (Value φ)}
    (hd : ∀ s', s ≤ s' → ∀ env env', L.values s' env env' →
      P.Holds s' L.values (derive env) (derive' env')) :
    P.Like s (Behaviour.subEnv p derive) (Behaviour.subEnv q derive') := by
  intro s₁ hs₁ text i env env' henv
  exact P.bind (hd s₁ hs₁ env env' henv) fun s₂ e e' hs₂ he =>
    hp s₂ (hs₁.trans hs₂) text i e e' he

theorem like_fromEnv {lookup : Value φ → m₁ (Behaviour m₁ φ)}
    {lookup' : Value φ → m₂ (Behaviour m₂ φ)}
    (hl : ∀ s', s ≤ s' → ∀ env env', L.values s' env env' →
      P.Holds s' P.Like (lookup env) (lookup' env')) :
    P.Like s (Behaviour.fromEnv lookup) (Behaviour.fromEnv lookup') := by
  intro s₁ hs₁ text i env env' henv
  exact P.bind (hl s₁ hs₁ env env' henv) fun s₂ p q hs₂ hpq =>
    hpq s₂ (le_refl s₂) text i env env' (L.values_mono hs₂ henv)

theorem like_trace (hp : P.Like s p q) {label label' : Value φ} (hlabel : L.values s label label')
    {log : LogEntry φ → m₁ PUnit} {log' : LogEntry φ → m₂ PUnit}
    (hl : ∀ s', s ≤ s' → ∀ entry entry', LogEntry.Like (L.values s') entry entry' →
      P.Holds s' (fun _ _ _ => True) (log entry) (log' entry')) :
    P.Like s (Behaviour.trace p label log) (Behaviour.trace q label' log') := by
  intro s₁ hs₁ text i env env' henv
  have hlabel₁ := L.values_mono hs₁ hlabel
  refine P.bind (hl s₁ hs₁ _ _ (.trying i _ hlabel₁)) fun s₂ _ _ hs₂ _ => ?_
  have henv₂ := L.values_mono hs₂ henv
  have hs := hs₁.trans hs₂
  refine P.bind (hp s₂ hs text i _ _ henv₂) fun s₃ r r' hs₃ hr => ?_
  have hlabel₃ := L.values_mono (hs.trans hs₃) hlabel
  have last : ∀ entry entry', LogEntry.Like (L.values s₃) entry entry' →
      P.Holds s₃ L.results (log entry >>= fun _ => pure r)
        (log' entry' >>= fun _ => pure r') :=
    fun entry entry' he => P.bind (hl s₃ (hs.trans hs₃) _ _ he) fun s₄ _ _ hs₄ _ =>
      P.pure (results_mono hs₄ hr)
  refine holds_ite hr.status_eq (fun _ => ?_) fun _ => ?_
  · rw [hr.index_eq]
    exact last _ _ (.matched i _ hlabel₃ hr.value_like)
  · rw [hr.toReport_eq]
    exact last _ _ (.failed _ hlabel₃)

/-! ## Characters and patterns -/

theorem like_satisfy {test : Char → Value φ → m₁ Bool} {test' : Char → Value φ → m₂ Bool}
    (ht : ∀ s', s ≤ s' → ∀ c env env', L.values s' env env' →
      P.Holds s' (fun _ => Eq) (test c env) (test' c env')) (label : String) :
    P.Like s (Behaviour.satisfy test label) (Behaviour.satisfy test' label) := by
  intro s₁ hs₁ text i env env' henv
  unfold Behaviour.satisfy
  split
  · refine P.bind (ht s₁ hs₁ _ env env' henv) ?_
    rintro s₂ b _ hs₂ rfl
    refine holds_ite rfl (fun _ => P.pure ?_) fun _ => P.pure ?_
    · exact .success _ (L.text s₂ _)
    · exact .failure i label (L.null s₂)
  · exact P.pure (.failure i label (L.null s₁))

theorem holds_runOf {test : Char → m₁ Bool} {test' : Char → m₂ Bool}
    (ht : ∀ s', s ≤ s' → ∀ c, P.Holds s' (fun _ => Eq) (test c) (test' c)) (cs : List Char)
    {s' : S} (hs : s ≤ s') :
    P.Holds s' (fun _ => Eq) (Behaviour.runOf test cs) (Behaviour.runOf test' cs) := by
  induction cs generalizing s' with
  | nil => exact P.pure rfl
  | cons c cs ih =>
    refine P.bind (ht s' hs c) ?_
    rintro s₂ b _ hs₂ rfl
    refine holds_ite rfl (fun _ => ?_) fun _ => P.pure rfl
    refine P.bind (ih (hs.trans hs₂)) ?_
    rintro s₃ run _ hs₃ rfl
    exact P.pure rfl

theorem like_takeWhile {test : Char → m₁ Bool} {test' : Char → m₂ Bool}
    (ht : ∀ s', s ≤ s' → ∀ c, P.Holds s' (fun _ => Eq) (test c) (test' c)) :
    P.Like s (Behaviour.takeWhile test) (Behaviour.takeWhile test') := by
  intro s₁ hs₁ text i env env' henv
  refine P.bind (holds_runOf ht (text.drop i) hs₁) ?_
  rintro s₂ run _ hs₂ rfl
  exact P.pure (.success _ (L.text s₂ _))

theorem like_regex (pattern : Pattern) (group : GroupName) (label : String) :
    P.Like s (Behaviour.regex pattern group label) (Behaviour.regex pattern group label) := by
  intro s₁ hs₁ text i env env' henv
  unfold Behaviour.regex
  split
  · exact P.pure (.failure i label (L.null s₁))
  · rename_i found _
    split
    · exact P.throw (.fault .noSuchGroup)
    · rename_i number _
      refine P.pure (.success _ ?_)
      cases found.group? number with
      | none => exact L.null s₁
      | some t => exact L.text s₁ t

end

end Furthest.Pairing
