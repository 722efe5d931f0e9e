import Furthest.Proofs.OrderedChoice.Sound
import Furthest.Proofs.Repetition.Recursive
import Furthest.Proofs.WellFormed.Result

/-!
# Repetitions

`Behaviour.times_recursive` says what a repetition is, on whole results and in every state, for any
behaviour whose results are in range.  With one bound it is a sequence of copies.  With two it is
its mandatory part with the recursive form of the rest (`upTo`, `asLong`) after it, their lists put
together.  A success lists the values of consecutive matches in order, within the bounds, and
joins the reports of all of them; unless the upper bound ended it, or a match that consumed nothing
where there is no bound, it joins the report of the attempt that failed where it stopped
(`Repeated`).
-/

namespace Furthest

/-- So many more matches. -/
def Limit.plus (n : Nat) : Limit → Limit
  | .finite most => .finite (most + n)
  | .infinite => .infinite

namespace Behaviour

variable {σ φ : Type} {p q : Behaviour (EStateM (Halt φ) σ) φ} {s : Input} {env : Value φ}
  {i : Nat} {w : σ}

/-! ## The mandatory matches -/

/-- Two behaviours one after another, their lists put together. -/
def appended (p q : Behaviour (EStateM (Halt φ) σ) φ) : Behaviour (EStateM (Halt φ) σ) φ :=
  mapValue (seq [p, q]) Value.appended

/-- What is left to do after the mandatory matches can be done after them. -/
theorem mandatory_unrolls (hp : InRange p) (hq : Lists q)
    {next : Repeat (EStateM (Halt φ) σ) φ} (hnext : Unrolls s env next q) (n : Nat)
    (values : Array (Value φ)) {best : Option (Result (Value φ))}
    (hb : ∀ b ∈ best, -1 ≤ b.furthest) (hi : i ≤ s.length) :
    mandatory p s env next n i values best w =
      (mandatory p s env finish n i values best >>= fun r =>
        if r.status then r.append <$> q s r.index env else pure r) w := by
  induction n generalizing i values best w with
  | zero =>
    simp only [mandatory, finish, pure_bind, Result.status_mergeWith, Result.index_mergeWith,
      Result.success, if_true]
    rw [hnext i values best w hi, map_eq_pure_bind, map_eq_pure_bind]
    refine bind_congr_returns (hq s i env w hi) fun r w' hr => ?_
    rw [Result.onto_eq_append hr.le_furthest hb]
    rfl
  | succ n ih =>
    simp only [mandatory, bind_assoc]
    refine bind_congr_returns (hp s i env w hi) fun r w' hr => ?_
    have hm := hr.mergeWith (Nat.le_refl i) hb
    by_cases hs : r.status = true
    · simp only [Result.status_mergeWith, hs, if_true]
      refine ih _ (fun b hb' => ?_) (hm.index_mem (by simpa using hs)).2
      rw [← Option.some.inj hb']
      exact hm.le_furthest
    · simp [hs]

/-- The mandatory matches come to a failure or to a list of values. -/
theorem returns_mandatory (hp : InRange p) (n : Nat) {j : Nat} (values : Array (Value φ))
    {best : Option (Result (Value φ))} (hb : ∀ b ∈ best, -1 ≤ b.furthest) (hij : i ≤ j)
    (hj : j ≤ s.length) :
    Returns (mandatory p s env finish n j values best) w fun r _ =>
      r.InRange i s.length ∧ (r.status = true → r.value = .list r.value.items) := by
  induction n generalizing j values best w with
  | zero =>
    have hr : (Result.success j (.list values.toList) : Result (Value φ)).InRange j s.length :=
      (Result.lists_success _ (Nat.le_refl j) hj).toInRange
    exact returns_pure ⟨hr.mergeWith hij hb, fun _ => by simp [Result.success]⟩
  | succ n ih =>
    refine (hp s j env w hj).bind fun r w' hr => ?_
    have hm := hr.mergeWith (Nat.le_refl j) hb
    dsimp only
    split
    · next hs =>
      have hx := hm.index_mem hs
      refine ih _ (fun b hb' => ?_) (Nat.le_trans hij hx.1) hx.2
      rw [← Option.some.inj hb']
      exact hm.le_furthest
    · next hs => exact returns_pure ⟨hr.mergeWith hij hb, fun h => absurd h hs⟩

/-- With one bound, a repetition is a sequence of copies. -/
theorem times_self (p : Behaviour (EStateM (Halt φ) σ) φ) (n budget : Nat) :
    times p (.finite n) (.finite n) budget = seq (List.replicate n p) := by
  funext s i env
  simp only [times, Nat.sub_self]
  exact mandatory_finish p s env n i #[] none

/-- In grammars too, a repetition with one bound is a sequence of copies. -/
theorem denote_times_self (host : Host (EStateM (Halt φ) σ) φ) (g : Grammar φ) (n : Nat) :
    (Grammar.times g (.finite n) (.finite n)).denote host =
      (Grammar.seq (List.replicate n g)).denote host := by
  rw [Grammar.denote_times, times_self, Grammar.denote_seq, List.map_replicate]

theorem returns_times_self (hp : InRange p) (n budget : Nat) (hi : i ≤ s.length) :
    Returns (times p (.finite n) (.finite n) budget s i env) w fun r _ =>
      r.InRange i s.length ∧ (r.status = true → r.value = .list r.value.items) := by
  rw [times_self, seq, ← mandatory_finish]
  exact returns_mandatory hp n #[] (by simp) (Nat.le_refl i) hi

/-- A repetition is its mandatory part and then the rest. -/
theorem mandatory_eq_appended (hp : InRange p) (hq : Lists q)
    {next : Repeat (EStateM (Halt φ) σ) φ} (hnext : Unrolls s env next q) (n budget : Nat)
    (hi : i ≤ s.length) :
    mandatory p s env next n i #[] none w =
      appended (times p (.finite n) (.finite n) budget) q s i env w := by
  have hr : InRange (times p (.finite n) (.finite n) budget) := fun _ _ _ _ hi =>
    (returns_times_self hp n budget hi).mono fun _ _ h => h.1
  rw [appended, mapValue_seq_apply hr hq _ hi, mandatory_unrolls hp hq hnext n #[] (by simp) hi,
    mandatory_finish, times_self, seq]
  have hl : Returns (times p (.finite n) (.finite n) budget s i env) w _ :=
    returns_times_self hp n budget hi
  rw [times_self, seq] at hl
  refine bind_congr_returns hl fun r w' h => ?_
  obtain ⟨hr, hlist⟩ := h
  by_cases hs : r.status = true
  · simp only [hs, if_true, map_eq_pure_bind]
    refine bind_congr_returns (hq s r.index env w' (hr.index_mem hs).2) fun later w'' hlater => ?_
    rw [hlater.value_eq, hlist hs]
    simp [Result.append]
  · simp [hs]

theorem times_finite (hp : InRange p) {least most : Nat} (hmost : most < boundCeiling)
    (budget : Nat) (hi : i ≤ s.length) :
    times p (.finite least) (.finite most) budget s i env w =
      appended (times p (.finite least) (.finite least) budget) (upTo p (most - least)) s i env w :=
  mandatory_eq_appended hp (lists_upTo hp _) (optional_eq_upTo hp hmost _) least budget hi

theorem times_infinite (hp : InRange p) (least budget : Nat) (hi : i ≤ s.length) :
    times p (.finite least) .infinite budget s i env w =
      appended (times p (.finite least) (.finite least) budget) (asLong p budget) s i env w :=
  mandatory_eq_appended hp (lists_asLong hp _) (optional_eq_asLong hp _) least budget hi

/-! ## What was matched -/

/-- `p` matches one time after another, from an offset in a state: the results, and where that
leads. -/
inductive Run (p : Behaviour (EStateM (Halt φ) σ) φ) (s : Input) (env : Value φ) :
    Nat → σ → List (Result (Value φ)) → Nat → σ → Prop where
  | nil (i : Nat) (w : σ) : Run p s env i w [] i w
  | cons {i j : Nat} {w w₁ w₂ : σ} {r : Result (Value φ)} {rs : List (Result (Value φ))} :
    p s i env w = .ok r w₁ → r.status = true → Run p s env r.index w₁ rs j w₂ →
    Run p s env i w (r :: rs) j w₂

/-- The reports of several results as one, the latest first. -/
def latest : List (Result (Value φ)) → Report
  | [] => .silent
  | r :: rs => (latest rs).join r.toReport

/-- The repetition ended at offset `j` because no more matches were allowed: as many as the upper
bound says were made or, where there is none, the last one consumed nothing. -/
def Reached (p : Behaviour (EStateM (Halt φ) σ) φ) (s : Input) (env : Value φ) (max : Limit)
    (rs : List (Result (Value φ))) (j : Nat) (w : σ) : Prop :=
  match max with
  | .finite most => rs.length = most
  | .infinite => ∃ r ∈ rs.getLast?, ∃ w₀, p s j env w₀ = .ok r w ∧ r.index = j

/-- The repetition ended because the next attempt failed, at the offset `j` where it began. -/
def Rejected (p : Behaviour (EStateM (Halt φ) σ) φ) (s : Input) (env : Value φ)
    (rs : List (Result (Value φ))) (j : Nat) (w : σ) (report : Report) (w' : σ) : Prop :=
  ∃ r, p s j env w = .ok r w' ∧ r.status = false ∧ report = r.toReport.join (latest rs)

/-- The success `r` of a repetition: at least `least` and at most `max` matches of `p` in a row lead
to where it ends, its values are theirs, and its report is theirs, after that of the attempt that
failed unless no more matches were allowed. -/
def Repeated (p : Behaviour (EStateM (Halt φ) σ) φ) (s : Input) (env : Value φ) (least : Nat)
    (max : Limit) (i : Nat) (w : σ) (r : Result (Value φ)) (w' : σ) : Prop :=
  ∃ rs w₁, Run p s env i w rs r.index w₁ ∧
    r.value = .list (rs.map (·.value)) ∧ least ≤ rs.length ∧
    (∀ most, max = .finite most → rs.length ≤ most) ∧
    (Reached p s env max rs r.index w₁ ∧ r.toReport = latest rs ∧ w' = w₁ ∨
      Rejected p s env rs r.index w₁ r.toReport w')

section

variable {j k least : Nat} {max : Limit} {w' w₁ w₂ : σ} {rs rs' : List (Result (Value φ))}
  {r later : Result (Value φ)}

theorem Run.append (h : Run p s env i w rs j w₁) (h' : Run p s env j w₁ rs' k w₂) :
    Run p s env i w (rs ++ rs') k w₂ := by
  induction h with
  | nil => exact h'
  | cons hr hs _ ih => exact .cons hr hs (ih h')

theorem neg_one_le_latest (rs : List (Result (Value φ))) : -1 ≤ (latest rs).furthest := by
  induction rs with
  | nil => exact Int.le_refl _
  | cons r rs ih =>
    rw [latest, Report.furthest_join]
    omega

theorem latest_append (rs rs' : List (Result (Value φ))) :
    latest (rs ++ rs') = (latest rs').join (latest rs) := by
  induction rs with
  | nil => exact (Report.join_silent (neg_one_le_latest rs')).symm
  | cons r rs ih => rw [List.cons_append, latest, latest, ih, Report.join_assoc]

theorem Reached.append (h : Reached p s env max rs' j w) (rs : List (Result (Value φ))) :
    Reached p s env (max.plus rs.length) (rs ++ rs') j w := by
  cases max with
  | finite most => simpa [Reached, Limit.plus, Nat.add_comm] using h
  | infinite =>
    obtain ⟨r, hr, w₀, hlast, hindex⟩ := h
    refine ⟨r, ?_, w₀, hlast, hindex⟩
    rw [Option.mem_def] at hr ⊢
    rw [List.getLast?_append, hr, Option.some_or]

/-- A repetition after some matches. -/
theorem Repeated.append (h : Repeated p s env least max j w₁ later w')
    (hrun : Run p s env i w rs j w₁) (hr : r.value = .list (rs.map (·.value)))
    (hreport : r.toReport = latest rs) :
    Repeated p s env (rs.length + least) (max.plus rs.length) i w (r.append later) w' := by
  obtain ⟨rs', w₂, hrun', hv, hleast, hmost, hend⟩ := h
  refine ⟨rs ++ rs', w₂, hrun.append hrun', ?_, ?_, ?_, ?_⟩
  · simp [Result.append, hr, hv]
  · rw [List.length_append]
    omega
  · rintro most hm
    cases max with
    | infinite => cases hm
    | finite most' =>
      cases hm
      have := hmost most' rfl
      rw [List.length_append]
      omega
  · rcases hend with ⟨hreach, hrep, hw⟩ | ⟨f, hf, hs, hrep⟩
    · refine Or.inl ⟨hreach.append rs, ?_, hw⟩
      rw [latest_append, ← hrep, ← hreport]
      rfl
    · refine Or.inr ⟨f, hf, hs, ?_⟩
      rw [latest_append, ← Report.join_assoc, ← hrep, ← hreport]
      rfl

theorem Repeated.weaken (h : Repeated p s env least max i w r w') {least' : Nat}
    (hle : least' ≤ least) : Repeated p s env least' max i w r w' := by
  obtain ⟨rs, w₁, hrun, hv, hleast, hrest⟩ := h
  exact ⟨rs, w₁, hrun, hv, Nat.le_trans hle hleast, hrest⟩

theorem repeated_nothing (i : Nat) (w : σ) :
    Repeated p s env 0 (.finite 0) i w (.success i (.list [])) w :=
  ⟨[], w, .nil i w, rfl, Nat.le_refl 0, fun _ _ => Nat.zero_le _, .inl ⟨rfl, rfl, rfl⟩⟩

theorem repeated_skipped (hr : p s i env w = .ok r w') (hs : r.status = false)
    (hf : -1 ≤ r.furthest) (max : Limit) : Repeated p s env 0 max i w (r.skipped i) w' := by
  refine ⟨[], w, .nil i w, rfl, Nat.le_refl 0, fun _ _ => Nat.zero_le _, .inr ⟨r, hr, hs, ?_⟩⟩
  rw [latest, Report.join_silent hf]
  exact Report.silent_join hf

theorem repeated_alone (hr : p s i env w = .ok r w') (hs : r.status = true)
    (hf : -1 ≤ r.furthest) (hi : r.index = i) :
    Repeated p s env 0 .infinite i w r.alone w' := by
  refine ⟨[r], w', .cons hr hs (.nil _ _), rfl, Nat.zero_le _, nofun, .inl ⟨?_, ?_, rfl⟩⟩
  · exact ⟨r, rfl, w, by rwa [show r.alone.index = i from hi], hi.trans hi.symm⟩
  · exact (Report.silent_join hf).symm

theorem Repeated.cons (h : Repeated p s env 0 max r.index w₁ later w')
    (hr : p s i env w = .ok r w₁) (hs : r.status = true) (hf : -1 ≤ r.furthest) :
    Repeated p s env 0 (max.plus 1) i w (r.cons later) w' :=
  Repeated.weaken (h.append (r := r.alone) (.cons hr hs (.nil _ _)) rfl
    (Report.silent_join hf).symm) (Nat.zero_le _)

end

theorem repeated_upTo (hp : InRange p) (k : Nat) {r : Result (Value φ)} {i : Nat} {w w' : σ}
    (hi : i ≤ s.length) (h : upTo p k s i env w = .ok r w') :
    Repeated p s env 0 (.finite k) i w r w' := by
  induction k generalizing i w r w' with
  | zero =>
    cases h
    exact repeated_nothing i w
  | succ k ih =>
    rw [upTo_succ_apply hp (lists_upTo hp k) hi, consOr] at h
    obtain ⟨r₀, w₁, hr₀, h⟩ := bind_eq_ok h
    have hin := hp s i env w hi r₀ w₁ hr₀
    by_cases hs : r₀.status = true
    · rw [if_pos hs, map_eq_pure_bind] at h
      obtain ⟨later, w₂, hlater, ⟨⟩⟩ := bind_eq_ok h
      exact (ih (hin.index_mem hs).2 hlater).cons hr₀ hs hin.le_furthest
    · rw [if_neg hs] at h
      cases h
      exact repeated_skipped hr₀ (by simpa using hs) hin.le_furthest _

theorem repeated_asLong (hp : InRange p) (budget : Nat) {r : Result (Value φ)} {i : Nat}
    {w w' : σ} (hi : i ≤ s.length) (h : asLong p budget s i env w = .ok r w') :
    Repeated p s env 0 .infinite i w r w' := by
  induction budget generalizing i w r w' with
  | zero => cases h
  | succ budget ih =>
    rw [asLong_succ_apply hp (lists_asLong hp budget) hi, consOrAlone] at h
    obtain ⟨r₀, w₁, hr₀, h⟩ := bind_eq_ok h
    have hin := hp s i env w hi r₀ w₁ hr₀
    by_cases hs : r₀.status = true
    · rw [if_pos hs] at h
      by_cases hc : r₀.index = i
      · rw [if_pos hc] at h
        cases h
        exact repeated_alone hr₀ hs hin.le_furthest hc
      · rw [if_neg hc, map_eq_pure_bind] at h
        obtain ⟨later, w₂, hlater, ⟨⟩⟩ := bind_eq_ok h
        exact (ih (hin.index_mem hs).2 hlater).cons hr₀ hs hin.le_furthest
    · rw [if_neg hs] at h
      cases h
      exact repeated_skipped hr₀ (by simpa using hs) hin.le_furthest _

/-- What the mandatory matches come to: the values and the reports of so many in a row. -/
theorem mandatory_run (n : Nat) (values : Array (Value φ)) (best : Option (Result (Value φ)))
    {r : Result (Value φ)} {w' : σ} (h : mandatory p s env finish n i values best w = .ok r w')
    (hs : r.status = true) :
    ∃ rs, rs.length = n ∧ Run p s env i w rs r.index w' ∧
      r = Result.mergeWith
        ⟨latest rs, true, r.index, .list (values.toList ++ rs.map (·.value))⟩ best := by
  induction n generalizing i values best w with
  | zero =>
    cases h
    refine ⟨[], rfl, ?_, ?_⟩
    · rw [Result.index_mergeWith]
      exact .nil i _
    · cases best <;> simp [Result.success, latest, Result.merge]
  | succ n ih =>
    obtain ⟨r₀, w₁, hr₀, h⟩ := bind_eq_ok h
    by_cases hs₀ : r₀.status = true
    · simp only [Result.status_mergeWith, hs₀, if_true, Result.index_mergeWith,
        Result.value_mergeWith] at h
      obtain ⟨rs, hn, hrun, hr⟩ := ih _ _ h
      refine ⟨r₀ :: rs, by simp [hn], .cons hr₀ hs₀ hrun, ?_⟩
      rw [hr]
      cases best <;> simp [latest, Result.merge, Report.join_assoc]
    · simp only [Result.status_mergeWith, if_neg hs₀] at h
      cases h
      exact absurd (by simpa using hs) hs₀

theorem repeated_of_unrolls (hp : InRange p) (hq : Lists q)
    {next : Repeat (EStateM (Halt φ) σ) φ} (hnext : Unrolls s env next q) {max : Limit}
    (hrep : ∀ {i w r w'}, i ≤ s.length → q s i env w = .ok r w' → Repeated p s env 0 max i w r w')
    (n : Nat) (hi : i ≤ s.length) {r : Result (Value φ)} {w' : σ}
    (h : mandatory p s env next n i #[] none w = .ok r w') (hs : r.status = true) :
    Repeated p s env n (max.plus n) i w r w' := by
  rw [mandatory_unrolls hp hq hnext n #[] (by simp) hi] at h
  obtain ⟨r₀, w₁, hr₀, h⟩ := bind_eq_ok h
  have hin := (returns_mandatory hp n #[] (by simp) (Nat.le_refl i) hi r₀ w₁ hr₀).1
  by_cases hs₀ : r₀.status = true
  · rw [if_pos hs₀, map_eq_pure_bind] at h
    obtain ⟨later, w₂, hlater, ⟨⟩⟩ := bind_eq_ok h
    obtain ⟨rs, rfl, hrun, hr⟩ := mandatory_run n #[] none hr₀ hs₀
    exact (hrep (hin.index_mem hs₀).2 hlater).append hrun (by rw [hr]; rfl) (by rw [hr]; rfl)
  · rw [if_neg hs₀] at h
    cases h
    exact absurd hs hs₀

/-! ## Repetitions -/

/-- A repetition with bounds `least` and `max` is, on whole results and with all effects, what its
recursive definition says; and what it matches lies within the bounds. -/
theorem times_recursive (hp : InRange p) (budget : Nat) :
    (∀ n, times p (.finite n) (.finite n) budget = seq (List.replicate n p)) ∧
    (∀ least most, least ≤ most → most < 2 ^ 1000 → ∀ s i env w, i ≤ s.length →
      times p (.finite least) (.finite most) budget s i env w =
        appended (times p (.finite least) (.finite least) budget) (upTo p (most - least))
          s i env w) ∧
    (∀ least s i env w, i ≤ s.length →
      times p (.finite least) .infinite budget s i env w =
        appended (times p (.finite least) (.finite least) budget) (asLong p budget) s i env w) ∧
    (∀ least max, (∀ most, max = .finite most → least ≤ most ∧ most < 2 ^ 1000) →
      ∀ s i env w r w', i ≤ s.length →
        times p (.finite least) max budget s i env w = .ok r w' → r.status = true →
        Repeated p s env least max i w r w') := by
  refine ⟨fun n => times_self p n budget, fun least most _ hmost s i env w hi => ?_,
    fun least s i env w hi => times_infinite hp least budget hi,
    fun least max hmax s i env w r w' hi h hs => ?_⟩
  · exact times_finite hp (lt_boundCeiling hmost) budget hi
  · cases max with
    | finite most =>
      obtain ⟨hle, hmost⟩ := hmax most rfl
      have := repeated_of_unrolls hp (lists_upTo hp _)
        (optional_eq_upTo hp (lt_boundCeiling hmost) (most - least)) (repeated_upTo hp _) least hi
        h hs
      rwa [Limit.plus, Nat.sub_add_cancel hle] at this
    | infinite =>
      exact repeated_of_unrolls hp (lists_asLong hp _) (optional_eq_asLong hp budget)
        (repeated_asLong hp _) least hi h hs

/-- Any character. -/
def character : Behaviour (EStateM (Halt Empty) Unit) Empty := leaf Leaf.anyChar

theorem inRange_character : InRange character := fun _ _ _ _ hi =>
  have h := Leaf.wellFormed_anyChar hi
  returns_pure ⟨h.fits.neg_one_le, fun _ => ⟨h.le_index, h.index_le⟩⟩

/-- One or more characters of a text of two: both match, and the report is that of the attempt at
the end. -/
theorem times_recursive_character :
    InRange character ∧
      Repeated character "ab".toList .null 1 .infinite 0 ()
        ⟨⟨2, ["any character"]⟩, true, 2, .list [.text "a", .text "b"]⟩ () :=
  ⟨inRange_character, (times_recursive inRange_character 5).2.2.2 1 .infinite nofun _ 0 .null () _
    () (Nat.zero_le _) rfl rfl⟩

end Behaviour

end Furthest
