import Furthest.Proofs.Parallel.Difference
import Furthest.Proofs.Parallel.Simulation

/-!
# Behaviours side by side

Two behaviours are parallel under a difference if attempts in the same place lead to results that are
the same up to the difference.  Every combinator takes parallel parts to a parallel whole, and a new
label or a log entry on one side only leaves it parallel.  The loops are followed by what they carry:
the values so far, and best results that are the same up to the difference.
-/

namespace Furthest

variable {φ : Type}

/-- A behaviour that is run within a depth. -/
abbrev Within (φ : Type) := Behaviour (Except (Halt φ)) φ

/-- A behaviour that is run within all depths. -/
abbrev Throughout (φ : Type) := Behaviour (ReaderT Nat (Except (Halt φ))) φ

namespace Difference

variable (D : Difference) (V : Value φ → Prop) (text : Input)

/-- Attempts in the same place, in an environment to keep to, lead to the same up to the
difference. -/
def Parallel (p : Within φ) (q : Throughout φ) : Prop :=
  ∀ i j env, D.Place i j → V env →
    Leads (D.Results V) (p (D.leftText text) i env) (q (D.rightText text) j env)

/-- Two loops go on in the same way from the same values and best results. -/
def GoesOn (next : Behaviour.Repeat (Except (Halt φ)) φ)
    (next' : Behaviour.Repeat (ReaderT Nat (Except (Halt φ))) φ) : Prop :=
  ∀ i j (values : Array (Value φ)) best best', D.Place i j → (∀ v ∈ values.toList, V v) →
    Option.Rel (D.Results V) best best' →
      Leads (D.Results V) (next i values best) (next' j values best')

variable {D V text} {p p' : Within φ} {q q' : Throughout φ} {env : Value φ} (hV : Domain V)

theorem parallel_leaf {f f' : Input → Nat → Result (Value φ)}
    (h : ∀ i j, D.Place i j → D.Results V (f (D.leftText text) i) (f' (D.rightText text) j)) :
    D.Parallel V text (Behaviour.leaf f) (Behaviour.leaf f') :=
  fun i j _ hp _ => .pure (h i j hp)

include hV in
theorem results_eof {i j : Nat} (hp : D.Place i j) :
    D.Results V (Leaf.eof (D.leftText text) i) (Leaf.eof (D.rightText text) j) := by
  unfold Leaf.eof
  by_cases h : i < (D.leftText text).length
  · rw [if_pos h, if_pos ((hp.lt_iff (place_length text)).1 h)]
    exact .failure hp hV.null fun _ => rfl
  · rw [if_neg h, if_neg (mt (hp.lt_iff (place_length text)).2 h)]
    exact .success hp hV.null

include hV in
theorem results_anyChar {i j : Nat} (hp : D.Place i j) :
    D.Results V (Leaf.anyChar (D.leftText text) i) (Leaf.anyChar (D.rightText text) j) := by
  unfold Leaf.anyChar
  rw [← hp.getElem?_eq text]
  split
  · exact .success (hp.add 1) (hV.text _)
  · exact .failure hp hV.null fun _ => rfl

include hV in
theorem results_rest {i j : Nat} (hp : D.Place i j) :
    D.Results V (Leaf.rest (D.leftText text) i) (Leaf.rest (D.rightText text) j) := by
  unfold Leaf.rest
  rw [← hp.drop_eq text]
  exact .success (place_length text) (hV.text _)

include hV in
theorem results_string (literal : String) {i j : Nat} (hp : D.Place i j) :
    D.Results V (Leaf.string literal (D.leftText text) i)
      (Leaf.string literal (D.rightText text) j) := by
  have hle : i ≤ (D.leftText text).length ↔ j ≤ (D.rightText text).length := by
    have := (place_length text).lt_iff hp
    omega
  unfold Leaf.string
  dsimp only
  rw [← hp.drop_eq text]
  simp only [hle]
  split
  · exact .success (hp.add _) (hV.text _)
  · exact .failed hp hV.null (reports_single (hp.add _) fun _ => rfl)

/-! ## Sequences and alternatives -/

theorem mem_push {values : Array (Value φ)} (h : ∀ v ∈ values.toList, V v) {u : Value φ} (hu : V u) :
    ∀ v ∈ (values.push u).toList, V v := by
  intro v hv
  rw [Array.toList_push, List.mem_append, List.mem_singleton] at hv
  rcases hv with hv | rfl
  · exact h v hv
  · exact hu

include hV in
theorem goesOn_finish : D.GoesOn V Behaviour.finish Behaviour.finish :=
  fun _ _ _ _ _ hp hvs hb => .pure ((Results.success hp (hV.list hvs)).mergeWith hb)

include hV in
theorem goesOn_seqFrom (henv : V env) {ps : List (Within φ)} {qs : List (Throughout φ)}
    (h : List.Forall₂ (D.Parallel V text) ps qs) :
    D.GoesOn V (Behaviour.seqFrom (D.leftText text) env ps)
      (Behaviour.seqFrom (D.rightText text) env qs) := by
  induction h with
  | nil => exact goesOn_finish hV
  | cons hpq _ ih =>
    intro i j values best best' hp hvs hb
    refine (hpq i j env hp henv).bind fun r r' hr => ?_
    have hm := hr.mergeWith hb
    refine .ite hm.status_eq (fun _ => ?_) fun _ => .pure hm
    rw [← hm.value_eq]
    exact ih _ _ _ _ _ hm.place (mem_push hvs hm.value_mem) (.some hm)

include hV in
theorem parallel_seq {ps : List (Within φ)} {qs : List (Throughout φ)}
    (h : List.Forall₂ (D.Parallel V text) ps qs) :
    D.Parallel V text (Behaviour.seq ps) (Behaviour.seq qs) :=
  fun i j _ hp henv => goesOn_seqFrom hV henv h i j #[] none none hp nofun .none

theorem leads_altFrom {i j : Nat} (hp : D.Place i j) (henv : V env) {ps : List (Within φ)}
    {qs : List (Throughout φ)} (h : List.Forall₂ (D.Parallel V text) ps qs)
    {best best' : Result (Value φ)} (hb : D.Results V best best') :
    Leads (D.Results V) (Behaviour.altFrom (D.leftText text) i env ps best)
      (Behaviour.altFrom (D.rightText text) j env qs best') := by
  induction h generalizing best best' with
  | nil => exact .pure hb
  | cons hpq _ ih =>
    refine (hpq i j env hp henv).bind fun r r' hr => ?_
    have hm := hr.merge hb
    exact .ite hm.status_eq (fun _ => .pure hm) fun _ => ih hm

theorem parallel_alt (h : D.Parallel V text p q) {ps : List (Within φ)} {qs : List (Throughout φ)}
    (hs : List.Forall₂ (D.Parallel V text) ps qs) :
    D.Parallel V text (Behaviour.alt p ps) (Behaviour.alt q qs) := fun i j env hp henv =>
  (h i j env hp henv).bind fun _ _ hr =>
    .ite hr.status_eq (fun _ => .pure hr) fun _ => leads_altFrom hp henv hs hr

/-! ## Repetition -/

theorem goesOn_spent {next : Behaviour.Repeat (ReaderT Nat (Except (Halt φ))) φ} :
    D.GoesOn V Behaviour.spent next :=
  fun _ _ _ _ _ _ _ _ => .throw _

theorem goesOn_mandatory (henv : V env) (h : D.Parallel V text p q)
    {next : Behaviour.Repeat (Except (Halt φ)) φ}
    {next' : Behaviour.Repeat (ReaderT Nat (Except (Halt φ))) φ} (hn : D.GoesOn V next next')
    (n : Nat) :
    D.GoesOn V (Behaviour.mandatory p (D.leftText text) env next n)
      (Behaviour.mandatory q (D.rightText text) env next' n) := by
  induction n with
  | zero => exact hn
  | succ n ih =>
    intro i j values best best' hp hvs hb
    refine (h i j env hp henv).bind fun r r' hr => ?_
    have hm := hr.mergeWith hb
    refine .ite hm.status_eq (fun _ => ?_) fun _ => .pure hm
    rw [← hm.value_eq]
    exact ih _ _ _ _ _ hm.place (mem_push hvs hm.value_mem) (.some hm)

include hV in
theorem goesOn_optional (max : Limit) (henv : V env) (h : D.Parallel V text p q)
    {next : Behaviour.Repeat (Except (Halt φ)) φ}
    {next' : Behaviour.Repeat (ReaderT Nat (Except (Halt φ))) φ} (hn : D.GoesOn V next next')
    (n : Nat) :
    D.GoesOn V (Behaviour.optional p max (D.leftText text) env next n)
      (Behaviour.optional q max (D.rightText text) env next' n) := by
  induction n with
  | zero => exact hn
  | succ n ih =>
    intro i j values best best' hp hvs hb
    refine (h i j env hp henv).bind fun r r' hr => ?_
    have hm := hr.mergeWith hb
    have hpush := mem_push hvs hm.value_mem
    have hgo := ih _ _ _ _ _ hm.place hpush (.some hm)
    refine .ite hm.status_eq (fun _ => ?_) fun _ => goesOn_finish hV i j _ _ _ hp hvs (.some hm)
    rw [← hm.value_eq]
    -- an empty match on one side is an empty match on the other
    by_cases hi : (r.mergeWith best).index = i
    · simp only [hi, (hm.place.eq_iff hp).1 hi, if_true]
      cases max with
      | infinite => exact goesOn_finish hV i j _ _ _ hp hpush (.some hm)
      | finite bound =>
        rw [hi, (hm.place.eq_iff hp).1 hi] at hgo
        dsimp only
        split
        · exact hgo
        · exact .throw _
    · simp only [hi, mt (hm.place.eq_iff hp).2 hi, if_false]
      exact hgo

include hV in
theorem parallel_times (h : D.Parallel V text p q) (min max : Limit) (budget : Nat) :
    D.Parallel V text (Behaviour.times p min max budget) (Behaviour.times q min max budget) := by
  intro i j env hp henv
  cases min with
  | infinite => exact goesOn_mandatory henv h goesOn_spent budget i j #[] none none hp nofun .none
  | finite least =>
    cases max with
    | infinite =>
      have hspent : D.GoesOn V (Behaviour.spent (φ := φ)) Behaviour.spent := goesOn_spent
      have hgo := goesOn_optional hV .infinite henv h hspent budget
      exact goesOn_mandatory henv h hgo least i j #[] none none hp nofun .none
    | finite most =>
      have hgo := goesOn_optional hV (.finite most) henv h (goesOn_finish hV) (most - least)
      exact goesOn_mandatory henv h hgo least i j #[] none none hp nofun .none

/-! ## Values and continuations -/

theorem parallel_mapEnv (h : D.Parallel V text p q)
    {f : Value φ → Value φ → Except (Halt φ) (Value φ)}
    {g : Value φ → Value φ → ReaderT Nat (Except (Halt φ)) (Value φ)}
    (hf : ∀ v env, V v → V env → Leads (fun u u' => u = u' ∧ V u) (f v env) (g v env)) :
    D.Parallel V text (Behaviour.mapEnv p f) (Behaviour.mapEnv q g) := by
  intro i j env hp henv
  refine (h i j env hp henv).bind fun r r' hr => ?_
  refine .ite hr.status_eq (fun _ => ?_) fun _ => .pure hr
  rw [← hr.value_eq]
  refine (hf r.value env hr.value_mem henv).bind ?_
  rintro u _ ⟨rfl, hu⟩
  exact .pure ((Results.success hr.place hu).merge hr)

theorem parallel_chainEnv (h : D.Parallel V text p q)
    {f : Value φ → Value φ → Except (Halt φ) (Within φ)}
    {g : Value φ → Value φ → ReaderT Nat (Except (Halt φ)) (Throughout φ)}
    (hf : ∀ v env, V v → V env → Leads (D.Parallel V text) (f v env) (g v env)) :
    D.Parallel V text (Behaviour.chainEnv p f) (Behaviour.chainEnv q g) := by
  intro i j env hp henv
  refine (h i j env hp henv).bind fun r r' hr => ?_
  refine .ite hr.status_eq (fun _ => ?_) fun _ => .pure hr
  rw [← hr.value_eq]
  refine (hf r.value env hr.value_mem henv).bind fun next next' hnext => ?_
  exact (hnext _ _ env hr.place henv).bind fun _ _ hr₂ => .pure (hr₂.merge hr)

/-! ## Labels and the log -/

/-- A failure that gets a new label on the left side. -/
theorem Results.relabel_left {r r' : Result (Value φ)} (h : D.Results V r r')
    (hl : ¬D.sameLabels) (hs : r.status = false) (label : String) :
    D.Results V ⟨⟨r.furthest, [label]⟩, false, r.index, .null⟩ r' where
  reports := ⟨h.reports.furthest, fun hsame => absurd hsame hl⟩
  status_eq := hs.symm.trans h.status_eq
  place := h.place
  value_eq := (h.value_of_failure hs).symm.trans h.value_eq
  value_mem := h.value_of_failure hs ▸ h.value_mem
  value_of_failure _ := rfl

include hV in
theorem parallel_relabel (h : D.Parallel V text p q) {label label' : String}
    (hl : D.sameLabels → label = label') :
    D.Parallel V text (Behaviour.relabel p label) (Behaviour.relabel q label') := by
  intro i j env hp henv
  refine (h i j env hp henv).bind fun r r' hr => ?_
  refine .ite hr.status_eq (fun _ => .pure hr) fun _ => .pure ?_
  exact .failed hr.place hV.null ⟨hr.reports.furthest, fun hs => congrArg (fun l => [l]) (hl hs)⟩

theorem parallel_relabel_left (h : D.Parallel V text p q) (hl : ¬D.sameLabels) (label : String) :
    D.Parallel V text (Behaviour.relabel p label) q := by
  intro i j env hp henv
  refine (h i j env hp henv).then_left fun r r' hr => ?_
  split
  · exact .pure hr
  · next hs => exact .pure (hr.relabel_left hl (Bool.eq_false_iff.2 hs) label)

theorem parallel_relabel_right (h : D.Parallel V text p q) (hl : ¬D.sameLabels) (label : String) :
    D.Parallel V text p (Behaviour.relabel q label) := by
  intro i j env hp henv
  refine (h i j env hp henv).then_right fun r r' hr => ?_
  split
  · exact .pure hr
  · next hs => exact .pure (hr.swap.relabel_left hl (Bool.eq_false_iff.2 hs) label).swap

theorem parallel_trace_left (h : D.Parallel V text p q) (label : Value φ)
    {log : LogEntry φ → Except (Halt φ) PUnit} (hlog : ∀ entry, log entry = pure ⟨⟩) :
    D.Parallel V text (Behaviour.trace p label log) q := by
  intro i j env hp henv
  unfold Behaviour.trace
  simp only [hlog, pure_bind, ite_self]
  exact (h i j env hp henv).then_left fun _ _ hr => .pure hr

theorem parallel_trace_right (h : D.Parallel V text p q) (label : Value φ)
    {log : LogEntry φ → ReaderT Nat (Except (Halt φ)) PUnit}
    (hlog : ∀ entry, log entry = pure ⟨⟩) :
    D.Parallel V text p (Behaviour.trace q label log) := by
  intro i j env hp henv
  unfold Behaviour.trace
  simp only [hlog, pure_bind, ite_self]
  exact (h i j env hp henv).then_right fun _ _ hr => .pure hr

/-! ## Looking ahead -/

include hV in
theorem parallel_except {allowed forbidden : Within φ} {allowed' forbidden' : Throughout φ}
    (ha : D.Parallel V text allowed allowed') (hf : D.Parallel V text forbidden forbidden')
    {describe : Value φ → Except (Halt φ) String}
    {describe' : Value φ → ReaderT Nat (Except (Halt φ)) String}
    (hd : ∀ v, Leads Eq (describe v) (describe' v)) :
    D.Parallel V text (Behaviour.except allowed forbidden describe)
      (Behaviour.except allowed' forbidden' describe') := by
  intro i j env hp henv
  refine (hf i j env hp henv).bind fun u u' hu => ?_
  refine .ite hu.status_eq (fun _ => ?_) fun _ => ?_
  · rw [← hu.value_eq]
    refine (hd u.value).bind ?_
    rintro words _ rfl
    exact .pure (.failure hp hV.null fun _ => rfl)
  · refine (ha i j env hp henv).bind fun r r' hr => ?_
    refine .ite hr.status_eq (fun _ => .pure hr) fun _ => .pure (.failure hp hV.null fun hs => ?_)
    rw [hr.reports.expected_eq hs, hu.reports.expected_eq hs]

theorem parallel_lookAhead (h : D.Parallel V text p q) :
    D.Parallel V text (Behaviour.lookAhead p) (Behaviour.lookAhead q) := fun i j env hp henv =>
  (h i j env hp henv).bind fun _ _ hr =>
    .ite hr.status_eq (fun _ => .pure { hr with place := hp }) fun _ => .pure hr

/-! ## Environments -/

theorem parallel_subEnv (h : D.Parallel V text p q) {derive : Value φ → Except (Halt φ) (Value φ)}
    {derive' : Value φ → ReaderT Nat (Except (Halt φ)) (Value φ)}
    (hd : ∀ env, V env → Leads (fun e e' => e = e' ∧ V e) (derive env) (derive' env)) :
    D.Parallel V text (Behaviour.subEnv p derive) (Behaviour.subEnv q derive') := by
  intro i j env hp henv
  refine (hd env henv).bind ?_
  rintro e _ ⟨rfl, he⟩
  exact h i j e hp he

theorem parallel_fromEnv {lookup : Value φ → Except (Halt φ) (Within φ)}
    {lookup' : Value φ → ReaderT Nat (Except (Halt φ)) (Throughout φ)}
    (hl : ∀ env, V env → Leads (D.Parallel V text) (lookup env) (lookup' env)) :
    D.Parallel V text (Behaviour.fromEnv lookup) (Behaviour.fromEnv lookup') :=
  fun i j env hp henv =>
  (hl env henv).bind fun _ _ hpq => hpq i j env hp henv

/-! ## Characters and patterns -/

include hV in
theorem parallel_satisfy {test : Char → Value φ → Except (Halt φ) Bool}
    {test' : Char → Value φ → ReaderT Nat (Except (Halt φ)) Bool}
    (ht : ∀ c env, V env → Leads Eq (test c env) (test' c env)) (label : String) :
    D.Parallel V text (Behaviour.satisfy test label) (Behaviour.satisfy test' label) := by
  intro i j env hp henv
  have hfail : Leads (φ := φ) (D.Results V) (pure (.failure i label)) (pure (.failure j label)) :=
    .pure (.failure hp hV.null fun _ => rfl)
  unfold Behaviour.satisfy
  rw [← hp.getElem?_eq text]
  split
  · next c _ =>
    refine (ht c env henv).bind ?_
    rintro passes _ rfl
    exact .ite rfl (fun _ => .pure (.success (hp.add 1) (hV.text _))) fun _ => hfail
  · exact hfail

theorem leads_runOf {test : Char → Except (Halt φ) Bool}
    {test' : Char → ReaderT Nat (Except (Halt φ)) Bool} (ht : ∀ c, Leads Eq (test c) (test' c))
    (cs : List Char) : Leads Eq (Behaviour.runOf test cs) (Behaviour.runOf test' cs) := by
  induction cs with
  | nil => exact .pure rfl
  | cons c cs ih =>
    refine (ht c).bind ?_
    rintro passes _ rfl
    refine .ite rfl (fun _ => ih.bind ?_) fun _ => .pure rfl
    rintro run _ rfl
    exact .pure rfl

include hV in
theorem parallel_takeWhile {test : Char → Except (Halt φ) Bool}
    {test' : Char → ReaderT Nat (Except (Halt φ)) Bool} (ht : ∀ c, Leads Eq (test c) (test' c)) :
    D.Parallel V text (Behaviour.takeWhile test) (Behaviour.takeWhile test') := by
  intro i j env hp henv
  unfold Behaviour.takeWhile
  rw [← hp.drop_eq text]
  refine (leads_runOf ht _).bind ?_
  rintro run _ rfl
  exact .pure (.success (hp.add _) (hV.text _))

include hV in
/-- A pattern may look at what stands before the offset. -/
theorem parallel_regex (hD : D.Unmoved) (pattern : Pattern) (group : GroupName) (label : String) :
    D.Parallel V text (Behaviour.regex pattern group label)
      (Behaviour.regex pattern group label) := by
  intro i j env hp henv
  obtain rfl := hD.place_iff.1 hp
  unfold Behaviour.regex
  rw [← hD.text_eq text]
  split
  · exact .pure (.failure hp hV.null fun _ => rfl)
  · next found _ =>
    split
    · exact .throw _
    · next number _ =>
      refine .pure (.success (hD.place_iff.2 rfl) ?_)
      cases found.group? number with
      | none => exact hV.null
      | some t => exact hV.text t

end Difference

end Furthest
