import Furthest.Parser.Behaviour
import Furthest.Proofs.Returns

/-!
# The attempts of a repetition without an upper bound

`Behaviour.attempting p` does what `p` does and notes each attempt: where it started and what came
of it.  Of a repetition this counts how often `p` is run.  Where `p` always answers and its matches
stay in the text, an attempt of the optional phase that matched something moves on, and one that
matched nothing, or did not match, is the last: so there are at most as many attempts as mandatory
matches and characters left, and one more (`Behaviour.times_unbounded`).
-/

namespace Furthest

/-- One run of a parser: where it started and what came of it. -/
structure Attempt (φ : Type) where
  start : Nat
  result : Result (Value φ)

namespace Attempt

variable {φ : Type}

/-- It matched and consumed something. -/
def Consumes (a : Attempt φ) : Prop := a.result.status = true ∧ a.start < a.result.index

/-- It matched and consumed nothing. -/
def matchedNothing (a : Attempt φ) : Bool := a.result.status && a.result.index == a.start

/-- The values of those attempts that matched, in order. -/
def values (attempts : List (Attempt φ)) : List (Value φ) :=
  (attempts.filter (·.result.status)).map (·.result.value)

theorem values_cons_of_matched {a : Attempt φ} (h : a.result.status = true)
    (attempts : List (Attempt φ)) : values (a :: attempts) = a.result.value :: values attempts := by
  simp [values, h]

theorem Consumes.not_matchedNothing {a : Attempt φ} (h : a.Consumes) :
    ¬a.matchedNothing = true := by
  intro hn
  have hne : a.result.index = a.start := by simpa [matchedNothing, h.1] using hn
  exact absurd h.2 (by omega)

/-- If only the last attempt may consume nothing, at most one does. -/
theorem countP_matchedNothing_le {attempts : List (Attempt φ)}
    (h : ∀ a ∈ attempts.dropLast, a.Consumes) : attempts.countP matchedNothing ≤ 1 := by
  rcases attempts.eq_nil_or_concat with rfl | ⟨init, last, rfl⟩
  · exact Nat.zero_le 1
  · rw [List.concat_eq_append, List.dropLast_concat] at h
    have hinit : init.countP matchedNothing = 0 :=
      List.countP_eq_zero.2 fun a ha => (h a ha).not_matchedNothing
    rw [List.concat_eq_append, List.countP_append, hinit, Nat.zero_add]
    exact List.countP_le_length

end Attempt

/-- A computation that notes attempts. -/
abbrev Attempting (φ : Type) (m : Type → Type) := StateT (List (Attempt φ)) m

namespace Behaviour

variable {σ φ : Type} {p : Behaviour (EStateM (Halt φ) σ) φ} {s : Input} {env : Value φ}
  {I : σ → Prop} {i : Nat} {w : σ}

/-- Does what `p` does and notes the attempt after those before it. -/
def attempting (p : Behaviour (EStateM (Halt φ) σ) φ) :
    Behaviour (Attempting φ (EStateM (Halt φ) σ)) φ := fun s i env => do
  let r ← p s i env
  modify (· ++ [⟨i, r⟩])
  return r

/-- In each state that `I` allows `p` answers at every offset of the text, which leads to such a
state again, and what it matches ends between there and the end of the text. -/
def AnswersWithin (p : Behaviour (EStateM (Halt φ) σ) φ) (s : Input) (env : Value φ)
    (I : σ → Prop) : Prop :=
  ∀ i w, I w → i ≤ s.length → ∃ r w', p s i env w = .ok r w' ∧ I w' ∧
    (r.status = true → i ≤ r.index ∧ r.index ≤ s.length)

/-- The plain computation `x` returns, and `y` does the same and notes attempts such that `Q`. -/
def Records (x : EStateM (Halt φ) σ (Result (Value φ)))
    (y : Attempting φ (EStateM (Halt φ) σ) (Result (Value φ))) (w : σ)
    (Q : Result (Value φ) → List (Attempt φ) → Prop) : Prop :=
  ∃ r w' attempts, x w = .ok r w' ∧ (∀ before, y before w = .ok (r, before ++ attempts) w') ∧
    Q r attempts

section

variable {Q : Result (Value φ) → List (Attempt φ) → Prop}

theorem records_pure {r : Result (Value φ)} (h : Q r []) : Records (pure r) (pure r) w Q :=
  ⟨r, w, [], rfl, fun before => by rw [List.append_nil]; rfl, h⟩

/-- An attempt is noted before what is noted later. -/
theorem AnswersWithin.records_bind (hp : AnswersWithin p s env I) (hw : I w) (hi : i ≤ s.length)
    {f : Result (Value φ) → EStateM (Halt φ) σ (Result (Value φ))}
    {g : Result (Value φ) → Attempting φ (EStateM (Halt φ) σ) (Result (Value φ))}
    (h : ∀ r w', I w' → (r.status = true → i ≤ r.index ∧ r.index ≤ s.length) →
      Records (f r) (g r) w' fun r' attempts => Q r' (⟨i, r⟩ :: attempts)) :
    Records (p s i env >>= f) (attempting p s i env >>= g) w Q := by
  obtain ⟨r, w', hr, hw', hin⟩ := hp i w hw hi
  obtain ⟨r', w'', attempts, hf, hg, hQ⟩ := h r w' hw' hin
  refine ⟨r', w'', ⟨i, r⟩ :: attempts, ?_, fun before => ?_, hQ⟩
  · rw [bind_apply, hr]
    exact hf
  · have hnoted : attempting p s i env before w = .ok (r, before ++ [⟨i, r⟩]) w' := by
      show EStateM.bind (EStateM.bind (p s i env) fun r => pure (r, before)) _ w = _
      simp only [EStateM.bind, hr]
      rfl
    show EStateM.bind (attempting p s i env before) (fun a => g a.1 a.2) w = _
    simp only [EStateM.bind, hnoted, hg, List.append_assoc, List.singleton_append]

end

/-- What is noted of a repetition that has `n` mandatory matches and `room` characters before it,
and the values `values` so far. -/
structure Accounts (n room : Nat) (values : Array (Value φ)) (r : Result (Value φ))
    (attempts : List (Attempt φ)) : Prop where
  length_le : attempts.length ≤ n + room + 1
  value_eq : r.status = true → r.value = .list (values.toList ++ Attempt.values attempts)
  consumes : ∀ a ∈ (attempts.drop n).dropLast, a.Consumes

section

variable {n room room' : Nat} {values : Array (Value φ)} {r r' : Result (Value φ)}
  {attempts : List (Attempt φ)}

/-- The attempt that ends a repetition. -/
theorem accounts_last (hvalue : r'.status = true → r'.value =
      .list (values.toList ++ Attempt.values [⟨i, r⟩])) :
    Accounts n room values r' [⟨i, r⟩] where
  length_le := by simp
  value_eq := hvalue
  consumes a ha := by cases n <;> simp at ha

/-- A mandatory match before the others. -/
theorem Accounts.cons_mandatory (h : Accounts n room' (values.push r.value) r' attempts)
    (hs : r.status = true) (hroom : room' ≤ room) :
    Accounts (n + 1) room values r' (⟨i, r⟩ :: attempts) where
  length_le := by
    have := h.length_le
    rw [List.length_cons]
    omega
  value_eq hs' := by
    rw [h.value_eq hs', Attempt.values_cons_of_matched hs]
    simp
  consumes := h.consumes

/-- A match of the optional phase that consumed something, before the others. -/
theorem Accounts.cons_optional (h : Accounts 0 room' (values.push r.value) r' attempts)
    (hs : r.status = true) (hi : i < r.index) (hroom : room' < room) :
    Accounts 0 room values r' (⟨i, r⟩ :: attempts) where
  length_le := by
    have := h.length_le
    rw [List.length_cons]
    omega
  value_eq hs' := by
    rw [h.value_eq hs', Attempt.values_cons_of_matched hs]
    simp
  consumes a ha := by
    cases attempts with
    | nil => cases ha
    | cons b attempts =>
      rw [List.drop_zero, List.dropLast_cons_cons, List.mem_cons] at ha
      rcases ha with rfl | ha
      · exact ⟨hs, hi⟩
      · exact h.consumes a ha

end

/-- The optional phase.  What is left of the text bounds it: a match that goes on has consumed
something. -/
theorem AnswersWithin.records_optional (hp : AnswersWithin p s env I) (budget : Nat)
    (values : Array (Value φ)) (best : Option (Result (Value φ))) (hw : I w) (hi : i ≤ s.length)
    (hb : s.length - i < budget) :
    Records (optional p .infinite s env spent budget i values best)
      (optional (attempting p) .infinite s env spent budget i values best) w
      (Accounts 0 (s.length - i) values) := by
  induction budget generalizing i values best w with
  | zero => exact absurd hb (Nat.not_lt_zero _)
  | succ budget ih =>
    refine hp.records_bind hw hi fun r w' hw' hin => ?_
    simp only [Result.status_mergeWith, Result.index_mergeWith, Result.value_mergeWith]
    by_cases hs : r.status = true
    · obtain ⟨hle, hlast⟩ := hin hs
      simp only [hs, if_true]
      by_cases hempty : r.index = i
      · -- a match of nothing is the last
        rw [if_pos hempty, if_pos hempty]
        refine records_pure (accounts_last fun _ => ?_)
        simp [Result.success, Attempt.values, hs]
      · rw [if_neg hempty, if_neg hempty]
        obtain ⟨r', w'', attempts, hf, hg, hacc⟩ :=
          ih (values.push r.value) (some (r.mergeWith best)) hw' hlast (by omega)
        exact ⟨r', w'', attempts, hf, hg, hacc.cons_optional hs (by omega) (by omega)⟩
    · simp only [hs]
      refine records_pure (accounts_last fun _ => ?_)
      simp [Result.success, Attempt.values, hs]

/-- The mandatory phase, and what comes after it. -/
theorem AnswersWithin.records_mandatory (hp : AnswersWithin p s env I) {budget : Nat} (n : Nat)
    (values : Array (Value φ)) (best : Option (Result (Value φ))) (hw : I w) (hi : i ≤ s.length)
    (hb : s.length - i < budget) :
    Records (mandatory p s env (optional p .infinite s env spent budget) n i values best)
      (mandatory (attempting p) s env (optional (attempting p) .infinite s env spent budget) n i
        values best) w
      (Accounts n (s.length - i) values) := by
  induction n generalizing i values best w with
  | zero => exact hp.records_optional budget values best hw hi hb
  | succ n ih =>
    refine hp.records_bind hw hi fun r w' hw' hin => ?_
    simp only [Result.status_mergeWith, Result.index_mergeWith, Result.value_mergeWith]
    by_cases hs : r.status = true
    · obtain ⟨hle, hlast⟩ := hin hs
      simp only [hs, if_true]
      obtain ⟨r', w'', attempts, hf, hg, hacc⟩ :=
        ih (values.push r.value) (some (r.mergeWith best)) hw' hlast (by omega)
      exact ⟨r', w'', attempts, hf, hg, hacc.cons_mandatory hs (by omega)⟩
    · simp only [hs]
      refine records_pure (accounts_last fun hs' => ?_)
      simp [hs] at hs'

/-- A repetition without an upper bound comes to an end, after at most as many attempts as it has
mandatory matches and characters before it, and one more.  A success lists the values of the
attempts that matched, and after the mandatory ones at most one of them matched nothing. -/
theorem times_unbounded (hp : AnswersWithin p s env I) (least : Nat) {budget : Nat} (hw : I w)
    (hi : i ≤ s.length) (hb : s.length - i < budget) :
    ∃ r w' attempts,
      times p (.finite least) .infinite budget s i env w = .ok r w' ∧
      (times (attempting p) (.finite least) .infinite budget s i env).run [] w =
        .ok (r, attempts) w' ∧
      attempts.length ≤ least + (s.length - i) + 1 ∧
      (r.status = true → r.value = .list (Attempt.values attempts)) ∧
      (attempts.drop least).countP Attempt.matchedNothing ≤ 1 := by
  obtain ⟨r, w', attempts, hx, hy, hacc⟩ := hp.records_mandatory least #[] none hw hi hb
  exact ⟨r, w', attempts, hx, hy [], hacc.length_le, fun hs => by simpa using hacc.value_eq hs,
    Attempt.countP_matchedNothing_le hacc.consumes⟩

/-- The letter `a` where there is one, and nothing elsewhere. -/
def letterOrNothing : Behaviour (EStateM (Halt Empty) Unit) Empty :=
  leaf fun s i => if s[i]? = some 'a' then .success (i + 1) (.text "a") else .success i .null

theorem answersWithin_letterOrNothing (s : Input) (env : Value Empty) :
    AnswersWithin letterOrNothing s env fun _ => True := by
  intro i w _ hi
  refine ⟨_, w, rfl, trivial, fun _ => ?_⟩
  by_cases ha : s[i]? = some 'a'
  · obtain ⟨hlt, -⟩ := List.getElem?_eq_some_iff.1 ha
    simp only [ha, if_true, Result.success]
    omega
  · simpa [ha, Result.success] using hi

/-- On two letters and something else, one mandatory match and the optional phase: it ends in a
match of nothing, which contributes the last value. -/
theorem times_unbounded_letterOrNothing :
    AnswersWithin letterOrNothing "aab".toList .null (fun _ => True) ∧
      ∃ r w' attempts,
        times letterOrNothing (.finite 1) .infinite 4 "aab".toList 0 .null () = .ok r w' ∧
        (times (attempting letterOrNothing) (.finite 1) .infinite 4 "aab".toList 0 .null).run [] ()
          = .ok (r, attempts) w' ∧
        attempts.length ≤ 1 + ("aab".toList.length - 0) + 1 ∧
        (r.status = true → r.value = .list (Attempt.values attempts)) ∧
        (attempts.drop 1).countP Attempt.matchedNothing ≤ 1 :=
  ⟨answersWithin_letterOrNothing _ _,
    times_unbounded (answersWithin_letterOrNothing _ _) 1 trivial (Nat.zero_le _) (by decide)⟩

example : ((times (attempting letterOrNothing) (.finite 1) .infinite 4 "aab".toList 0 .null).run
    [] ()) = .ok (.success 2 (.list [.text "a", .text "a", .null]),
      [⟨0, .success 1 (.text "a")⟩, ⟨1, .success 2 (.text "a")⟩, ⟨2, .success 2 .null⟩]) () := rfl

end Behaviour

end Furthest
