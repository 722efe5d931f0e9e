import Furthest.Proofs.Deferred.History
import Furthest.Proofs.OrderedChoice.Complete

/-!
# Runs are ordered choice

A run answers a result exactly where something is matched, and the result, without its diagnostics,
is the match (`Machine.matches_exactly`).  This holds of every grammar in a system of rules, and of
every parser object in a world that models the rules, where the objects in a value are taken for
what they stand for.
-/

namespace Furthest

open Filter

variable {φ : Type} [FunctionText φ] {R : Rules φ}
  {B : Bond φ} {w : World φ} {s : Input} {i : Nat}

namespace Rules

/-- A grammar answers a result exactly where it matches something, and that is what it matches. -/
theorem matches_iff (hb : ∀ r, (R.rule r).Bounded) {g : Grammar φ} (hg : g.Bounded) (env : Value φ)
    (o : Option (Nat × Value φ)) :
    R.Matches s g i env o ↔
      ∃ b result, g.denote (R.within b) s i env = .ok result ∧ result.erased = o := by
  constructor
  · intro h
    obtain ⟨b, result, hresult, ho⟩ := (answers_of_matches hb hg h).exists
    exact ⟨b, result, hresult, ho⟩
  · rintro ⟨b, result, hresult, rfl⟩
    exact matches_of_denote hb hg b hresult

/-- What an object matches is given by the rules. -/
theorem gives_of_matches (hb : ∀ r, (R.rule r).Bounded) {r : Ref} {env : Value φ}
    {o : Option (Nat × Value φ)} (h : R.Matches s (.object r) i env o) :
    ∃ result, R.Gives r s i env (.ok result) ∧ result.erased = o := by
  obtain ⟨⟨budget, depth⟩, result, hresult, ho⟩ := (matches_iff hb (g := .object r) trivial env o).1 h
  exact ⟨result, ⟨budget, depth, hresult⟩, ho⟩

theorem matches_of_gives (hb : ∀ r, (R.rule r).Bounded) {r : Ref} {env : Value φ}
    {result : Result (Value φ)} (h : R.Gives r s i env (.ok result)) :
    R.Matches s (.object r) i env result.erased := by
  obtain ⟨budget, depth, hresult⟩ := h
  exact (matches_iff hb (g := .object r) trivial env _).2 ⟨(budget, depth), result, hresult, rfl⟩

/-- A grammar matches one thing at most. -/
theorem Matches.unique (hb : ∀ r, (R.rule r).Bounded) {g : Grammar φ} (hg : g.Bounded)
    {env : Value φ} {o o' : Option (Nat × Value φ)} (h : R.Matches s g i env o)
    (h' : R.Matches s g i env o') : o = o' := by
  obtain ⟨b, ⟨r, hr, rfl⟩, ⟨r', hr', rfl⟩⟩ :=
    ((answers_of_matches hb hg h).and (answers_of_matches hb hg h')).exists
  rw [Except.ok.inj (hr.symm.trans hr')]

end Rules

/-- A result in a world says what is matched, if objects are taken for what they stand for. -/
def Answered (R : Rules φ) (B : Bond φ) (w : World φ)
    (result : Result (Value φ)) (o : Option (Nat × Value φ)) : Prop :=
  ∃ result', Stated R B w (.ok result) (.ok result') ∧ result'.erased = o

theorem Stated.ok_left {o : Except (Fault φ) (Result (Value φ))} {result' : Result (Value φ)}
    (h : Stated R B w o (.ok result')) : ∃ result, o = .ok result := by
  obtain ⟨_, -, -, ho⟩ := h
  cases ho
  exact ⟨_, rfl⟩

theorem Stated.ok_right {o' : Except (Fault φ) (Result (Value φ))} {result : Result (Value φ)}
    (h : Stated R B w (.ok result) o') : ∃ result', o' = .ok result' := by
  obtain ⟨_, -, -, ho⟩ := h
  cases ho
  exact ⟨_, rfl⟩

/-- A plain value is not in need of taking objects for what they stand for. -/
theorem Stated.eq_of_plain {result result' : Result (Value φ)}
    (h : Stated R B w (.ok result) (.ok result')) (hv : result.value.Plain) :
    result = result' := by
  obtain ⟨_, -, -, hr⟩ := h
  cases hr with
  | ok hr => exact hr.eq_of_value (hr.value_like.eq_of_plain hv)

namespace Machine

variable {apply : Tools φ → φ → List (Value φ) → Machine φ (Value φ)}

/-- Grammars, and parser objects on the machine, answer exactly what is matched by ordered choice. -/
theorem matches_exactly (hpure : ∀ budget, PureFunctions apply budget R)
    (hb : ∀ r, (R.rule r).Bounded) (hw : Faithful R B w) {r r' : Ref}
    (hr : B.objects r = some r') {env env' : Value φ} (henv : Value.Like B env env') (s : Input)
    (i : Nat) :
    (∀ g o, g.Bounded → (R.Matches s g i env' o ↔
      ∃ b result, g.denote (R.within b) s i env' = .ok result ∧ result.erased = o)) ∧
    (∀ o, R.Matches s (.object r') i env' o → ∃ result w',
      ComesTo apply r s i env w (.ok result) w' ∧ Answered R B w' result o) ∧
    (∀ result w', ComesTo apply r s i env w (.ok result) w' →
      (∃ o, R.Matches s (.object r') i env' o ∧ Answered R B w' result o) ∧
      (result.value.Plain → R.Matches s (.object r') i env' result.erased)) := by
  refine ⟨fun g o hg => R.matches_iff hb hg env' o, fun o ho => ?_, fun result w' h => ?_⟩
  · obtain ⟨result', hgives, rfl⟩ := R.gives_of_matches hb ho
    obtain ⟨_, w', hcomes, hstated⟩ := comesTo_of_gives hgives hpure (le_refl B) hw hr henv
    obtain ⟨result, rfl⟩ := hstated.ok_left
    exact ⟨result, w', hcomes, result', hstated, rfl⟩
  · obtain ⟨_, hgives, hstated⟩ := h.stated hpure (le_refl B) hw hr henv
    obtain ⟨result', rfl⟩ := hstated.ok_right
    have hmatches := R.matches_of_gives hb hgives
    refine ⟨⟨_, hmatches, result', hstated, rfl⟩, fun hplain => ?_⟩
    rw [hstated.eq_of_plain hplain]
    exact hmatches

section

open Script (Function applyFunction)

theorem bounded_recursive (r : Ref) : (recursiveRules.rule r).Bounded := by
  match r with
  | 0 | 1 | 2 | 3 | 4 | 5 | _ + 7 => exact trivial
  | 6 => exact ⟨⟨trivial, trivial, trivial⟩, trivial, trivial⟩

/-- The rule that refers to itself, made now, takes the two characters of `"ab"` and the end. -/
theorem matches_exactly_recursive : ∃ result w', (recursive.deferral 0).target = .null ∧
    ComesTo (applyFunction []) 5 "ab".toList 0 .null recursive (.ok result) w' ∧
    result.erased = some (2, .list [.text "a", .list [.text "b", .null]]) ∧
    recursiveRules.Matches "ab".toList (.object 5) 0 .null result.erased := by
  obtain ⟨result, w', hrun, hresult, hplain⟩ : ∃ result w',
      (tools (applyFunction []) 9 9).run 5 "ab".toList 0 .null recursive =
        settledIn (.ok result) w' ∧
      result.erased = some (2, .list [.text "a", .list [.text "b", .null]]) ∧
      result.value.Plain := ⟨_, _, rfl, rfl, ⟨trivial, ⟨trivial, trivial, trivial⟩, trivial⟩⟩
  obtain ⟨-, -, hruns⟩ := matches_exactly pureFunctions_recursive bounded_recursive
    faithful_recursive (r := 5) rfl .null "ab".toList 0
  exact ⟨result, w', rfl, ⟨9, 9, hrun⟩, hresult, (hruns result w' ⟨9, 9, hrun⟩).2 hplain⟩

end

end Machine

end Furthest
