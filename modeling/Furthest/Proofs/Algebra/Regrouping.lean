import Furthest.Proofs.Algebra.Bracketing
import Furthest.Proofs.Algebra.Sequences

/-!
# Regrouping

How sequences and alternatives are grouped is not seen, on whole results and with all effects: the
labels of what failed are the same and in the same order.  For alternatives this holds of all
behaviours, because nothing but a merge stands between the attempts (`alt_append`).  An inner
sequence ends in one more merge, with a match of nothing, which adds nothing to grounded reports
(`seq_append`).
-/

namespace Furthest

variable {φ σ : Type}

namespace Behaviour

/-! ## Alternatives -/

section

variable {p q : Behaviour (EStateM (Halt φ) σ) φ} {ps qs : List (Behaviour (EStateM (Halt φ) σ) φ)}

/-- Going on with more attempts after a result, unless it is a match. -/
def orElse (s : Input) (i : Nat) (env : Value φ) (ps : List (Behaviour (EStateM (Halt φ) σ) φ))
    (r : Result (Value φ)) : EStateM (Halt φ) σ (Result (Value φ)) :=
  if r.status then pure r else altFrom s i env ps r

theorem orElse_nil (s : Input) (i : Nat) (env : Value φ) :
    orElse s i env ([] : List (Behaviour (EStateM (Halt φ) σ) φ)) = pure := by
  funext r
  by_cases hs : r.status = true
  · rw [orElse, if_pos hs]
  · rw [orElse, if_neg hs]
    rfl

theorem alt_apply (p : Behaviour (EStateM (Halt φ) σ) φ)
    (ps : List (Behaviour (EStateM (Halt φ) σ) φ)) (s : Input) (i : Nat) (env : Value φ) :
    alt p ps s i env = p s i env >>= orElse s i env ps := rfl

theorem orElse_cons (s : Input) (i : Nat) (env : Value φ) (p : Behaviour (EStateM (Halt φ) σ) φ)
    (ps : List (Behaviour (EStateM (Halt φ) σ) φ)) {r : Result (Value φ)} (hs : r.status = false) :
    orElse s i env (p :: ps) r = p s i env >>= fun r' => orElse s i env ps (r'.merge r) := by
  rw [orElse, hs]
  rfl

theorem orElse_of_match (s : Input) (i : Nat) (env : Value φ)
    (ps : List (Behaviour (EStateM (Halt φ) σ) φ)) {r : Result (Value φ)} (hs : r.status = true) :
    orElse s i env ps r = pure r := by
  rw [orElse, if_pos hs]

theorem alt_nil (p : Behaviour (EStateM (Halt φ) σ) φ) : alt p [] = p := by
  funext s i env
  rw [alt_apply, orElse_nil, bind_pure]

/-- More attempts after some. -/
theorem orElse_append (s : Input) (i : Nat) (env : Value φ)
    (ps qs : List (Behaviour (EStateM (Halt φ) σ) φ)) (r : Result (Value φ)) :
    orElse s i env (ps ++ qs) r = orElse s i env ps r >>= orElse s i env qs := by
  induction ps generalizing r with
  | nil => rw [orElse_nil, pure_bind, List.nil_append]
  | cons p ps ih =>
    cases hs : r.status with
    | true => rw [orElse_of_match _ _ _ _ hs, orElse_of_match _ _ _ _ hs, pure_bind,
        orElse_of_match _ _ _ _ hs]
    | false => simp only [List.cons_append, orElse_cons _ _ _ _ _ hs, bind_assoc, ih]

/-- What failed before may be merged first or last. -/
theorem orElse_merge (s : Input) (i : Nat) (env : Value φ)
    (ps : List (Behaviour (EStateM (Halt φ) σ) φ)) (r older : Result (Value φ)) :
    orElse s i env ps (r.merge older) =
      orElse s i env ps r >>= fun r' => pure (r'.merge older) := by
  induction ps generalizing r with
  | nil => rw [orElse_nil, pure_bind]
  | cons p ps ih =>
    cases hs : r.status with
    | true =>
      have hs' : (r.merge older).status = true := hs
      rw [orElse_of_match _ _ _ _ hs, orElse_of_match _ _ _ _ hs', pure_bind]
    | false =>
      have hs' : (r.merge older).status = false := hs
      simp only [orElse_cons _ _ _ _ _ hs, orElse_cons _ _ _ _ _ hs', bind_assoc, ← ih,
        Result.merge_assoc]

/-- Alternatives that come first may be grouped. -/
theorem alt_alt (p : Behaviour (EStateM (Halt φ) σ) φ)
    (ps qs : List (Behaviour (EStateM (Halt φ) σ) φ)) : alt (alt p ps) qs = alt p (ps ++ qs) := by
  funext s i env
  rw [alt_apply, alt_apply, alt_apply, bind_assoc]
  exact bind_congr fun r => (orElse_append s i env ps qs r).symm

/-- Alternatives that come last may be grouped. -/
theorem alt_cons (p q : Behaviour (EStateM (Halt φ) σ) φ)
    (qs : List (Behaviour (EStateM (Halt φ) σ) φ)) : alt p [alt q qs] = alt p (q :: qs) := by
  funext s i env
  rw [alt_apply, alt_apply]
  refine bind_congr fun r => ?_
  cases hs : r.status with
  | true => rw [orElse_of_match _ _ _ _ hs, orElse_of_match _ _ _ _ hs]
  | false => simp only [orElse_cons _ _ _ _ _ hs, alt_apply, bind_assoc, orElse_nil, orElse_merge,
      pure_bind]

/-- Alternatives may be grouped in two at any place. -/
theorem alt_append (p q : Behaviour (EStateM (Halt φ) σ) φ)
    (ps qs : List (Behaviour (EStateM (Halt φ) σ) φ)) :
    alt p (ps ++ q :: qs) = alt (alt p ps) [alt q qs] := by
  rw [alt_cons, alt_alt]

/-- The first of two that matches. -/
def either (p q : Behaviour (EStateM (Halt φ) σ) φ) : Behaviour (EStateM (Halt φ) σ) φ := alt p [q]

theorem either_assoc (p q r : Behaviour (EStateM (Halt φ) σ) φ) :
    either (either p q) r = either p (either q r) := by
  rw [either, either, alt_alt, either, either, alt_cons, List.singleton_append]

theorem foldl_either (p : Behaviour (EStateM (Halt φ) σ) φ)
    (ps : List (Behaviour (EStateM (Halt φ) σ) φ)) : ps.foldl either p = alt p ps := by
  induction ps generalizing p with
  | nil => exact (alt_nil p).symm
  | cons q ps ih => rw [List.foldl_cons, ih, either, alt_alt, List.singleton_append]

/-- However choices between two are nested, they come to the choice between all of them. -/
theorem combine_either (t : Bracketing (Behaviour (EStateM (Halt φ) σ) φ))
    {p : Behaviour (EStateM (Halt φ) σ) φ} {ps : List (Behaviour (EStateM (Halt φ) σ) φ)}
    (h : t.toList = p :: ps) : t.combine either = alt p ps := by
  rw [t.combine_eq_foldl either_assoc h, foldl_either]

end

end Behaviour

/-! ## Operators -/

/-- One of the items of a list. -/
def Value.itemAt (k : Nat) : Value φ → Value φ
  | .list items => items[k]?.getD .null
  | v => v

namespace Grammar

open Behaviour

variable {host : Host (EStateM (Halt φ) σ) φ} {b : Grammar φ}

theorem denote_seqItem (host : Host (EStateM (Halt φ) σ) φ) (ps : List (Grammar φ)) (k : Nat) :
    (seqItem ps k).denote host = mapValue (Behaviour.seq (ps.map (denote host))) (.itemAt k) := by
  rw [seqItem, denote_mapEnv, denote_seq, mapValue]
  congr 1
  funext v _
  cases v <;> rfl

theorem denote_skip (a : Grammar φ) (hb : Grounded (b.denote host)) :
    (skip a b).denote host = pairWith (a.denote host) (b.denote host) fun v _ => v := by
  rw [skip, denote_seqItem]
  exact mapValue_seq_pair _ hb _

theorem denote_skipLeft (a : Grammar φ) (hb : Grounded (b.denote host)) :
    (skipLeft a b).denote host = pairWith (a.denote host) (b.denote host) fun _ v => v := by
  rw [skipLeft, denote_seqItem]
  exact mapValue_seq_pair _ hb _

end Grammar

namespace Behaviour

/-- How sequences and choices are grouped is not seen.  A sequence may be cut in two at any place if
its parts are grounded; a choice may be cut anyway, and every nesting of choices between two is the
choice between all of them.  The operators that keep one value of two regroup as well. -/
theorem regrouped :
    (∀ ps qs : List (Behaviour (EStateM (Halt φ) σ) φ),
      (∀ p ∈ ps, Grounded p) → (∀ q ∈ qs, Grounded q) →
      seq (ps ++ qs) = appended (seq ps) (seq qs)) ∧
    (∀ (p q : Behaviour (EStateM (Halt φ) σ) φ) (ps qs : List (Behaviour (EStateM (Halt φ) σ) φ)),
      alt p (ps ++ q :: qs) = alt (alt p ps) [alt q qs]) ∧
    (∀ (t : Bracketing (Behaviour (EStateM (Halt φ) σ) φ)) (p : Behaviour (EStateM (Halt φ) σ) φ)
      (ps : List (Behaviour (EStateM (Halt φ) σ) φ)),
      t.toList = p :: ps → t.combine either = alt p ps) ∧
    ∀ (host : Host (EStateM (Halt φ) σ) φ) (a b c : Grammar φ),
      Grounded (a.denote host) → Grounded (b.denote host) → Grounded (c.denote host) →
      (Grammar.skipLeft (.skipLeft a b) c).denote host =
        (Grammar.skipLeft a (.skipLeft b c)).denote host ∧
      (Grammar.skip (.skip a b) c).denote host = (Grammar.skip a (.skip b c)).denote host ∧
      (Grammar.skip (.skipLeft a b) c).denote host =
        (Grammar.skipLeft a (.skip b c)).denote host := by
  refine ⟨fun ps qs => seq_append, fun p q ps qs => alt_append p q ps qs,
    fun t p ps => combine_either t, fun host a b c _ hb hc => ?_⟩
  have hskip : Grounded ((Grammar.skip b c).denote host) := by
    rw [Grammar.denote_skip b hc]
    exact grounded_pairWith hb hc _
  have hskipLeft : Grounded ((Grammar.skipLeft b c).denote host) := by
    rw [Grammar.denote_skipLeft b hc]
    exact grounded_pairWith hb hc _
  refine ⟨?_, ?_, ?_⟩
  · rw [Grammar.denote_skipLeft _ hc, Grammar.denote_skipLeft _ hb,
      Grammar.denote_skipLeft _ hskipLeft, Grammar.denote_skipLeft _ hc]
    exact pairWith_assoc _ hc fun _ _ _ => rfl
  · rw [Grammar.denote_skip _ hc, Grammar.denote_skip _ hb, Grammar.denote_skip _ hskip,
      Grammar.denote_skip _ hc]
    exact pairWith_assoc _ hc fun _ _ _ => rfl
  · rw [Grammar.denote_skip _ hc, Grammar.denote_skipLeft _ hb, Grammar.denote_skipLeft _ hskip,
      Grammar.denote_skip _ hc]
    exact pairWith_assoc _ hc fun _ _ _ => rfl

section

/-- A literal text. -/
def literal (text : String) : Behaviour (EStateM (Halt Empty) Unit) Empty := leaf (Leaf.string text)

/-- A host that is never asked for anything. -/
def idle : Host (EStateM (Halt Empty) Unit) Empty where
  object _ := literal ""
  deferred _ := literal ""
  call v _ := pure v
  describe _ := pure ""
  log _ := pure ⟨⟩
  budget := 0

/-- On `abx` the last part of a sequence matches at its second attempt, and the sequence in two
keeps what the first one expected.  Choices nested to the right are one choice.  Of `a`, `b` and `c`
the last one is missed, and reported, however the three are grouped. -/
theorem regrouped_literals :
    (∀ text, Grounded (literal text)) ∧
    appended (seq [literal "a"]) (seq [either (literal "bc") (literal "b")]) "abx".toList 0 .null ()
      = .ok ⟨⟨2, ["'bc'"]⟩, true, 2, .list [.text "a", .text "b"]⟩ () ∧
    either (literal "a") (either (literal "b") (literal "c")) =
      alt (literal "a") [literal "b", literal "c"] ∧
    (Grammar.skip (.skipLeft (.string "a") (.string "b")) (.string "c")).denote idle "abx".toList 0
      .null () = .ok ⟨⟨2, ["'c'"]⟩, false, 2, .null⟩ () := by
  have hgrounded : ∀ text, Grounded (literal text) := fun text => grounded_string text
  have heither : Grounded (either (literal "bc") (literal "b")) :=
    grounded_alt (hgrounded _) (by simpa using hgrounded _)
  obtain ⟨hseq, -, hnested, hoperators⟩ := regrouped (φ := Empty) (σ := Unit)
  refine ⟨hgrounded, ?_, ?_, ?_⟩
  · rw [← hseq [literal "a"] [either (literal "bc") (literal "b")] (by simpa using hgrounded _)
      (by simpa using heither)]
    rfl
  · exact hnested (.both (.single _) (.both (.single _) (.single _))) _ _ rfl
  · rw [(hoperators idle (.string "a") (.string "b") (.string "c") (hgrounded _) (hgrounded _)
      (hgrounded _)).2.2]
    rfl

end

end Behaviour

end Furthest
