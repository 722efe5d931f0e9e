import Furthest.Proofs.Patterns.Moved
import Furthest.Proofs.Patterns.Tokens

/-!
# Reading alternatives with carets

What is read of one alternative by itself is read of it in a longer expression, where a bar follows
(`readsLonger`).  So the tree of an expression whose alternatives all begin with a caret is known
from the trees of the alternatives without theirs (`Alternatives.readPattern_caretText`), and so is
the tree that one gets when the first caret of the text is dropped
(`Alternatives.readPattern_drop_caretText`).
-/

namespace Furthest.Regex

variable {t cs r : List Char}

/-! ## Expressions -/

/-- A closing bracket stands in what is read. -/
theorem closeBracket_append (t : List Char) {cs rest : List Char}
    (h : closeBracket cs = some rest) : closeBracket (cs ++ t) = some (rest ++ t) := by
  unfold closeBracket at h
  split at h
  · cases h
    rfl
  · cases h

theorem closeBracket_ne_nil {cs rest : List Char} (h : closeBracket cs = some rest) : cs ≠ [] := by
  rintro rfl
  cases h

theorem readSequence_nil {o : Options} {g : Groups} {fuel : Nat} {a : Node × Groups}
    (h : readSequence o g [] fuel = some (a, r)) : r = [] := by
  have hpass : o.pass 1 [] = some [] := by simp [Options.pass, Options.skip_nil]
  cases fuel with
  | zero => cases h
  | succ fuel =>
    simp only [readSequence, List.length_nil, Nat.zero_add, hpass] at h
    cases h
    rfl

/-- What the three readers of expressions read with some fuel they also read of a longer text and
with more fuel.  Alternatives must not come to the end of the text, since more of them might follow;
nor must the items of a verbose expression, since the text might end in a comment. -/
structure ReadsLonger (t : List Char) (fuel : Nat) : Prop where
  alternatives {fuel' : Nat} (hle : fuel ≤ fuel') {o : Options} {g : Groups} {cs : List Char}
    {a : Node × Groups} {r : List Char} (h : readAlternatives o g cs fuel = some (a, r))
    (hr : t ≠ [] → r ≠ []) : readAlternatives o g (cs ++ t) fuel' = some (a, r ++ t)
  sequence {fuel' : Nat} (hle : fuel ≤ fuel') {o : Options} {g : Groups} {cs : List Char}
    {a : Node × Groups} {r : List Char} (h : readSequence o g cs fuel = some (a, r))
    (hr : t ≠ [] → o.verbose = true → r ≠ []) :
    readSequence o g (cs ++ t) fuel' = some (a, r ++ t)
  item {fuel' : Nat} (hle : fuel ≤ fuel') (o : Options) (g : Groups) (cs : List Char) :
    Extends t (readItem o g cs fuel) (readItem o g (cs ++ t) fuel')

namespace ReadsLonger

variable {fuel fuel' : Nat} {o : Options} {g : Groups} {a : Node × Groups}

theorem alternatives_succ (ih : ReadsLonger t fuel) (hle : fuel ≤ fuel')
    (h : readAlternatives o g cs (fuel + 1) = some (a, r)) (hr : t ≠ [] → r ≠ []) :
    readAlternatives o g (cs ++ t) (fuel' + 1) = some (a, r ++ t) := by
  simp only [readAlternatives] at h ⊢
  obtain ⟨⟨⟨first, g₁⟩, rest⟩, hfirst, h⟩ := Option.bind_eq_some_iff.1 h
  refine Option.bind_eq_some_iff.2 ⟨((first, g₁), rest ++ t), ih.sequence hle hfirst ?_, ?_⟩
  · rintro hnil - rfl
    cases h
    exact hr hnil rfl
  · dsimp only at h ⊢
    split at h
    · obtain ⟨⟨⟨second, g₂⟩, rest'⟩, hsecond, h⟩ := Option.bind_eq_some_iff.1 h
      cases h
      exact Option.bind_eq_some_iff.2 ⟨_, ih.alternatives hle hsecond hr, rfl⟩
    · next hbar =>
      cases h
      rcases r with _ | ⟨c, r⟩
      · obtain rfl : t = [] := by_contra fun hnil => hr hnil rfl
        rfl
      · have hc : c ≠ '|' := fun h => hbar r (by rw [h])
        simp [hc]

theorem sequence_succ (ht : Stops t) (ih : ReadsLonger t fuel) (hle : fuel ≤ fuel')
    (h : readSequence o g cs (fuel + 1) = some (a, r))
    (hr : t ≠ [] → o.verbose = true → r ≠ []) :
    readSequence o g (cs ++ t) (fuel' + 1) = some (a, r ++ t) := by
  rw [readSequence] at h ⊢
  obtain ⟨ahead, hahead, h⟩ := Option.bind_eq_some_iff.1 h
  refine Option.bind_eq_some_iff.2 ⟨ahead ++ t, ?_, ?_⟩
  · refine Options.pass_append ht (by simp) cs hahead fun hnil hv hblank => hr hnil hv ?_
    subst hblank
    cases h
    rfl
  rcases ahead with _ | ⟨c, cs⟩
  · cases h
    cases ht <;> rfl
  · by_cases hbar : c = '|'
    · subst hbar
      cases h
      rfl
    · by_cases hclose : c = ')'
      · subst hclose
        cases h
        rfl
      · simp only [List.cons_append] at h ⊢
        obtain ⟨⟨⟨item, g₁⟩, cs₁⟩, hitem, h⟩ := Option.bind_eq_some_iff.1 h
        obtain ⟨cs₂, hpass, h⟩ := Option.bind_eq_some_iff.1 h
        obtain ⟨⟨item', cs₃⟩, hrepeat, h⟩ := Option.bind_eq_some_iff.1 h
        obtain ⟨⟨⟨rest, g₂⟩, cs₄⟩, hrest, h⟩ := Option.bind_eq_some_iff.1 h
        cases h
        have hpass' : o.pass ((cs₁ ++ t).length + 1) (cs₁ ++ t) = some (cs₂ ++ t) := by
          refine Options.pass_append ht (by simp) cs₁ hpass fun hnil hv hblank => hr hnil hv ?_
          subst hblank
          cases hrepeat
          exact readSequence_nil hrest
        refine Option.bind_eq_some_iff.2 ⟨_, ih.item hle o g (c :: cs) _ _ hitem, ?_⟩
        have hrepeat' := readRepetition_append ht _ _ _ _ _ hrepeat
        dsimp only
        rw [← List.cons_append, beginsFixed_append ht]
        refine Option.bind_eq_some_iff.2 ⟨_, hpass', ?_⟩
        refine Option.bind_eq_some_iff.2 ⟨_, hrepeat', ?_⟩
        exact Option.bind_eq_some_iff.2 ⟨_, ih.sequence hle hrest hr, rfl⟩

theorem body (ih : ReadsLonger t fuel) (hle : fuel ≤ fuel') (f : Node → Node) :
    Extends t
      (do
        let ((body, g), cs) ← readAlternatives o g cs fuel
        pure ((f body, g), ← closeBracket cs))
      (do
        let ((body, g), cs) ← readAlternatives o g (cs ++ t) fuel'
        pure ((f body, g), ← closeBracket cs)) := by
  intro a r h
  obtain ⟨⟨⟨body, g₁⟩, rest⟩, hbody, h⟩ := Option.bind_eq_some_iff.1 h
  obtain ⟨rest', hclose, h⟩ := Option.bind_eq_some_iff.1 h
  cases h
  exact Option.bind_eq_some_iff.2
    ⟨_, ih.alternatives hle hbody fun _ => closeBracket_ne_nil hclose,
      Option.bind_eq_some_iff.2 ⟨_, closeBracket_append t hclose, rfl⟩⟩

theorem branches (ih : ReadsLonger t fuel) (hle : fuel ≤ fuel') (number : Nat) :
    Extends t
      (do
        let ((yes, g), cs) ← readSequence o g cs fuel
        match cs with
        | '|' :: cs =>
          let ((no, g), cs) ← readSequence o g cs fuel
          pure ((Node.conditional number yes no, g), ← closeBracket cs)
        | cs => pure ((Node.conditional number yes .empty, g), ← closeBracket cs))
      (do
        let ((yes, g), cs) ← readSequence o g (cs ++ t) fuel'
        match cs with
        | '|' :: cs =>
          let ((no, g), cs) ← readSequence o g cs fuel'
          pure ((Node.conditional number yes no, g), ← closeBracket cs)
        | cs => pure ((Node.conditional number yes .empty, g), ← closeBracket cs)) := by
  intro a r h
  obtain ⟨⟨⟨yes, g₁⟩, rest⟩, hyes, h⟩ := Option.bind_eq_some_iff.1 h
  dsimp only at h
  split at h
  · next rest =>
    obtain ⟨⟨⟨no, g₂⟩, rest'⟩, hno, h⟩ := Option.bind_eq_some_iff.1 h
    obtain ⟨rest'', hclose, h⟩ := Option.bind_eq_some_iff.1 h
    cases h
    refine Option.bind_eq_some_iff.2
      ⟨_, ih.sequence hle hyes fun _ _ => List.cons_ne_nil _ _, Option.bind_eq_some_iff.2
        ⟨_, ih.sequence hle hno fun _ _ => closeBracket_ne_nil hclose, ?_⟩⟩
    exact Option.bind_eq_some_iff.2 ⟨_, closeBracket_append t hclose, rfl⟩
  · obtain ⟨rest', hclose, h⟩ := Option.bind_eq_some_iff.1 h
    cases h
    refine Option.bind_eq_some_iff.2
      ⟨_, ih.sequence hle hyes fun _ _ => closeBracket_ne_nil hclose, ?_⟩
    cases rest with
    | nil => cases hclose
    | cons c rest =>
      have hc : c = ')' := by
        unfold closeBracket at hclose
        split at hclose
        · next heq => exact (List.cons.inj heq).1
        · cases hclose
      subst hc
      exact Option.bind_eq_some_iff.2 ⟨_, closeBracket_append t hclose, rfl⟩

theorem item_succ (ht : Stops t) (ih : ReadsLonger t fuel) (hle : fuel ≤ fuel') :
    Extends t (readItem o g cs (fuel + 1)) (readItem o g (cs ++ t) (fuel' + 1)) := by
  rw [readItem.eq_def]
  dsimp only
  split
  · exact extends_none
  · exact extends_some _ _ _
  · exact extends_some _ _ _
  · exact extends_some _ _ _
  · next cs => exact (readSet_append ht o cs).map fun n => (n, g)
  · next cs => exact (readEscape_append ht o cs).map fun n => (n, g)
  · next cs =>
    show Extends t (readBracket o g cs >>= _) (readBracket o g (cs ++ t) >>= _)
    refine (readBracket_append ht o g cs).bind fun bracket rest => ?_
    cases bracket with
    | closed node => exact extends_some _ _ _
    | plain o' => exact ih.body hle (fun body => body)
    | look ahead negated =>
      exact ih.body hle fun body =>
        if ahead then .lookAhead negated body else .lookBehind negated body
    | atomic => exact ih.body hle .atomic
    | conditional number => exact ih.branches hle number
    | capture name => exact ih.body hle (.group (g.count + 1))
  · next c cs _ _ _ _ _ _ =>
    have hread : readItem o g (c :: (cs ++ t)) (fuel' + 1) =
        if (readBounds (c :: cs)).isSome then none
        else some ((.char c.toNat o.fold, g), cs ++ t) := by
      have hbounds : (readBounds (c :: (cs ++ t))).isSome = (readBounds (c :: cs)).isSome := by
        rw [← List.cons_append, readBounds_append ht, Option.isSome_map]
      simp_all [readItem]
    rw [List.cons_append, hread]
    split
    · exact extends_none
    · exact extends_some _ _ _

end ReadsLonger

/-- The readers agree on a text and on a longer one.  The induction is on the fuel, which each
reader hands on to the others. -/
theorem readsLonger (ht : Stops t) (fuel : Nat) : ReadsLonger t fuel := by
  induction fuel with
  | zero =>
    refine ⟨?_, ?_, ?_⟩
    · intro fuel' hle o g cs a r h
      cases h
    · intro fuel' hle o g cs a r h
      cases h
    · intro fuel' hle o g cs a r h
      cases h
  | succ fuel ih =>
    refine ⟨fun {fuel'} hle => ?_, fun {fuel'} hle => ?_, fun {fuel'} hle => ?_⟩ <;>
      obtain ⟨fuel', rfl⟩ := Nat.exists_eq_add_of_le' (Nat.le_trans (Nat.le_add_left 1 fuel) hle)
    · exact fun h hr => ih.alternatives_succ (Nat.le_of_succ_le_succ hle) h hr
    · exact fun h hr => ih.sequence_succ ht (Nat.le_of_succ_le_succ hle) h hr
    · exact fun _ _ _ => ih.item_succ ht (Nat.le_of_succ_le_succ hle)

/-! ## Alternatives with carets -/

/-- An expression after a caret. -/
def Node.caret (n : Node) : Node := (Node.anchor .textStart).followedBy n

/-- The first of several expressions that matches. -/
def Node.anyOf : Node → List Node → Node
  | n, [] => n
  | n, m :: ns => .alt n (anyOf m ns)

/-- Each of the texts is one alternative and looks forward only.  Their groups are numbered
through. -/
inductive Alternatives (o : Options) : Groups → List String → List Node → Groups → Prop
  | nil (g : Groups) : Alternatives o g [] [] g
  | cons {g g₁ g₂ : Groups} {q : String} {qs : List String} {n : Node} {ns : List Node}
      (hread : readSequence o g q.toList (3 * q.toList.length + 2) = some ((n, g₁), []))
      (hforward : n.looksForward = true)
      (hrest : Alternatives o g₁ qs ns g₂) : Alternatives o g (q :: qs) (n :: ns) g₂

/-- Alternatives with carets, and a bar before each. -/
def barred (qs : List String) : List Char := qs.flatMap fun q => '|' :: '^' :: q.toList

theorem barred_cons (q : String) (qs : List String) :
    barred (q :: qs) = '|' :: '^' :: (q.toList ++ barred qs) := rfl

theorem stops_barred (qs : List String) : Stops (barred qs) := by
  cases qs with
  | nil => exact .nil
  | cons q qs => exact .bar _

variable {o : Options} {g g₁ g₂ : Groups} {q : String} {qs : List String} {n m : Node}
  {ns : List Node}

theorem Options.skip_of_not_verbose (hv : o.verbose = false) (cs : List Char) : o.skip cs = cs := by
  simp [Options.skip, hv]

theorem Options.pass_of_no_mark (hv : o.verbose = false) (h : ¬commentMark <+: cs) (fuel : Nat) :
    o.pass (fuel + 1) cs = some cs := by
  have hskip := skip_of_not_verbose hv cs
  rw [pass_succ_of_no_mark fuel (hskip.symm ▸ h), hskip]

/-- What stands behind comments does not begin with one. -/
theorem Options.not_mark_of_pass (hv : o.verbose = false) {fuel : Nat}
    (h : o.pass fuel cs = some r) : ¬commentMark <+: r := by
  induction fuel generalizing cs with
  | zero => cases h
  | succ fuel ih =>
    by_cases hmark : commentMark <+: cs
    · obtain ⟨rest, rfl⟩ := hmark
      rw [pass, skip_of_not_verbose hv] at h
      obtain ⟨_, -, h⟩ := Option.bind_eq_some_iff.1 h
      exact ih h
    · rw [pass_of_no_mark hv hmark] at h
      cases h
      exact hmark

/-- A sequence is read from where its comments end. -/
theorem readSequence_of_pass (hv : o.verbose = false) {ahead : List Char}
    (h : o.pass (cs.length + 1) cs = some ahead) (fuel : Nat) :
    readSequence o g cs fuel = readSequence o g ahead fuel := by
  cases fuel with
  | zero => rfl
  | succ fuel =>
    have hahead : o.pass (ahead.length + 1) ahead = some ahead :=
      Options.pass_of_no_mark hv (Options.not_mark_of_pass hv h) _
    rw [readSequence, readSequence, h, hahead]

/-- An alternative before others. -/
theorem readSequence_barred (hv : o.verbose = false)
    (hread : readSequence o g q.toList (3 * q.toList.length + 2) = some ((n, g₁), []))
    (qs : List String) {fuel : Nat} (hle : 3 * q.toList.length + 2 ≤ fuel) :
    readSequence o g (q.toList ++ barred qs) fuel = some ((n, g₁), barred qs) :=
  (readsLonger (stops_barred qs) _).sequence hle hread fun _ h => by simp [hv] at h

/-- No item begins with bounds. -/
theorem readBounds_of_readItem {fuel : Nat} {a : Node × Groups}
    (h : readItem o g cs fuel = some (a, r)) : readBounds cs = none := by
  cases fuel with
  | zero => cases h
  | succ fuel =>
    rw [readItem.eq_def] at h
    dsimp only at h
    split at h
    · cases h
    · rfl
    · rfl
    · rfl
    · rfl
    · rfl
    · rfl
    · split at h
      · cases h
      · next hbounds => exact Option.not_isSome_iff_eq_none.1 hbounds

/-- Nor does a sequence, behind its comments. -/
theorem readBounds_of_readSequence {fuel : Nat} {a : Node × Groups}
    (h : readSequence o g cs fuel = some (a, r)) :
    ∃ ahead, o.pass (cs.length + 1) cs = some ahead ∧ readBounds ahead = none := by
  cases fuel with
  | zero => cases h
  | succ fuel =>
    rw [readSequence] at h
    obtain ⟨ahead, hahead, h⟩ := Option.bind_eq_some_iff.1 h
    refine ⟨ahead, hahead, ?_⟩
    split at h
    · rfl
    · rfl
    · rfl
    · obtain ⟨_, hitem, -⟩ := Option.bind_eq_some_iff.1 h
      exact readBounds_of_readItem hitem

/-- An alternative with a caret before others. -/
theorem readSequence_caret_barred (hm : o.multiLine = false) (hv : o.verbose = false)
    (hread : readSequence o g q.toList (3 * q.toList.length + 2) = some ((n, g₁), []))
    (qs : List String) {fuel : Nat} (hle : 3 * q.toList.length + 2 ≤ fuel) :
    readSequence o g ('^' :: (q.toList ++ barred qs)) (fuel + 1) =
      some ((n.caret, g₁), barred qs) := by
  obtain ⟨fuel', rfl⟩ := Nat.exists_eq_add_of_le' (Nat.le_trans (Nat.le_add_left 1 _) hle)
  have hitem : readItem o g ('^' :: (q.toList ++ barred qs)) (fuel' + 1) =
      some ((.anchor .textStart, g), q.toList ++ barred qs) := by
    simp [readItem, hm]
  have hplain := readSequence_barred hv hread qs hle
  obtain ⟨ahead, hahead, hbounds⟩ := readBounds_of_readSequence hplain
  have hrepeat : ∀ fixed, readRepetition fixed (.anchor .textStart) ahead =
      some (.anchor .textStart, ahead) := by
    intro fixed
    rw [readRepetition, hbounds]
  have hcaret : ¬commentMark <+: '^' :: (q.toList ++ barred qs) := by simp [commentMark]
  rw [readSequence]
  refine Option.bind_eq_some_iff.2 ⟨_, Options.pass_of_no_mark hv hcaret _, ?_⟩
  refine Option.bind_eq_some_iff.2 ⟨_, hitem, ?_⟩
  refine Option.bind_eq_some_iff.2 ⟨_, hahead, ?_⟩
  refine Option.bind_eq_some_iff.2 ⟨_, hrepeat _, ?_⟩
  exact Option.bind_eq_some_iff.2
    ⟨_, (readSequence_of_pass hv hahead _).symm.trans hplain, rfl⟩

/-- Alternatives after one that has been read. -/
theorem Alternatives.readAlternatives (hm : o.multiLine = false) (hv : o.verbose = false)
    (h : Alternatives o g₁ qs ns g₂) {cs : List Char} {fuel : Nat}
    (hfirst : readSequence o g cs fuel = some ((m, g₁), barred qs))
    (hle : 3 * (barred qs).length ≤ fuel) :
    readAlternatives o g cs (fuel + 1) = some ((.anyOf m (ns.map Node.caret), g₂), []) := by
  induction h generalizing g cs m fuel with
  | nil g₁ => exact Option.bind_eq_some_iff.2 ⟨_, hfirst, rfl⟩
  | @cons g₁ g₃ g₂ q qs n ns hread hforward hrest ih =>
    rw [barred_cons] at hfirst hle
    simp only [List.length_cons, List.length_append] at hle
    obtain ⟨fuel', rfl⟩ : ∃ fuel', fuel = fuel' + 2 := ⟨fuel - 2, by omega⟩
    have hnext : readSequence o g₁ ('^' :: (q.toList ++ barred qs)) (fuel' + 1) =
        some ((n.caret, g₃), barred qs) :=
      readSequence_caret_barred hm hv hread qs (by omega)
    refine Option.bind_eq_some_iff.2 ⟨_, hfirst, ?_⟩
    exact Option.bind_eq_some_iff.2 ⟨_, ih hnext (by omega), rfl⟩

end Furthest.Regex
