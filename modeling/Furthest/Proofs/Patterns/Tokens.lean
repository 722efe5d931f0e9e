import Mathlib.Data.List.TakeDrop
import Furthest.Regex.Reader

/-!
# What the parts of a regular expression take of a text

The readers of escapes, sets, bounds, comments and brackets decide by the next characters where to
stop.  None of them goes past a bar, nor past the end of a part that is complete.  So what they read
of a text they read of a longer one too, if the text is complete or a bar comes next (`Stops`), and
they leave the rest of it (`Extends`): `readCharEscape_append`, `readSet_append`,
`readRepetition_append`, `Options.pass_append`, `readEscape_append`, `readBracket_append`.
-/

namespace Furthest.Regex

/-- A text at which an alternative ends: the end, or a bar. -/
inductive Stops : List Char → Prop
  | nil : Stops []
  | bar (t : List Char) : Stops ('|' :: t)

variable {t cs r : List Char}

/-- What is read of a text is read of a longer one, and the rest is longer by as much. -/
def Extends {α : Type} (t : List Char) (x y : Option (α × List Char)) : Prop :=
  ∀ a r, x = some (a, r) → y = some (a, r ++ t)

section

variable {α β γ : Type} {x y : Option (α × List Char)}

theorem extends_some (a : α) (r t : List Char) : Extends t (some (a, r)) (some (a, r ++ t)) := by
  rintro _ _ ⟨⟩
  rfl

theorem extends_none : Extends t none y := by
  rintro _ _ ⟨⟩

theorem extends_map_some (z : Option γ) (f : γ → α) (r t : List Char) :
    Extends t (z.map fun c => (f c, r)) (z.map fun c => (f c, r ++ t)) := by
  cases z with
  | none => exact extends_none
  | some c => exact extends_some _ _ _

theorem Extends.map (h : Extends t x y) (f : α → β) :
    Extends t (x.map fun (a, cs) => (f a, cs)) (y.map fun (a, cs) => (f a, cs)) := by
  intro b r hx
  obtain ⟨⟨a, r'⟩, hx, heq⟩ := Option.map_eq_some_iff.1 hx
  cases heq
  rw [h a r hx, Option.map_some]

theorem Extends.bind (h : Extends t x y) {f g : α × List Char → Option (β × List Char)}
    (hfg : ∀ a r, Extends t (f (a, r)) (g (a, r ++ t))) : Extends t (x >>= f) (y >>= g) := by
  intro b r hx
  obtain ⟨⟨a, r'⟩, hx, hf⟩ := Option.bind_eq_some_iff.1 hx
  exact Option.bind_eq_some_iff.2 ⟨_, h a r' hx, hfg a r' b r hf⟩

end

/-- A mark without a bar that a longer text starts with stands in the text itself. -/
theorem isPrefix_of_append (ht : Stops t) {mark : List Char} (hbar : '|' ∉ mark)
    (h : mark <+: cs ++ t) : mark <+: cs := by
  induction mark generalizing cs with
  | nil => exact List.nil_prefix
  | cons m mark ih =>
    obtain ⟨hm, hbar⟩ := not_or.1 (mt List.mem_cons.2 hbar)
    cases cs with
    | nil =>
      cases ht with
      | nil => exact h
      | bar t => exact absurd (List.cons_prefix_cons.1 h).1.symm hm
    | cons c cs =>
      obtain ⟨hmc, h⟩ := List.cons_prefix_cons.1 h
      exact List.cons_prefix_cons.2 ⟨hmc, ih hbar h⟩

/-! ## Numbers and escapes -/

theorem readHex_append (t : List Char) (width value : Nat) (cs : List Char) :
    Extends t (readHex width value cs) (readHex width value (cs ++ t)) := by
  fun_induction readHex width value cs with
  | case1 value cs => exact extends_some _ _ _
  | case2 value width c cs ih =>
    intro a r h
    obtain ⟨d, hd, h⟩ := Option.bind_eq_some_iff.1 h
    exact Option.bind_eq_some_iff.2 ⟨d, hd, ih d a r h⟩
  | case3 => exact extends_none

theorem readOctal_append (ht : Stops t) (width value : Nat) (cs : List Char) :
    readOctal width value (cs ++ t) =
      ((readOctal width value cs).1, (readOctal width value cs).2 ++ t) := by
  fun_induction readOctal width value cs with
  | case1 width value c cs hc ih => simpa [readOctal, hc] using ih
  | case2 width value c cs hc => simp [readOctal, hc]
  | case3 width value cs h =>
    cases width with
    | zero => simp [readOctal]
    | succ width =>
      cases cs with
      | nil => cases ht <;> simp [readOctal, isOctal]
      | cons c cs => exact (h width c cs rfl rfl).elim

theorem readCharEscape_append (ht : Stops t) (cs : List Char) :
    Extends t (readCharEscape cs) (readCharEscape (cs ++ t)) := by
  fun_cases readCharEscape cs with
  | case1 | case2 | case3 | case4 | case5 | case6 => exact extends_some _ _ _
  | case7 | case8 | case9 => exact readHex_append t _ 0 _
  | case10 cs =>
    show Extends t (some (readOctal 2 0 cs)) (some (readOctal 2 0 (cs ++ t)))
    rw [readOctal_append ht]
    exact extends_some _ _ _
  | case11 => exact extends_none
  | case12 c cs _ _ _ _ _ _ _ _ _ _ halnum =>
    have hread : ∀ cs, readCharEscape (c :: cs) = some (c.toNat, cs) := by
      intro cs
      simp_all [readCharEscape]
    rw [List.cons_append, hread]
    exact extends_some _ _ _
  | case13 => exact extends_none

theorem span_append (ht : Stops t) {pass : Char → Bool} (hbar : pass '|' = false)
    {low rest : List Char} (h : cs.span pass = (low, rest)) :
    (cs ++ t).span pass = (low, rest ++ t) := by
  rw [List.span_eq_takeWhile_dropWhile] at h ⊢
  cases h
  induction cs with
  | nil => cases ht <;> simp [hbar]
  | cons c cs ih => cases hc : pass c <;> simp_all

theorem readUntil_append (t : List Char) (stop : Char) (cs : List Char) :
    Extends t (readUntil stop cs) (readUntil stop (cs ++ t)) := by
  induction cs with
  | nil => exact extends_none
  | cons c cs ih =>
    rw [List.cons_append, readUntil, readUntil]
    split
    · exact extends_some _ _ _
    · exact ih.map _

/-! ## Bracketed sets -/

theorem readMember_append (ht : Stops t) (cs : List Char) {a : SetItem} {r : List Char}
    (h : readMember cs = some (a, r)) (hr : r ≠ []) :
    readMember (cs ++ t) = some (a, r ++ t) := by
  fun_cases readMember cs with
  | case1 cs => cases h; rfl
  | case2 c cs hb kind negated hc => simp_all [readMember]
  | case3 c cs hb hc ho code r' hread =>
    simp only [readMember, hc, ho, if_true, hread] at h
    cases h
    have happend := readOctal_append ht 3 0 (c :: cs)
    rw [hread, List.cons_append] at happend
    simp [readMember, hc, ho, happend]
  | case4 c cs hb hc ho =>
    have hread : ∀ cs, readMember ('\\' :: c :: cs) =
        (readCharEscape (c :: cs)).map fun x => (SetItem.char x.1, x.2) := by
      intro cs
      simp [readMember, hc, ho]
    rw [hread] at h
    rw [List.cons_append, List.cons_append, hread]
    exact (readCharEscape_append ht (c :: cs)).map SetItem.char a r h
  | case5 c cs hb hc =>
    obtain ⟨rfl, rfl⟩ : SetItem.char c.toNat = a ∧ cs = r := by simpa [readMember] using h
    cases cs with
    | nil => exact absurd rfl hr
    | cons d cs =>
      have hescape : c ≠ '\\' := fun h => hc d cs h rfl
      simp [readMember, hescape]
  | case6 => cases h

theorem readMemberOrRange_append (ht : Stops t) (cs : List Char) {a : SetItem} {r : List Char}
    (h : readMemberOrRange cs = some (a, r)) (hr : r ≠ []) (hdash : r ≠ ['-']) :
    readMemberOrRange (cs ++ t) = some (a, r ++ t) := by
  obtain ⟨⟨item, rest⟩, hitem, h⟩ := Option.bind_eq_some_iff.1 h
  dsimp only at h
  split at h
  · next low c rest =>
    have hitem' := readMember_append ht cs hitem (List.cons_ne_nil _ _)
    split at h
    · next hc =>
      cases h
      simp [readMemberOrRange, hitem', hc]
    · next hc =>
      obtain ⟨⟨high, r'⟩, hhigh, h⟩ := Option.bind_eq_some_iff.1 h
      dsimp only at h
      split at h
      · cases h
        have hhigh' := readMember_append ht (c :: rest) hhigh hr
        rw [List.cons_append] at hhigh'
        simp [readMemberOrRange, hitem', hc, hhigh']
      · cases h
  · next hrange =>
    cases h
    have hitem' := readMember_append ht cs hitem hr
    simp only [readMemberOrRange, hitem', Option.bind_eq_bind, Option.bind_some]
    split
    · next low c rest heq =>
      -- a dash and one more character came before the end already
      rcases r with _ | ⟨x, _ | ⟨y, r⟩⟩
      · exact absurd rfl hr
      · cases heq
        exact absurd rfl hdash
      · cases heq
        exact (hrange _ _ _ rfl rfl).elim
    · rfl

theorem readMembers_nil (fuel : Nat) (first : Bool) : readMembers fuel first [] = none := by
  cases fuel <;> cases first <;> rfl

theorem readMembers_dash (fuel : Nat) : readMembers fuel false ['-'] = none := by
  cases fuel with
  | zero => rfl
  | succ fuel => simp [readMembers, readMemberOrRange, readMember, readMembers_nil]

/-- A member of a set that is not closed yet. -/
theorem readMembers_cons {first : Bool} {c : Char} (h : ¬(first = false ∧ c = ']')) (fuel : Nat)
    (cs : List Char) : readMembers (fuel + 1) first (c :: cs) = (do
      let (item, cs) ← readMemberOrRange (c :: cs)
      let (items, cs) ← readMembers fuel false cs
      pure (item :: items, cs)) := by
  cases first <;> simp_all [readMembers]

/-- The members of a set end at its closing bracket, so it does not matter what follows. -/
theorem readMembers_append (ht : Stops t) {fuel fuel' : Nat} (hle : fuel ≤ fuel') (first : Bool)
    (cs : List Char) :
    Extends t (readMembers fuel first cs) (readMembers fuel' first (cs ++ t)) := by
  induction fuel generalizing fuel' first cs with
  | zero => exact extends_none
  | succ fuel ih =>
    obtain ⟨fuel', rfl⟩ := Nat.exists_eq_add_of_le' (Nat.le_trans (Nat.le_add_left 1 fuel) hle)
    have hle : fuel ≤ fuel' := Nat.le_of_succ_le_succ hle
    intro a r h
    cases cs with
    | nil => simp [readMembers_nil] at h
    | cons c cs =>
      by_cases hclose : first = false ∧ c = ']'
      · obtain ⟨rfl, rfl⟩ := hclose
        cases h
        rfl
      · rw [readMembers_cons hclose] at h
        obtain ⟨⟨item, rest⟩, hitem, h⟩ := Option.bind_eq_some_iff.1 h
        obtain ⟨⟨items, rest'⟩, hitems, h⟩ := Option.bind_eq_some_iff.1 h
        cases h
        have hrest : rest ≠ [] := by
          rintro rfl
          simp [readMembers_nil] at hitems
        have hdash : rest ≠ ['-'] := by
          rintro rfl
          simp [readMembers_dash] at hitems
        rw [List.cons_append, readMembers_cons hclose]
        exact Option.bind_eq_some_iff.2
          ⟨_, readMemberOrRange_append ht (c :: cs) hitem hrest hdash,
            Option.bind_eq_some_iff.2 ⟨_, ih hle false rest _ _ hitems, rfl⟩⟩

theorem readSetMembers_append (ht : Stops t) (o : Options) (negated : Bool) (cs : List Char) :
    Extends t (readSetMembers o negated cs) (readSetMembers o negated (cs ++ t)) := by
  have hle : cs.length + 1 ≤ (cs ++ t).length + 1 := by simp
  exact (readMembers_append ht hle true cs).map fun items =>
    Node.set ⟨items, negated, o.fold, o.ascii⟩

theorem readSet_append (ht : Stops t) (o : Options) (cs : List Char) :
    Extends t (readSet o cs) (readSet o (cs ++ t)) := by
  fun_cases readSet o cs with
  | case1 cs => exact readSetMembers_append ht o true cs
  | case2 cs hcaret =>
    cases cs with
    | nil => exact extends_none
    | cons c cs =>
      have hc : c ≠ '^' := fun h => hcaret cs (by rw [h])
      have hplain : readSet o (c :: (cs ++ t)) = readSetMembers o false (c :: (cs ++ t)) := by
        simp [readSet, hc]
      rw [List.cons_append, hplain]
      exact readSetMembers_append ht o false (c :: cs)

/-! ## Repetition -/

theorem readBounds_append (ht : Stops t) (cs : List Char) :
    readBounds (cs ++ t) = (readBounds cs).map fun (bounds, r) => (bounds, r ++ t) := by
  have hbar : Char.isDigit '|' = false := by decide
  fun_cases readBounds cs with
  | case1 | case2 | case3 => rfl
  | case4 cs d digits rest h =>
    simp only [List.cons_append, readBounds, span_append ht hbar h, Option.map_some]
  | case5 cs low rest high rest' h h' =>
    simp only [List.cons_append, readBounds, span_append ht hbar h, span_append ht hbar h',
      Option.map_some]
  | case6 cs low rest high rest' h' hclose h =>
    simp only [List.cons_append, readBounds, span_append ht hbar h, span_append ht hbar h',
      Option.map_none]
    cases rest' with
    | nil => cases ht <;> rfl
    | cons c rest' => simp_all
  | case7 cs low rest h hcomma hclose =>
    simp only [List.cons_append, readBounds, span_append ht hbar h, Option.map_none]
    cases rest with
    | nil => cases ht <;> cases low <;> rfl
    | cons c rest =>
      have hc : c ≠ ',' := fun h => hcomma rest (by rw [h])
      cases low with
      | nil => simp [hc]
      | cons d digits =>
        have hb : c ≠ '}' := fun h => hclose d digits rest rfl (by rw [h])
        simp [hc, hb]
  | case8 cs hstar hplus hmark hbrace =>
    cases cs with
    | nil => cases ht <;> rfl
    | cons c cs => simp_all [readBounds]

theorem beginsFixed_append (ht : Stops t) (cs : List Char) :
    beginsFixed (cs ++ t) = beginsFixed cs := by
  have hbar : ∀ mark ∈ fixedMarks, '|' ∉ mark := by decide
  rw [Bool.eq_iff_iff]
  simp only [beginsFixed, List.any_eq_true, List.isPrefixOf_iff_prefix]
  constructor
  · rintro ⟨mark, hm, h⟩
    exact ⟨mark, hm, isPrefix_of_append ht (hbar mark hm) h⟩
  · rintro ⟨mark, hm, h⟩
    exact ⟨mark, hm, h.trans (List.prefix_append cs t)⟩

theorem readRepetition_append (ht : Stops t) (fixed : Bool) (item : Node) (cs : List Char) :
    Extends t (readRepetition fixed item cs) (readRepetition fixed item (cs ++ t)) := by
  unfold readRepetition
  rw [readBounds_append ht]
  rcases readBounds cs with _ | ⟨⟨low, high⟩, rest⟩
  · exact extends_some _ _ _
  · simp only [Option.map_some]
    split
    · exact extends_none
    · rcases rest with _ | ⟨c, rest⟩
      · cases ht <;> exact extends_some _ _ _
      · by_cases hmark : c = '?'
        · rw [hmark]
          exact extends_some _ _ _
        · by_cases hplus : c = '+'
          · rw [hplus]
            exact extends_some _ _ _
          · simpa [hmark, hplus] using extends_some _ (c :: rest) t

/-! ## Blanks -/

theorem skipBlanks_nil (fuel : Nat) : skipBlanks fuel [] = [] := by cases fuel <;> rfl

theorem skipBlanks_append (t : List Char) {fuel fuel' : Nat} (hle : fuel ≤ fuel') (cs : List Char)
    (hlt : cs.length < fuel) (h : skipBlanks fuel cs ≠ []) :
    skipBlanks fuel' (cs ++ t) = skipBlanks fuel cs ++ t := by
  induction fuel generalizing fuel' cs with
  | zero => exact absurd hlt (Nat.not_lt_zero _)
  | succ fuel ih =>
    obtain ⟨fuel', rfl⟩ := Nat.exists_eq_add_of_le' (Nat.le_trans (Nat.le_add_left 1 fuel) hle)
    have hle : fuel ≤ fuel' := Nat.le_of_succ_le_succ hle
    cases cs with
    | nil => exact absurd (skipBlanks_nil _) h
    | cons c cs =>
      rw [List.cons_append]
      simp only [skipBlanks] at h ⊢
      split
      · next hblank =>
        rw [if_pos hblank] at h
        exact ih hle cs (by simpa using hlt) h
      · next hblank =>
        rw [if_neg hblank] at h
        split
        · next hcomment =>
          rw [if_pos hcomment] at h
          have hrest : cs.dropWhile (· != '\n') ≠ [] := by
            intro hnil
            rw [hnil, skipBlanks_nil] at h
            exact h rfl
          have hlt' : (cs.dropWhile (· != '\n')).length < fuel :=
            Nat.lt_of_le_of_lt (List.dropWhile_suffix _).length_le (Nat.lt_of_succ_lt_succ hlt)
          rw [List.dropWhile_append, if_neg (by simpa using hrest), ih hle _ hlt' h]
        · rw [List.cons_append]

theorem Options.skip_nil (o : Options) : o.skip [] = [] := by
  unfold skip
  split
  · exact skipBlanks_nil _
  · rfl

theorem Options.skip_append {o : Options} {cs : List Char}
    (h : t ≠ [] → o.verbose = true → o.skip cs ≠ []) : o.skip (cs ++ t) = o.skip cs ++ t := by
  by_cases hnil : t = []
  · simp [hnil]
  · unfold Options.skip at h ⊢
    split
    · next hv =>
      rw [if_pos hv] at h
      exact skipBlanks_append t (by simp) cs (Nat.lt_succ_self _) (h hnil hv)
    · rfl

/-- With what a comment in brackets begins. -/
def commentMark : List Char := ['(', '?', '#']

theorem Options.pass_succ_of_no_mark {o : Options} (fuel : Nat) (h : ¬commentMark <+: o.skip cs) :
    o.pass (fuel + 1) cs = some (o.skip cs) := by
  rw [pass]
  split
  · next rest heq =>
    rw [heq] at h
    exact absurd ⟨rest, rfl⟩ h
  · rfl

/-- A text that is left behind blanks and comments is not blank itself: at its end a longer text
might go on with a comment. -/
theorem Options.pass_append (ht : Stops t) {o : Options} {fuel fuel' : Nat} (hle : fuel ≤ fuel')
    (cs : List Char) (h : o.pass fuel cs = some r) (hr : t ≠ [] → o.verbose = true → r ≠ []) :
    o.pass fuel' (cs ++ t) = some (r ++ t) := by
  induction fuel generalizing fuel' cs with
  | zero => cases h
  | succ fuel ih =>
    obtain ⟨fuel', rfl⟩ := Nat.exists_eq_add_of_le' (Nat.le_trans (Nat.le_add_left 1 fuel) hle)
    have hle : fuel ≤ fuel' := Nat.le_of_succ_le_succ hle
    by_cases hmark : commentMark <+: o.skip cs
    · obtain ⟨rest, hrest⟩ := hmark
      have hskip : o.skip (cs ++ t) = o.skip cs ++ t :=
        skip_append fun _ _ => hrest ▸ List.cons_ne_nil _ _
      rw [pass, ← hrest] at h
      obtain ⟨⟨comment, rest'⟩, hcomment, h⟩ := Option.bind_eq_some_iff.1 h
      rw [pass, hskip, ← hrest]
      exact Option.bind_eq_some_iff.2
        ⟨_, readUntil_append t ')' rest _ _ hcomment, ih hle rest' h⟩
    · rw [pass_succ_of_no_mark fuel hmark] at h
      cases h
      have hskip : o.skip (cs ++ t) = o.skip cs ++ t := skip_append hr
      have hmark' : ¬commentMark <+: o.skip (cs ++ t) := fun h' =>
        hmark (isPrefix_of_append ht (by decide) (hskip ▸ h'))
      rw [pass_succ_of_no_mark fuel' hmark', hskip]

/-! ## Escapes and brackets -/

theorem readGroupEscape_append (ht : Stops t) (o : Options) (c : Char) (cs : List Char) :
    readGroupEscape o c (cs ++ t) =
      ((readGroupEscape o c cs).1, (readGroupEscape o c cs).2 ++ t) := by
  have hbar : isOctal '|' = false := by decide
  rcases cs with _ | ⟨d, _ | ⟨e, cs⟩⟩
  · rcases ht with _ | ⟨_ | ⟨e, t⟩⟩ <;> simp [readGroupEscape, hbar]
  · cases ht <;> cases hd : d.isDigit <;> simp [readGroupEscape, hbar, hd]
  · simp only [List.cons_append, readGroupEscape]
    split
    · rfl
    · split <;> rfl

theorem readEscape_append (ht : Stops t) (o : Options) (cs : List Char) :
    Extends t (readEscape o cs) (readEscape o (cs ++ t)) := by
  fun_cases readEscape o cs with
  | case1 => exact extends_none
  | case2 c cs kind negated hcat =>
    have hread : ∀ cs, readEscape o (c :: cs) =
        some (.set ⟨[.category kind negated], false, .exact, o.ascii⟩, cs) := by
      intro cs
      simp [readEscape, hcat]
    rw [List.cons_append, hread]
    exact extends_some _ _ _
  | case3 | case4 | case5 | case6 => exact extends_some _ _ _
  | case7 cs c hA hZ hb hB hdigit hcat =>
    have hread : ∀ cs, readEscape o (c :: cs) = some (readGroupEscape o c cs) := by
      intro cs
      simp_all [readEscape]
    rw [List.cons_append, hread, readGroupEscape_append ht]
    exact extends_some _ _ _
  | case8 cs c hA hZ hb hB hdigit hcat =>
    have hread : ∀ cs, readEscape o (c :: cs) =
        (readCharEscape (c :: cs)).map fun x => (Node.char x.1 o.fold, x.2) := by
      intro cs
      simp_all [readEscape]
    rw [List.cons_append, hread]
    exact (readCharEscape_append ht (c :: cs)).map fun code => Node.char code o.fold

theorem readOptions_append (ht : Stops t) (o : Options) (value : Bool) (cs : List Char) :
    Extends t (readOptions o value cs) (readOptions o value (cs ++ t)) := by
  rw [readOptions, readOptions, span_append ht (show Char.isAlpha '|' = false by decide) rfl]
  exact extends_map_some _ _ _ _

theorem readOptionBracket_append (ht : Stops t) (o : Options) (cs : List Char) :
    Extends t (readOptionBracket o cs) (readOptionBracket o (cs ++ t)) := by
  refine (readOptions_append ht o true cs).bind fun o' rest => ?_
  dsimp only
  split
  · exact extends_some _ _ _
  · next rest =>
    refine (readOptions_append ht o' false rest).bind fun o'' rest' => ?_
    dsimp only
    split
    · exact extends_some _ _ _
    · exact extends_none
  · exact extends_none

/-- What may stand after the question mark of a bracket, apart from options. -/
def bracketMarks : List (List Char) :=
  [[':'], ['>'], ['='], ['!'], ['<', '='], ['<', '!'], ['P', '<'], ['P', '='], ['(']]

theorem readBracket_of_no_mark (o : Options) (g : Groups)
    (h : ∀ mark ∈ bracketMarks, ¬mark <+: cs) :
    readBracket o g ('?' :: cs) = readOptionBracket o cs := by
  simp only [bracketMarks, List.forall_mem_cons] at h
  unfold readBracket
  split <;> simp_all

theorem readBracket_append (ht : Stops t) (o : Options) (g : Groups) (cs : List Char) :
    Extends t (readBracket o g cs) (readBracket o g (cs ++ t)) := by
  fun_cases readBracket o g cs with
  | case1 | case2 | case3 | case4 | case5 | case6 => exact extends_some _ _ _
  | case7 cs =>
    exact (readUntil_append t '>' cs).map fun name => Bracket.capture (some (String.ofList name))
  | case8 cs => exact (readUntil_append t ')' cs).bind fun name r => extends_map_some _ _ r t
  | case9 cs => exact (readUntil_append t ')' cs).bind fun name r => extends_map_some _ _ r t
  | case10 cs h₁ h₂ h₃ h₄ h₅ h₆ h₇ h₈ h₉ =>
    have hmark : ∀ mark ∈ bracketMarks, ¬mark <+: cs := by
      simp only [bracketMarks, List.forall_mem_cons]
      refine ⟨?_, ?_, ?_, ?_, ?_, ?_, ?_, ?_, ?_, by simp⟩ <;> rintro ⟨x, hx⟩
      exacts [h₁ x hx.symm, h₂ x hx.symm, h₃ x hx.symm, h₄ x hx.symm, h₅ x hx.symm, h₆ x hx.symm,
        h₇ x hx.symm, h₈ x hx.symm, h₉ x hx.symm]
    have hbar : ∀ mark ∈ bracketMarks, '|' ∉ mark := by decide
    have hmark' : ∀ mark ∈ bracketMarks, ¬mark <+: cs ++ t := fun mark hm h =>
      hmark mark hm (isPrefix_of_append ht (hbar mark hm) h)
    rw [List.cons_append, readBracket_of_no_mark o g hmark']
    exact readOptionBracket_append ht o cs
  | case11 _ _ _ _ _ _ _ _ _ _ hmark =>
    cases cs with
    | nil => cases ht <;> exact extends_some _ _ _
    | cons c cs =>
      have hc : c ≠ '?' := fun h => hmark cs (by rw [h])
      have hplain : readBracket o g (c :: (cs ++ t)) = some (.capture none, c :: (cs ++ t)) := by
        simp [readBracket, hc]
      rw [List.cons_append, hplain]
      exact extends_some _ _ _

end Furthest.Regex
