import Furthest.Grammar.Operators
import Furthest.Proofs.Closed
import Furthest.Proofs.WellFormed.Grammar

/-!
# Well-formed parsers put together from others

If calls of functions keep the invariant, every callback and every test of the library does
(`Callback.sound_of_keeps`, `Test.sound_of_keeps`), whatever the user's functions inside it are.  So
each derived parser is sound as soon as its parts are, however deep they are nested
(`Grammar.Derived.sound`), and so is each level of an operator table
(`Grammar.sound_operatorTable`).
-/

namespace Furthest

open Behaviour

variable {φ σ : Type} {host : Host (EStateM (Halt φ) σ) φ} {I : σ → Prop}

theorem closed_keeps (I : σ → Prop) : Closed (m := EStateM (Halt φ) σ) fun _ => Keeps I where
  pure _ _ hw := returns_pure hw
  bind hx hf w hw := (hx w hw).bind fun a w' hw' => hf a w' hw'

/-- Calls of functions keep the invariant. -/
def Host.CallsKeep (host : Host (EStateM (Halt φ) σ) φ) (I : σ → Prop) : Prop :=
  ∀ f args, Keeps I (host.call f args)

theorem Callback.sound_of_keeps (hc : host.CallsKeep I) (f : Callback φ) : f.Sound host I :=
  (closed_keeps I).callback hc f

theorem Test.sound_of_keeps (hc : host.CallsKeep I) (test : Test φ) : test.Sound host I :=
  (closed_keeps I).test hc test

namespace Grammar

variable {p q : Grammar φ} {ps : List (Grammar φ)}

theorem soundAll_iff : SoundAll host I ps ↔ ∀ p ∈ ps, p.Sound host I := by
  induction ps with
  | nil => simp [SoundAll]
  | cons p ps ih => rw [SoundAll, ih, List.forall_mem_cons]

section

variable (hc : host.CallsKeep I)

include hc

/-! ## Sequences -/

theorem sound_seqItem (hps : ∀ p ∈ ps, p.Sound host I) (k : Nat) :
    (seqItem ps k).Sound host I :=
  ⟨soundAll_iff.2 hps, Callback.sound_of_keeps hc _⟩

theorem sound_skip (hp : p.Sound host I) (hq : q.Sound host I) : (skip p q).Sound host I :=
  sound_seqItem hc (by simp [hp, hq]) 0

theorem sound_skipLeft (hp : p.Sound host I) (hq : q.Sound host I) :
    (skipLeft p q).Sound host I :=
  sound_seqItem hc (by simp [hp, hq]) 1

theorem sound_between {opening closing : Grammar φ} (ho : opening.Sound host I)
    (hcl : closing.Sound host I) (hp : p.Sound host I) :
    (between opening closing p).Sound host I :=
  sound_seqItem hc (by simp [ho, hcl, hp]) 1

theorem sound_seqMap (hps : ∀ p ∈ ps, p.Sound host I) (f : Value φ) :
    (seqMap ps f).Sound host I :=
  ⟨soundAll_iff.2 hps, Callback.sound_of_keeps hc _⟩

theorem sound_mark (ho : WellFormed I (host.object Ref.offset)) (hp : p.Sound host I) :
    (mark p).Sound host I :=
  ⟨⟨ho, hp, ho, trivial⟩, Callback.sound_of_keeps hc _⟩

theorem sound_markPositions (ho : WellFormed I (host.object Ref.position))
    (hp : p.Sound host I) : (markPositions p).Sound host I :=
  ⟨⟨ho, hp, ho, trivial⟩, Callback.sound_of_keeps hc _⟩

/-! ## Repetition and options -/

omit hc in
theorem sound_many (hp : p.Sound host I) : (many p).Sound host I := hp

omit hc in
theorem sound_many1 (hp : p.Sound host I) : (many1 p).Sound host I := hp

theorem sound_void (hp : p.Sound host I) : (void p).Sound host I :=
  ⟨hp, Callback.sound_of_keeps hc _⟩

omit hc in
theorem sound_option (v : Value φ) (hp : p.Sound host I) : (option v p).Sound host I :=
  ⟨hp, trivial, trivial⟩

theorem sound_optional (hp : p.Sound host I) : (Grammar.optional p).Sound host I :=
  sound_option .null (sound_void hc hp)

omit hc in
theorem sound_notFollowedBy (hp : p.Sound host I) : (notFollowedBy p).Sound host I :=
  ⟨trivial, hp⟩

/-! ## Lists and chains -/

theorem sound_sepBy1 (hp : p.Sound host I) (hq : q.Sound host I) : (sepBy1 p q).Sound host I :=
  ⟨⟨hp, sound_many (sound_skipLeft hc hq hp), trivial⟩, Callback.sound_of_keeps hc _⟩

theorem sound_sepBy (hp : p.Sound host I) (hq : q.Sound host I) : (sepBy p q).Sound host I :=
  ⟨sound_sepBy1 hc hp hq, ⟨trivial, Callback.sound_of_keeps hc _⟩, trivial⟩

theorem sound_endBy (hp : p.Sound host I) (hq : q.Sound host I) : (endBy p q).Sound host I :=
  sound_many (sound_skip hc hp hq)

theorem sound_sepEndBy (hp : p.Sound host I) (hq : q.Sound host I) :
    (sepEndBy p q).Sound host I :=
  sound_skip hc (sound_sepBy hc hp hq) (sound_optional hc hq)

theorem sound_manyTill (hp : p.Sound host I) (hq : q.Sound host I) :
    (manyTill p q).Sound host I := by
  have he : (Grammar.except p q).Sound host I := ⟨hp, hq⟩
  exact sound_skip hc (sound_many he) hq

theorem sound_chainLeft (hp : p.Sound host I) (hq : q.Sound host I) :
    (chainLeft p q).Sound host I :=
  ⟨⟨hp, ⟨hq, hp, trivial⟩, trivial⟩, Callback.sound_of_keeps hc _⟩

theorem sound_chainRight (hp : p.Sound host I) (hq : q.Sound host I) :
    (chainRight p q).Sound host I :=
  ⟨⟨hp, ⟨hq, hp, trivial⟩, trivial⟩, Callback.sound_of_keeps hc _⟩

/-! ## Characters -/

theorem sound_charOf (test : Test φ) (label : String) : (charOf test label).Sound host I :=
  Test.sound_of_keeps hc test

theorem sound_digits (min : Limit) : (digits min).Sound host I :=
  ⟨sound_charOf hc .digit "digit", Callback.sound_of_keeps hc _⟩

end

/-! ## Derived parsers in each other -/

/-- What is put together by derived parsers, nested in any way, from given ones. -/
inductive Derived (P : Grammar φ → Prop) : Grammar φ → Prop where
  | given {p : Grammar φ} : P p → Derived P p
  | seqItem {ps : List (Grammar φ)} (k : Nat) :
    (∀ p ∈ ps, Derived P p) → Derived P (seqItem ps k)
  | between {opening closing p : Grammar φ} : Derived P opening → Derived P closing →
    Derived P p → Derived P (between opening closing p)
  | seqMap {ps : List (Grammar φ)} (f : Value φ) :
    (∀ p ∈ ps, Derived P p) → Derived P (seqMap ps f)
  | mark {p : Grammar φ} : Derived P p → Derived P (mark p)
  | markPositions {p : Grammar φ} : Derived P p → Derived P (markPositions p)
  | many {p : Grammar φ} : Derived P p → Derived P (many p)
  | many1 {p : Grammar φ} : Derived P p → Derived P (many1 p)
  | void {p : Grammar φ} : Derived P p → Derived P (void p)
  | option {p : Grammar φ} (v : Value φ) : Derived P p → Derived P (option v p)
  | notFollowedBy {p : Grammar φ} : Derived P p → Derived P (notFollowedBy p)
  | sepBy1 {p sep : Grammar φ} : Derived P p → Derived P sep → Derived P (sepBy1 p sep)
  | sepBy {p sep : Grammar φ} : Derived P p → Derived P sep → Derived P (sepBy p sep)
  | endBy {p sep : Grammar φ} : Derived P p → Derived P sep → Derived P (endBy p sep)
  | sepEndBy {p sep : Grammar φ} : Derived P p → Derived P sep → Derived P (sepEndBy p sep)
  | manyTill {p stop : Grammar φ} : Derived P p → Derived P stop → Derived P (manyTill p stop)
  | chainLeft {p op : Grammar φ} : Derived P p → Derived P op → Derived P (chainLeft p op)
  | chainRight {p op : Grammar φ} : Derived P p → Derived P op → Derived P (chainRight p op)
  | charOf (test : Test φ) (label : String) : Derived P (charOf test label)
  | digits (min : Limit) : Derived P (digits min)

/-- Derived parsers of sound ones are sound. -/
theorem Derived.sound (hc : host.CallsKeep I) (ho : WellFormed I (host.object Ref.offset))
    (hposition : WellFormed I (host.object Ref.position)) {g : Grammar φ}
    (h : g.Derived (·.Sound host I)) : g.Sound host I := by
  induction h with
  | given hp => exact hp
  | seqItem k _ ih => exact sound_seqItem hc ih k
  | between _ _ _ hopening hclosing hp => exact sound_between hc hopening hclosing hp
  | seqMap f _ ih => exact sound_seqMap hc ih f
  | mark _ ih => exact sound_mark hc ho ih
  | markPositions _ ih => exact sound_markPositions hc hposition ih
  | many _ ih => exact sound_many ih
  | many1 _ ih => exact sound_many1 ih
  | void _ ih => exact sound_void hc ih
  | option v _ ih => exact sound_option v ih
  | notFollowedBy _ ih => exact sound_notFollowedBy ih
  | sepBy1 _ _ hp hq => exact sound_sepBy1 hc hp hq
  | sepBy _ _ hp hq => exact sound_sepBy hc hp hq
  | endBy _ _ hp hq => exact sound_endBy hc hp hq
  | sepEndBy _ _ hp hq => exact sound_sepEndBy hc hp hq
  | manyTill _ _ hp hq => exact sound_manyTill hc hp hq
  | chainLeft _ _ hp hq => exact sound_chainLeft hc hp hq
  | chainRight _ _ hp hq => exact sound_chainRight hc hp hq
  | charOf test label => exact sound_charOf hc test label
  | digits min => exact sound_digits hc min

/-! ## Operator tables -/

/-- The parsers of a row are sound. -/
structure SoundRow (host : Host (EStateM (Halt φ) σ) φ) (I : σ → Prop)
    (row : OperatorRow φ) : Prop where
  prefixes : SoundAll host I row.prefixes
  postfixes : SoundAll host I row.postfixes
  leftInfixes : SoundAll host I row.leftInfixes
  rightInfixes : SoundAll host I row.rightInfixes
  plainInfixes : SoundAll host I row.plainInfixes

section

variable (hc : host.CallsKeep I)

include hc

theorem sound_anyOptional (hps : SoundAll host I ps) : (anyOptional ps).Sound host I := by
  cases ps with
  | nil => exact trivial
  | cons p ps => exact ⟨⟨hps, Callback.sound_of_keeps hc _⟩, trivial, trivial⟩

theorem sound_joinLeft (hp : p.Sound host I) (hps : SoundAll host I ps) :
    (joinLeft p ps).Sound host I := by
  cases ps with
  | nil => exact hp
  | cons q ps => exact sound_chainLeft hc hp hps

theorem sound_joinRight (hp : p.Sound host I) (hps : SoundAll host I ps) :
    (joinRight p ps).Sound host I := by
  cases ps with
  | nil => exact hp
  | cons q ps => exact sound_chainRight hc hp hps

theorem sound_joinOnce (hp : p.Sound host I) (hps : SoundAll host I ps) :
    (joinOnce p ps).Sound host I := by
  cases ps with
  | nil => exact hp
  | cons q ps =>
    have tail : (Grammar.seq [.alt q ps, p]).Sound host I := ⟨hps, hp, trivial⟩
    exact ⟨⟨hp, sound_option .null tail, trivial⟩, Callback.sound_of_keeps hc _⟩

theorem sound_level {row : OperatorRow φ} (hr : SoundRow host I row) (hp : p.Sound host I) :
    (level row p).Sound host I := by
  have hu : (unary row p).Sound host I :=
    ⟨⟨sound_anyOptional hc hr.prefixes, hp, sound_anyOptional hc hr.postfixes, trivial⟩,
      Callback.sound_of_keeps hc _⟩
  have hl := sound_joinLeft hc hu hr.leftInfixes
  exact sound_joinOnce hc (sound_joinRight hc hl hr.rightInfixes) hr.plainInfixes

/-- The grammar of an operator table is sound, however many rows the table has. -/
theorem sound_operatorTable {rows : List (OperatorRow φ)}
    (hrows : ∀ row ∈ rows, SoundRow host I row) (hp : p.Sound host I) :
    (operatorTable rows p).Sound host I := by
  induction rows generalizing p with
  | nil => exact hp
  | cons row rows ih =>
    obtain ⟨hrow, hrest⟩ := List.forall_mem_cons.1 hrows
    exact ih hrest (sound_level hc hrow hp)

end

end Grammar

end Furthest
