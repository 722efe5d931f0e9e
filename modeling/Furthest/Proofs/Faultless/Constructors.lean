import Furthest.Proofs.Faultless.Shapes
import Furthest.Script.Library

/-!
# What constructors make

Whatever arguments a constructor accepts, the object it makes has a grammar that fits
(`Grammar.Made.fits`): the functions of the library only get lists of the shape they take apart.
The parts of such a grammar are other objects, so nothing has to be known about these.
-/

namespace Furthest

variable {φ : Type}

/-! ## Derived grammars -/

/-- The operators of a row fit. -/
structure OperatorRow.Fits (row : OperatorRow φ) : Prop where
  prefixes : ∀ p ∈ row.prefixes, p.Fits
  postfixes : ∀ p ∈ row.postfixes, p.Fits
  leftInfixes : ∀ p ∈ row.leftInfixes, p.Fits
  rightInfixes : ∀ p ∈ row.rightInfixes, p.Fits
  plainInfixes : ∀ p ∈ row.plainInfixes, p.Fits

namespace Grammar

variable {p q : Grammar φ} {ps : List (Grammar φ)}

theorem fits_seqItem (hps : ∀ p ∈ ps, p.Fits) {k : Nat} (hk : k < ps.length) :
    (seqItem ps k).Fits := by
  refine ⟨fitsAll_iff.2 hps, ?_⟩
  rintro _ ⟨vs, rfl, hvs⟩
  have hlength := (valuesEach_iff.1 hvs).length_eq
  exact ⟨vs, rfl, by simpa [← hlength] using hk⟩

theorem fits_skip (hp : p.Fits) (hq : q.Fits) : (skip p q).Fits :=
  fits_seqItem (by simp [hp, hq]) Nat.two_pos

theorem fits_skipLeft (hp : p.Fits) (hq : q.Fits) : (skipLeft p q).Fits :=
  fits_seqItem (by simp [hp, hq]) Nat.one_lt_two

theorem fits_seqMap (hps : ∀ p ∈ ps, p.Fits) (f : Value φ) : (seqMap ps f).Fits :=
  ⟨fitsAll_iff.2 hps, fun _ ⟨vs, hv, _⟩ => ⟨vs, hv⟩⟩

/-- The values of two parts, one after the other. -/
theorem values_seq_two {v : Value φ} (h : (seq [p, q]).Values v) :
    ∃ a b, v = .list [a, b] ∧ p.Values a ∧ q.Values b := by
  obtain ⟨_, rfl, a, _, rfl, ha, b, _, rfl, hb, rfl⟩ := h
  exact ⟨a, b, rfl, ha, hb⟩

/-- The values of three parts, one after the other. -/
theorem values_seq_three {r : Grammar φ} {v : Value φ} (h : (seq [p, q, r]).Values v) :
    ∃ a b c, v = .list [a, b, c] ∧ p.Values a ∧ q.Values b ∧ r.Values c := by
  obtain ⟨_, rfl, a, _, rfl, ha, b, _, rfl, hb, c, _, rfl, hc, rfl⟩ := h
  exact ⟨a, b, c, rfl, ha, hb, hc⟩

theorem fits_mark (hp : p.Fits) : (mark p).Fits :=
  ⟨⟨trivial, hp, trivial, trivial⟩, fun _ hv =>
    let ⟨a, b, c, hv, _⟩ := values_seq_three hv
    ⟨a, b, c, hv⟩⟩

theorem fits_markPositions (hp : p.Fits) : (markPositions p).Fits :=
  ⟨⟨trivial, hp, trivial, trivial⟩, fun _ hv =>
    let ⟨a, b, c, hv, _⟩ := values_seq_three hv
    ⟨a, b, c, hv⟩⟩

theorem fits_void (hp : p.Fits) : (void p).Fits := ⟨hp, fun _ _ => trivial⟩

theorem fits_option (v : Value φ) (hp : p.Fits) : (option v p).Fits := ⟨hp, trivial, trivial⟩

theorem fits_optional (hp : p.Fits) : (optional p).Fits := fits_option .null (fits_void hp)

theorem fits_sepBy1 (hp : p.Fits) (hq : q.Fits) : (sepBy1 p q).Fits := by
  refine ⟨⟨hp, fits_skipLeft hq hp, trivial⟩, fun v hv => ?_⟩
  obtain ⟨first, _, rfl, -, others, rfl, -⟩ := values_seq_two hv
  exact ⟨first, others, rfl⟩

theorem fits_sepBy (hp : p.Fits) (hq : q.Fits) : (sepBy p q).Fits :=
  ⟨fits_sepBy1 hp hq, ⟨trivial, fun _ _ => trivial⟩, trivial⟩

theorem fits_sepEndBy (hp : p.Fits) (hq : q.Fits) : (sepEndBy p q).Fits :=
  fits_skip (fits_sepBy hp hq) (fits_optional hq)

theorem fits_manyTill (hp : p.Fits) (hq : q.Fits) : (manyTill p q).Fits :=
  fits_skip (p := many (.except p q)) ⟨hp, hq⟩ hq

/-- Operands and operators are grouped by pairs, to whichever side. -/
theorem fits_chain (hp : p.Fits) (hq : q.Fits) {f : Callback φ}
    (hf : f = .foldLeft ∨ f = .foldRight) : (mapEnv (.seq [p, many (.seq [q, p])]) f).Fits := by
  refine ⟨⟨hp, ⟨hq, hp, trivial⟩, trivial⟩, fun v hv => ?_⟩
  obtain ⟨first, _, rfl, -, pairs, rfl, hpairs⟩ := values_seq_two hv
  have htakes : ∀ pair ∈ pairs, pair.IsPair := fun pair hpair =>
    let ⟨op, operand, h, _⟩ := values_seq_two (hpairs pair hpair)
    ⟨op, operand, h⟩
  rcases hf with rfl | rfl
  · exact ⟨first, pairs, rfl, htakes⟩
  · exact ⟨first, pairs, rfl, htakes⟩

theorem fits_digits (min : Limit) : (digits min : Grammar φ).Fits :=
  ⟨trivial, fun _ hv => hv⟩

/-! ### Operator tables -/

theorem fits_alt (hps : ∀ q ∈ p :: ps, q.Fits) : (alt p ps).Fits :=
  ⟨hps p (by simp), fitsAll_iff.2 fun q hq => hps q (by simp [hq])⟩

theorem fits_anyOptional (hps : ∀ p ∈ ps, p.Fits) : (anyOptional ps).Fits := by
  cases ps with
  | nil => trivial
  | cons p ps => exact ⟨⟨fits_alt hps, fun _ _ => trivial⟩, trivial, trivial⟩

theorem isOptional_of_values_anyOptional {v : Value φ} (h : (anyOptional ps).Values v) :
    v.IsOptional := by
  cases ps with
  | nil => exact Or.inl h
  | cons p ps =>
    rcases h with ⟨item, rfl, -⟩ | h | h
    · exact Or.inr ⟨item, rfl⟩
    · exact Or.inl h
    · exact h.elim

theorem fits_unary {row : OperatorRow φ} (hrow : row.Fits) (hp : p.Fits) : (unary row p).Fits := by
  refine ⟨⟨fits_anyOptional hrow.prefixes, hp, fits_anyOptional hrow.postfixes, trivial⟩,
    fun v hv => ?_⟩
  obtain ⟨before, operand, after, rfl, hbefore, -, hafter⟩ := values_seq_three hv
  exact ⟨before, operand, after, rfl, isOptional_of_values_anyOptional hbefore,
    isOptional_of_values_anyOptional hafter⟩

theorem fits_joinLeft (hp : p.Fits) (hps : ∀ p ∈ ps, p.Fits) : (joinLeft p ps).Fits := by
  cases ps with
  | nil => exact hp
  | cons q ps => exact fits_chain hp (fits_alt hps) (Or.inl rfl)

theorem fits_joinRight (hp : p.Fits) (hps : ∀ p ∈ ps, p.Fits) : (joinRight p ps).Fits := by
  cases ps with
  | nil => exact hp
  | cons q ps => exact fits_chain hp (fits_alt hps) (Or.inr rfl)

theorem fits_joinOnce (hp : p.Fits) (hps : ∀ p ∈ ps, p.Fits) : (joinOnce p ps).Fits := by
  cases ps with
  | nil => exact hp
  | cons q ps =>
    refine ⟨⟨hp, fits_option .null ⟨fits_alt hps, hp, trivial⟩, trivial⟩, fun v hv => ?_⟩
    obtain ⟨first, rest, rfl, -, hrest⟩ := values_seq_two hv
    refine ⟨first, rest, rfl, ?_⟩
    rcases hrest with hrest | hrest | hrest
    · obtain ⟨op, second, h, -⟩ := values_seq_two hrest
      exact Or.inl ⟨op, second, h⟩
    · exact Or.inr hrest
    · exact hrest.elim

theorem fits_level {row : OperatorRow φ} (hrow : row.Fits) (hp : p.Fits) : (level row p).Fits :=
  fits_joinOnce (fits_joinRight (fits_joinLeft (fits_unary hrow hp) hrow.leftInfixes)
    hrow.rightInfixes) hrow.plainInfixes

end Grammar

/-! ## Checked arguments -/

namespace Checked

open Grammar

/-- Whatever is built has the property. -/
def Built.Always {α : Type} (x : Built φ α) (Q : α → Prop) : Prop := ∀ a, x = .ok a → Q a

section

variable {α β : Type} {Q : α → Prop} {R : β → Prop}

theorem always_pure {a : α} (h : Q a) : Built.Always (pure a : Built φ α) Q := by
  rintro _ ⟨⟩
  exact h

theorem always_error {cause : Fault φ} : Built.Always (.error cause : Built φ α) Q := nofun

theorem always_true (x : Built φ α) : x.Always fun _ => True := fun _ _ => trivial

theorem Built.Always.bind {x : Built φ α} {f : α → Built φ β} (hx : x.Always Q)
    (hf : ∀ a, Q a → (f a).Always R) : Built.Always (x >>= f) R := by
  cases x with
  | error cause => exact nofun
  | ok a => exact hf a (hx a rfl)

theorem always_mapM {γ : Type} {f : γ → Built φ α} (hf : ∀ c, (f c).Always Q) (cs : List γ) :
    Built.Always (cs.mapM f) fun as => ∀ a ∈ as, Q a := by
  induction cs with
  | nil => exact always_pure nofun
  | cons c cs ih =>
    rw [List.mapM_cons]
    exact (hf c).bind fun a ha => ih.bind fun as has =>
      always_pure (List.forall_mem_cons.2 ⟨ha, has⟩)

end

/-- What is built is an object with a grammar that fits. -/
abbrev Forms (x : Built φ (Cell φ)) : Prop := x.Always fun c => c.behaviour.Fits

theorem fits_part (asker : String) (v : Value φ) : (parser asker v).Always Grammar.Fits := by
  cases v with
  | parser r => exact always_pure trivial
  | _ => exact always_error

theorem fits_parts (asker : String) (vs : List (Value φ)) :
    (parsers asker vs).Always fun ps => ∀ p ∈ ps, p.Fits :=
  always_mapM (fits_part asker) vs

/-! ### Basic parsers -/

theorem forms_custom (f : Value φ) : Forms (custom f) :=
  (always_true _).bind fun _ _ => always_pure trivial

theorem forms_fail (label : Value φ) : Forms (fail label) :=
  (always_true _).bind fun _ _ => always_pure trivial

theorem forms_seq (ps : List (Value φ)) : Forms (seq ps) :=
  (fits_parts _ ps).bind fun _ hps => always_pure (fitsAll_iff.2 hps)

theorem forms_alt (ps : List (Value φ)) : Forms (alt ps) := by
  cases ps with
  | nil => exact always_error
  | cons p ps =>
    refine Built.Always.bind (Q := Grammar.Fits) ?_ fun g hg => always_pure hg
    exact (fits_part _ p).bind fun g hg => (fits_parts _ ps).bind fun gs hgs =>
      always_pure ⟨hg, fitsAll_iff.2 hgs⟩

theorem forms_times (p min max : Value φ) : Forms (times p min max) := by
  refine Built.Always.bind (Q := Grammar.Fits) ?_ fun g hg => always_pure hg
  exact (fits_part _ p).bind fun g hg => (always_true _).bind fun _ _ =>
    (always_true _).bind fun _ _ => (always_true _).bind fun _ _ => always_pure hg

theorem forms_map (p f : Value φ) : Forms (map p f) :=
  (fits_part _ p).bind fun _ hg => (always_true _).bind fun _ _ =>
    always_pure ⟨hg, fun _ _ => trivial⟩

theorem forms_mapEnv (p f : Value φ) : Forms (mapEnv p f) :=
  (fits_part _ p).bind fun _ hg => (always_true _).bind fun _ _ =>
    always_pure ⟨hg, fun _ _ => trivial⟩

theorem forms_chain (p f : Value φ) : Forms (chain p f) :=
  (fits_part _ p).bind fun _ hg => (always_true _).bind fun _ _ =>
    always_pure ⟨hg, fun _ _ => trivial⟩

theorem forms_chainEnv (p f : Value φ) : Forms (chainEnv p f) :=
  (fits_part _ p).bind fun _ hg => (always_true _).bind fun _ _ =>
    always_pure ⟨hg, fun _ _ => trivial⟩

theorem forms_relabel (p label : Value φ) : Forms (relabel p label) :=
  (fits_part _ p).bind fun _ hg => (always_true _).bind fun _ _ => always_pure hg

theorem forms_mark (p : Value φ) : Forms (mark p) :=
  (fits_part _ p).bind fun _ hg => always_pure (fits_mark hg)

theorem forms_markPositions (p : Value φ) : Forms (markPositions p) :=
  (fits_part _ p).bind fun _ hg => always_pure (fits_markPositions hg)

theorem forms_subEnv (p derive : Value φ) : Forms (subEnv p derive) :=
  (fits_part _ p).bind fun _ hg => (always_true _).bind fun _ _ => always_pure hg

theorem forms_fromEnv (lookup : Value φ) : Forms (fromEnv lookup) :=
  (always_true _).bind fun _ _ => always_pure trivial

theorem forms_except (allowed forbidden : Value φ) : Forms (except allowed forbidden) :=
  (fits_part _ allowed).bind fun _ hg => (fits_part _ forbidden).bind fun _ hg' =>
    always_pure ⟨hg, hg'⟩

theorem forms_lookAhead (p : Value φ) : Forms (lookAhead p) :=
  (fits_part _ p).bind fun _ hg => always_pure hg

theorem forms_trace (p label : Value φ) : Forms (trace p label) :=
  (fits_part _ p).bind fun _ hg => always_pure hg

/-! ### Characters and patterns -/

theorem forms_string (s : Value φ) : Forms (string s) :=
  (always_true _).bind fun _ _ => always_pure trivial

theorem forms_regex (p group : Value φ) : Forms (regex p group) :=
  (always_true _).bind fun _ _ => (always_true _).bind fun _ _ => always_pure trivial

theorem forms_takeWhile (f : Value φ) : Forms (takeWhile f) :=
  (always_true _).bind fun _ _ => always_pure trivial

theorem forms_digits (min : Value φ) : Forms (digits min) :=
  (always_true _).bind fun _ _ => (always_true _).bind fun _ _ => always_pure (fits_digits _)

section

variable [FunctionText φ]

theorem forms_satisfy (f : Value φ) : Forms (satisfy f) :=
  (always_true _).bind fun _ _ => always_pure trivial

theorem forms_satisfyEnv (f name : Value φ) : Forms (satisfyEnv f name) := by
  have hlabel : ∀ (f : Value φ) (label : Built φ String), Forms (do
      return unnamed (.satisfy (.valueAndEnv f) (testLabel (← label)))) :=
    fun _ label => (always_true label).bind fun _ _ => always_pure trivial
  refine (always_true _).bind fun f _ => ?_
  dsimp only
  split
  · exact hlabel f _
  · split
    · exact hlabel f _
    · exact hlabel f _

theorem forms_oneOf (v : Value φ) : Forms (oneOf v) :=
  (always_true _).bind fun _ _ => always_pure trivial

theorem forms_noneOf (v : Value φ) : Forms (noneOf v) :=
  (always_true _).bind fun _ _ => always_pure trivial

theorem forms_choice (v : Value φ) : Forms (choice v) := by
  unfold choice
  split
  · exact forms_alt _
  · exact always_error

end

/-! ### Parsers put together from others -/

theorem forms_skip (p after : Value φ) : Forms (skip p after) :=
  (fits_part _ p).bind fun _ hg => (fits_part _ after).bind fun _ hg' =>
    always_pure (fits_skip hg hg')

theorem forms_skipLeft (before p : Value φ) : Forms (skipLeft before p) :=
  (fits_part _ before).bind fun _ hg => (fits_part _ p).bind fun _ hg' =>
    always_pure (fits_skipLeft hg hg')

theorem forms_seqMap (args : List (Value φ)) : Forms (seqMap args) := by
  unfold seqMap
  split
  · exact always_error
  · exact (always_true _).bind fun _ _ => (fits_parts _ _).bind fun _ hps =>
      always_pure (fits_seqMap hps _)

theorem forms_many (p : Value φ) : Forms (many p) :=
  (fits_part _ p).bind fun _ hg => always_pure hg

theorem forms_many1 (p : Value φ) : Forms (many1 p) :=
  (fits_part _ p).bind fun _ hg => always_pure hg

theorem forms_skipMany (p : Value φ) : Forms (skipMany p) :=
  (fits_part _ p).bind fun g hg => always_pure (fits_void (p := .many g) hg)

theorem forms_skipMany1 (p : Value φ) : Forms (skipMany1 p) :=
  (fits_part _ p).bind fun g hg => always_pure (fits_void (p := .many1 g) hg)

theorem forms_between (opening closing p : Value φ) : Forms (between opening closing p) :=
  (fits_part _ opening).bind fun _ ho => (fits_part _ p).bind fun _ hp =>
    (fits_part _ closing).bind fun _ hc =>
      always_pure (fits_seqItem (by simp [ho, hc, hp]) (Nat.lt_add_left 1 Nat.one_lt_two))

theorem forms_option (v p : Value φ) : Forms (option v p) :=
  (fits_part _ p).bind fun _ hg => always_pure (fits_option v hg)

theorem forms_optional (p : Value φ) : Forms (optional p) :=
  (fits_part _ p).bind fun _ hg => always_pure (fits_optional hg)

theorem fits_listParts (p sep : Value φ) :
    (listParts p sep).Always fun parts => parts.1.Fits ∧ parts.2.Fits :=
  (fits_part _ sep).bind fun _ hs => (fits_part _ p).bind fun _ hp => always_pure ⟨hp, hs⟩

theorem forms_sepBy1 (p sep : Value φ) : Forms (sepBy1 p sep) :=
  (fits_listParts p sep).bind fun _ h => always_pure (fits_sepBy1 h.1 h.2)

theorem forms_sepBy (p sep : Value φ) : Forms (sepBy p sep) :=
  (fits_listParts p sep).bind fun _ h => always_pure (fits_sepBy h.1 h.2)

theorem forms_endBy (p sep : Value φ) : Forms (endBy p sep) :=
  (fits_part _ p).bind fun g hg => (fits_part _ sep).bind fun g' hg' =>
    always_pure (fits_skip hg hg' : (Grammar.skip g g').Fits)

theorem forms_sepEndBy (p sep : Value φ) : Forms (sepEndBy p sep) :=
  (fits_listParts p sep).bind fun _ h => always_pure (fits_sepEndBy h.1 h.2)

theorem forms_chainLeft (p op : Value φ) : Forms (chainLeft p op) :=
  (fits_listParts p op).bind fun _ h => always_pure (fits_chain h.1 h.2 (Or.inl rfl))

theorem forms_chainRight (p op : Value φ) : Forms (chainRight p op) :=
  (fits_listParts p op).bind fun _ h => always_pure (fits_chain h.1 h.2 (Or.inr rfl))

theorem forms_notFollowedBy (p : Value φ) : Forms (notFollowedBy p) :=
  (fits_part _ p).bind fun _ hg => always_pure ⟨trivial, hg⟩

theorem forms_manyTill (p stop : Value φ) : Forms (manyTill p stop) :=
  (fits_part _ p).bind fun _ hg => (fits_part _ stop).bind fun _ hg' =>
    always_pure (fits_manyTill hg hg')

/-! ### Operator tables -/

theorem fits_checkedLevel (row : RawRow φ) {term : Built φ (Grammar φ)}
    (ht : term.Always Grammar.Fits) : (level row term).Always Grammar.Fits :=
  (fits_parts _ _).bind fun _ hpre => (fits_parts _ _).bind fun _ hpost =>
    ht.bind fun _ hterm => (fits_parts _ _).bind fun _ hleft =>
      (fits_parts _ _).bind fun _ hright => (fits_parts _ _).bind fun _ hplain =>
        always_pure (fits_level ⟨hpre, hpost, hleft, hright, hplain⟩ hterm)

theorem fits_levels {term : Grammar φ} (ht : term.Fits) (rows : List (Value φ)) :
    (levels term rows).Always Grammar.Fits := by
  induction rows generalizing term with
  | nil => exact always_pure ht
  | cons row rows ih =>
    exact (always_true _).bind fun _ _ => (always_true _).bind fun raw _ =>
      (fits_checkedLevel raw (always_pure ht)).bind fun _ hg => ih hg

theorem forms_operatorTable [FunctionText φ] (table term : Value φ) :
    (operatorTable table term).Always fun made => ∀ c, made = some c → c.behaviour.Fits := by
  refine (always_true _).bind fun rows _ => ?_
  cases rows with
  | nil => exact always_pure nofun
  | cons row rows =>
    refine (always_true _).bind fun _ _ => (always_true _).bind fun raw _ => ?_
    refine (fits_checkedLevel raw (fits_part _ term)).bind fun first hfirst => ?_
    refine (fits_levels hfirst rows).bind fun g hg => always_pure ?_
    rintro _ ⟨⟩
    exact hg

end Checked

/-! ## Constructors by name -/

namespace Script

open Checked

/-- Whatever object a constructor makes, its grammar fits. -/
def Constructor.Forms (f : Constructor) : Prop :=
  ∀ args built, f args = some built → Checked.Forms built

theorem forms_unary {f : Val → Built Function (Cell Function)} (h : ∀ a, Checked.Forms (f a)) :
    Constructor.Forms (unary f) := by
  intro args built hbuilt
  unfold unary at hbuilt
  split at hbuilt
  · cases hbuilt
    exact h _
  · cases hbuilt

theorem forms_binary {f : Val → Val → Built Function (Cell Function)}
    (h : ∀ a b, Checked.Forms (f a b)) : Constructor.Forms (binary f) := by
  intro args built hbuilt
  unfold binary at hbuilt
  split at hbuilt
  · cases hbuilt
    exact h _ _
  · cases hbuilt

theorem forms_ternary {f : Val → Val → Val → Built Function (Cell Function)}
    (h : ∀ a b c, Checked.Forms (f a b c)) : Constructor.Forms (ternary f) := by
  intro args built hbuilt
  unfold ternary at hbuilt
  split at hbuilt
  · cases hbuilt
    exact h _ _ _
  · cases hbuilt

theorem forms_nullary {c : Cell Function} (h : c.behaviour.Fits) :
    Constructor.Forms (nullary c) := by
  intro args built hbuilt
  unfold nullary at hbuilt
  split at hbuilt
  · cases hbuilt
    exact always_pure h
  · cases hbuilt

theorem forms_method (field : String) {f : Constructor} (h : f.Forms) :
    Constructor.Forms (method field f) := by
  intro args built hbuilt
  unfold method at hbuilt
  split at hbuilt
  · exact h _ _ hbuilt
  · cases hbuilt
    exact always_error
  · cases hbuilt

theorem forms_operator (symbol : String) {f : Val → Val → Built Function (Cell Function)}
    (h : ∀ a b, Checked.Forms (f a b)) : Constructor.Forms (operator symbol f) := by
  intro args built hbuilt
  unfold operator at hbuilt
  split at hbuilt
  · cases hbuilt
    exact h _ _
  · cases hbuilt
    exact always_error
  · cases hbuilt

theorem forms_comparison (symbol : String)
    {f mirrored : Val → Val → Built Function (Cell Function)} (h : ∀ a b, Checked.Forms (f a b))
    (h' : ∀ a b, Checked.Forms (mirrored a b)) :
    Constructor.Forms (comparison symbol f mirrored) := by
  intro args built hbuilt
  unfold comparison at hbuilt
  split at hbuilt
  · cases hbuilt
    exact h _ _
  · cases hbuilt
    exact h' _ _
  · cases hbuilt
    exact always_error
  · cases hbuilt

theorem forms_times :
    Constructor.Forms fun
      | [p, min] => some (Checked.times p min .null)
      | [p, min, max] => some (Checked.times p min max)
      | _ => none := by
  intro args built hbuilt
  dsimp only at hbuilt
  split at hbuilt
  · cases hbuilt
    exact Checked.forms_times _ _ _
  · cases hbuilt
    exact Checked.forms_times _ _ _
  · cases hbuilt

theorem forms_basic : ∀ entry ∈ basicConstructors, entry.2.Forms := by
  simp only [basicConstructors, List.forall_mem_cons]
  refine ⟨forms_unary forms_custom, forms_unary fun _ => always_pure trivial,
    forms_unary fun _ => always_pure trivial, forms_unary forms_fail, ?seq, ?alt, forms_times,
    forms_binary forms_map, forms_binary forms_mapEnv, forms_binary forms_chain,
    forms_binary forms_chainEnv, forms_binary forms_relabel, forms_unary forms_mark,
    forms_unary forms_markPositions, forms_binary forms_subEnv, forms_unary forms_fromEnv,
    forms_binary forms_except, forms_unary forms_lookAhead, forms_binary forms_trace, nofun⟩
  case seq =>
    rintro args _ ⟨⟩
    exact forms_seq args
  case alt =>
    rintro args _ ⟨⟩
    exact forms_alt args

theorem forms_character : ∀ entry ∈ characterConstructors, entry.2.Forms := by
  simp only [characterConstructors, List.forall_mem_cons]
  refine ⟨forms_unary forms_string, forms_unary forms_string, ?regex, forms_unary forms_satisfy,
    ?satisfyEnv, forms_unary forms_oneOf, forms_unary forms_noneOf, forms_unary forms_takeWhile,
    forms_nullary trivial, forms_nullary trivial, forms_nullary trivial, forms_nullary trivial,
    forms_nullary trivial, forms_nullary trivial, forms_nullary trivial, forms_nullary trivial,
    ?digits, nofun⟩
  case regex =>
    intro args built hbuilt
    dsimp only at hbuilt
    split at hbuilt
    · cases hbuilt
      exact forms_regex _ _
    · cases hbuilt
      exact forms_regex _ _
    · cases hbuilt
  case satisfyEnv =>
    intro args built hbuilt
    dsimp only at hbuilt
    split at hbuilt
    · cases hbuilt
      exact forms_satisfyEnv _ _
    · cases hbuilt
      exact forms_satisfyEnv _ _
    · cases hbuilt
  case digits =>
    intro args built hbuilt
    dsimp only at hbuilt
    split at hbuilt
    · cases hbuilt
      exact forms_digits _
    · cases hbuilt
      exact forms_digits _
    · cases hbuilt

theorem forms_derived : ∀ entry ∈ derivedConstructors, entry.2.Forms := by
  simp only [derivedConstructors, List.forall_mem_cons]
  refine ⟨forms_binary forms_skip, ?seqMap, forms_unary forms_choice,
    forms_binary fun n p => Checked.forms_times p n n, forms_unary forms_many,
    forms_unary forms_many1, forms_unary forms_skipMany, forms_unary forms_skipMany1,
    forms_ternary forms_between, forms_binary forms_option, forms_unary (forms_option .null),
    forms_unary forms_optional, forms_binary forms_sepBy, forms_binary forms_sepBy1,
    forms_binary forms_endBy, forms_binary forms_sepEndBy, forms_binary forms_chainLeft,
    forms_binary forms_chainRight, forms_unary forms_notFollowedBy, forms_binary forms_manyTill,
    nofun⟩
  case seqMap =>
    rintro args _ ⟨⟩
    exact forms_seqMap args

theorem forms_methods : ∀ entry ∈ methodConstructors, entry.2.Forms := by
  simp only [methodConstructors, List.forall_mem_cons]
  exact ⟨forms_method _ (forms_binary forms_chain), forms_method _ (forms_binary forms_map),
    forms_method _ (forms_binary forms_relabel), forms_method _ forms_times,
    forms_method _ (forms_unary forms_many), forms_method _ (forms_unary forms_mark),
    forms_operator _ fun a b => forms_alt [a, b], forms_operator _ fun a b => forms_seq [a, b],
    forms_comparison _ forms_skipLeft forms_skip, forms_comparison _ forms_skip forms_skipLeft,
    forms_operator _ forms_chain, nofun⟩

theorem forms_constructors : ∀ entry ∈ constructors, entry.2.Forms := by
  simp only [constructors, List.forall_mem_append]
  exact ⟨⟨⟨forms_basic, forms_character⟩, forms_derived⟩, forms_methods⟩

end Script

open Script (Function)

/-- The grammars of objects: those of the shared objects and of deferred parsers, and what the
constructors make of arguments they accept. -/
inductive Grammar.Made : Grammar Function → Prop where
  | shared {g : Grammar Function} : g ∈ [.offset, .position, .eof, .anyChar, .rest] → Made g
  | deferred (d : DeferralRef) : Made (.deferred d)
  | constructed {entry : String × Script.Constructor} {args : List (Value Function)}
    {c : Cell Function} :
    entry ∈ Script.constructors → entry.2 args = some (.ok c) → Made c.behaviour
  | table {table term : Value Function} {c : Cell Function} :
    Checked.operatorTable table term = .ok (some c) → Made c.behaviour

/-- The functions of the library only get values of the shapes they go by. -/
theorem Grammar.Made.fits {g : Grammar Function} (h : g.Made) : g.Fits := by
  cases h with
  | shared hg =>
    simp only [List.mem_cons, List.not_mem_nil, or_false] at hg
    rcases hg with rfl | rfl | rfl | rfl | rfl <;> trivial
  | deferred => trivial
  | constructed hentry hbuilt => exact Script.forms_constructors _ hentry _ _ hbuilt _ rfl
  | table hbuilt => exact Checked.forms_operatorTable _ _ _ hbuilt _ rfl

end Furthest
