import Furthest.Machine.Run
import Furthest.Script.Eval
import Furthest.Proofs.Construction.Checks

/-!
# Parsers are built of parsers

`Building` lists the calls that build a parser from others, with the values that stand where a
parser belongs; whatever else they take is acceptable.  Such a call is `Guarded`: it makes a new
parser object if all these values are parsers, and otherwise halts with a complaint about one that
is not.  Only the builder of operator tables is not, when it is given a table without rows
(`Rowless`): then it hands its term back, whatever that is.

In a world that is `Assembled` by such calls all parts of all parsers are parsers.
-/

namespace Furthest.Script

open Checked Primitive

/-! ## Calls that build parsers -/

/-- The bounds of a repetition: one count, or a least and a greatest one in order. -/
inductive Bounds : List Val → Prop where
  | exactly {n : Number} : n.lt (.int 0) = false → Bounds [.number n]
  | defaulted {n : Number} : n.lt (.int 0) = false → Bounds [.number n, .null]
  | between {min max : Number} :
    min.lt (.int 0) = false → max.lt min = false → Bounds [.number min, .number max]

/-- Calls by name that build a parser from others, with their arguments and with the values among
these that stand where a parser belongs. -/
inductive Building : String → List Val → List Val → Prop where
  | one {name : String} (p : Val) :
    name ∈ ["mark", "lc_mark", "look_ahead", "many", "many1", "skip_many", "skip_many1",
      "option_maybe", "optional", "not_followed_by"] → Building name [p] [p]
  | two {name : String} (p q : Val) :
    name ∈ ["except_", "skip", "sep_by", "sep_by1", "end_by", "sep_end_by", "chainl1", "chainr1",
      "many_till"] → Building name [p, q] [p, q]
  | function {name : String} (p : Val) (f : Function) :
    name ∈ ["map", "map_env", "chain", "chain_env", "sub_env"] →
      Building name [p, .function f] [p]
  | desc (p : Val) (label : String) : Building "desc" [p, .text label] [p]
  | trace (p label : Val) : Building "trace" [p, label] [p]
  | option (v p : Val) : Building "option" [v, p] [p]
  | between (opening closing p : Val) :
    Building "between" [opening, closing, p] [opening, p, closing]
  | seq (ps : List Val) : Building "seq" ps ps
  | alt (p : Val) (ps : List Val) : Building "alt" (p :: ps) (p :: ps)
  | choice {v p : Val} {ps : List Val} :
    items v = .ok (p :: ps) → Building "choice" [v] (p :: ps)
  | seqMap (ps : List Val) (f : Function) : Building "seq_map" (ps ++ [.function f]) ps
  | times (p : Val) {bounds : List Val} : Bounds bounds → Building "times" (p :: bounds) [p]
  | count {n : Number} (p : Val) :
    n.lt (.int 0) = false → Building "count" [.number n, p] [p]
  | table {table : Val} {rows : List Val} {parts : List (List Val)} (term : Val) :
    items table = .ok rows → List.Forall₂ RowParts rows parts →
      Building "build_expression_parser" [table, term] (term :: parts.flatten)
  | method {name : String} (r : Ref) :
    name ∈ ["p.many", "p.mark"] → Building name [.parser r] [.parser r]
  | methodFunction {name : String} (r : Ref) (f : Function) :
    name ∈ ["p.map", "p.bind", ">>"] → Building name [.parser r, .function f] [.parser r]
  | methodLabel (r : Ref) (label : String) :
    Building "p.label" [.parser r, .text label] [.parser r]
  | methodTimes (r : Ref) {bounds : List Val} :
    Bounds bounds → Building "p.times" (.parser r :: bounds) [.parser r]
  /-- An operator is one of its first operand. -/
  | operator {name : String} (r : Ref) (q : Val) :
    name ∈ ["|", "&", ">", "<"] → Building name [.parser r, q] [.parser r, q]

/-- The builder of operator tables is given a table without rows. -/
def Rowless (name : String) (args : List Val) : Prop :=
  name = "build_expression_parser" ∧ ∃ table term, args = [table, term] ∧ items table = .ok []

/-- A call returns a parser if some values are all parsers, and otherwise halts for the type of an
argument. -/
structure Meets (x : Machine Function Val) (parts : List Val) (w : World Function) : Prop where
  returns : (∀ v ∈ parts, v.isParser = true) → ∃ r w', x w = .ok (.parser r) w'
  raises : (∃ v ∈ parts, v.isParser = false) →
    ∃ cause : Fault Function, cause.kind = .type ∧ x w = .error (.fault cause) w

/-- Nothing is changed but that a value which is no parser is complained about. -/
def Refuses (x : Machine Function Val) (parts : List Val) (w : World Function) : Prop :=
  ∃ asker, ∃ v ∈ parts, v.isParser = false ∧ x w = .error (.fault (.unfit asker .parser v)) w

/-- A call makes one new object, of which something holds, if some values are all parsers, and
otherwise refuses one that is not. -/
structure Guarded (x : Machine Function Val) (parts : List Val) (w : World Function)
    (Q : Cell Function → Prop) : Prop where
  builds : (∀ v ∈ parts, v.isParser = true) →
    ∃ c, Q c ∧ x w = .ok (.parser w.cells.size) { w with cells := w.cells.push c }
  refuses : (∃ v ∈ parts, v.isParser = false) → Refuses x parts w

theorem Guarded.meets {x : Machine Function Val} {parts : List Val} {w : World Function}
    {Q : Cell Function → Prop} (h : Guarded x parts w Q) : Meets x parts w where
  returns hall :=
    let ⟨_, _, hbuilt⟩ := h.builds hall
    ⟨_, _, hbuilt⟩
  raises hunfit :=
    let ⟨_, _, _, _, hfault⟩ := h.refuses hunfit
    ⟨_, rfl, hfault⟩

/-- There is a function of a name, and its calls are as described in every world. -/
def Calls (name : String) (args : List Val)
    (Q : Machine Function Val → World Function → Prop) : Prop :=
  ∃ f, find? name = some f ∧ ∀ t w, Q (f t args) w

/-- The parts of an object are the given parsers. -/
abbrev BuiltOf (parts : List Val) (c : Cell Function) : Prop := c.behaviour.Holds parts

theorem guarded_make {built : Built Function (Cell Function)} {parts : List Val}
    (h : Guards built parts) (w : World Function) :
    Guarded (make built) parts w (BuiltOf parts) where
  builds hall := by
    obtain ⟨c, rfl, hc⟩ := h.accepts hall
    exact ⟨c, hc, rfl⟩
  refuses hunfit := by
    obtain ⟨asker, v, hv, hunfit, rfl⟩ := h.refuses hunfit
    exact ⟨asker, v, hv, hunfit, rfl⟩

theorem calls_constructor {name : String} {f : Constructor} {args parts : List Val}
    {built : Built Function (Cell Function)} (hfind : find? name = some (construct name f))
    (hbuilt : f args = some built) (h : Guards built parts) :
    Calls name args fun x w => Guarded x parts w (BuiltOf parts) := by
  refine ⟨_, hfind, fun _ w => ?_⟩
  simp only [construct, hbuilt]
  exact guarded_make h w

section Names

variable {name : String}

theorem calls_one (p : Val) (h : name ∈ ["mark", "lc_mark", "look_ahead", "many", "many1",
    "skip_many", "skip_many1", "option_maybe", "optional", "not_followed_by"]) :
    Calls name [p] fun x w => Guarded x [p] w (BuiltOf [p]) := by
  revert name
  simp only [List.forall_mem_cons]
  exact ⟨calls_constructor rfl rfl (guards_mark p),
    calls_constructor rfl rfl (guards_markPositions p),
    calls_constructor rfl rfl (guards_lookAhead p), calls_constructor rfl rfl (guards_many p),
    calls_constructor rfl rfl (guards_many1 p), calls_constructor rfl rfl (guards_skipMany p),
    calls_constructor rfl rfl (guards_skipMany1 p),
    calls_constructor rfl rfl (guards_option p .null),
    calls_constructor rfl rfl (guards_optional p),
    calls_constructor rfl rfl (guards_notFollowedBy p), nofun⟩

theorem calls_two (p q : Val) (h : name ∈ ["except_", "skip", "sep_by", "sep_by1", "end_by",
    "sep_end_by", "chainl1", "chainr1", "many_till"]) :
    Calls name [p, q] fun x w => Guarded x [p, q] w (BuiltOf [p, q]) := by
  revert name
  simp only [List.forall_mem_cons]
  exact ⟨calls_constructor rfl rfl (guards_except p q),
    calls_constructor rfl rfl (guards_skip p q), calls_constructor rfl rfl (guards_sepBy p q),
    calls_constructor rfl rfl (guards_sepBy1 p q), calls_constructor rfl rfl (guards_endBy p q),
    calls_constructor rfl rfl (guards_sepEndBy p q),
    calls_constructor rfl rfl (guards_chainLeft p q),
    calls_constructor rfl rfl (guards_chainRight p q),
    calls_constructor rfl rfl (guards_manyTill p q), nofun⟩

theorem calls_function (p : Val) (f : Function)
    (h : name ∈ ["map", "map_env", "chain", "chain_env", "sub_env"]) :
    Calls name [p, .function f] fun x w => Guarded x [p] w (BuiltOf [p]) := by
  revert name
  simp only [List.forall_mem_cons]
  exact ⟨calls_constructor rfl rfl (guards_map p f), calls_constructor rfl rfl (guards_mapEnv p f),
    calls_constructor rfl rfl (guards_chain p f), calls_constructor rfl rfl (guards_chainEnv p f),
    calls_constructor rfl rfl (guards_subEnv p f), nofun⟩

theorem calls_method (r : Ref) (h : name ∈ ["p.many", "p.mark"]) :
    Calls name [.parser r] fun x w => Guarded x [.parser r] w (BuiltOf [.parser r]) := by
  revert name
  simp only [List.forall_mem_cons]
  exact ⟨calls_constructor rfl rfl (guards_many _), calls_constructor rfl rfl (guards_mark _),
    nofun⟩

theorem calls_methodFunction (r : Ref) (f : Function) (h : name ∈ ["p.map", "p.bind", ">>"]) :
    Calls name [.parser r, .function f] fun x w =>
      Guarded x [.parser r] w (BuiltOf [.parser r]) := by
  revert name
  simp only [List.forall_mem_cons]
  exact ⟨calls_constructor rfl rfl (guards_map _ f), calls_constructor rfl rfl (guards_chain _ f),
    calls_constructor rfl rfl (guards_chain _ f), nofun⟩

theorem calls_operator (r : Ref) (q : Val) (h : name ∈ ["|", "&", ">", "<"]) :
    Calls name [.parser r, q] fun x w =>
      Guarded x [.parser r, q] w (BuiltOf [.parser r, q]) := by
  revert name
  simp only [List.forall_mem_cons]
  exact ⟨calls_constructor rfl rfl (guards_alt _ [q]),
    calls_constructor rfl rfl (guards_seq [.parser r, q]),
    calls_constructor rfl rfl (guards_skipLeft _ q), calls_constructor rfl rfl (guards_skip _ q),
    nofun⟩

end Names

theorem calls_choice {v p : Val} {ps : List Val} (h : items v = .ok (p :: ps)) :
    Calls "choice" [v] fun x w => Guarded x (p :: ps) w (BuiltOf (p :: ps)) := by
  refine calls_constructor (f := unary Checked.choice) rfl rfl ?_
  rw [Checked.choice, h]
  exact guards_alt p ps

/-- The builder of operator tables makes an object for every table that has a row. -/
theorem calls_table {table : Val} {rows : List Val} {parts : List (List Val)} (term : Val)
    (hitems : items table = .ok rows) (hne : rows ≠ [])
    (hrows : List.Forall₂ RowParts rows parts) :
    Calls "build_expression_parser" [table, term] fun x w =>
      Guarded x (term :: parts.flatten) w (BuiltOf (term :: parts.flatten)) := by
  have h := checks_operatorTable term hitems hne hrows
  refine ⟨expressionParser, rfl, fun t w => ⟨fun hall => ?_, fun hunfit => ?_⟩⟩
  · obtain ⟨_, hmade, c, rfl, hc⟩ := h.accepts hall
    refine ⟨c, hc, ?_⟩
    simp only [expressionParser, hmade]
    rfl
  · obtain ⟨asker, v, hv, hunfit, hfault⟩ := h.refuses hunfit
    refine ⟨asker, v, hv, hunfit, ?_⟩
    simp only [expressionParser, hfault]
    rfl

/-- A table without rows leaves its term as it is, and unchecked. -/
theorem calls_emptyTable {table : Val} (term : Val) (h : items table = .ok []) :
    Calls "build_expression_parser" [table, term] fun x w => x w = .ok term w := by
  refine ⟨expressionParser, rfl, fun t w => ?_⟩
  simp only [expressionParser, operatorTable_of_empty term h]
  rfl

/-- Every function that builds a parser from others checks these, tables without rows aside. -/
theorem Building.guarded {name : String} {args parts : List Val} (h : Building name args parts)
    (hrows : ¬ Rowless name args) :
    Calls name args fun x w => Guarded x parts w (BuiltOf parts) := by
  cases h with
  | one p hname => exact calls_one p hname
  | two p q hname => exact calls_two p q hname
  | function p f hname => exact calls_function p f hname
  | desc p label => exact calls_constructor rfl rfl (guards_relabel p label)
  | trace p label => exact calls_constructor rfl rfl (guards_trace p label)
  | option v p => exact calls_constructor rfl rfl (guards_option p v)
  | between opening closing p =>
    exact calls_constructor rfl rfl (guards_between p opening closing)
  | seq => exact calls_constructor rfl rfl (guards_seq _)
  | alt p ps => exact calls_constructor rfl rfl (guards_alt p ps)
  | choice hitems => exact calls_choice hitems
  | seqMap _ f => exact calls_constructor rfl rfl (guards_seqMap f parts)
  | times p hbounds =>
    cases hbounds with
    | exactly hn => exact calls_constructor rfl rfl (guards_times p hn (Number.lt_self _))
    | defaulted hn => exact calls_constructor rfl rfl (guards_times p hn (Number.lt_self _))
    | between hmin hmax => exact calls_constructor rfl rfl (guards_times p hmin hmax)
  | count p hn => exact calls_constructor rfl rfl (guards_times p hn (Number.lt_self _))
  | @table table rows _ term hitems hparts =>
    have hne : rows ≠ [] := by
      rintro rfl
      exact hrows ⟨rfl, table, term, rfl, hitems⟩
    exact calls_table term hitems hne hparts
  | method r hname => exact calls_method r hname
  | methodFunction r f hname => exact calls_methodFunction r f hname
  | methodLabel r label => exact calls_constructor rfl rfl (guards_relabel _ label)
  | methodTimes r hbounds =>
    cases hbounds with
    | exactly hn => exact calls_constructor rfl rfl (guards_times _ hn (Number.lt_self _))
    | defaulted hn => exact calls_constructor rfl rfl (guards_times _ hn (Number.lt_self _))
    | between hmin hmax => exact calls_constructor rfl rfl (guards_times _ hmin hmax)
  | operator r q hname => exact calls_operator r q hname

theorem Building.rowless {name : String} {args parts : List Val} (h : Building name args parts)
    (hrows : Rowless name args) :
    ∃ term, parts = [term] ∧ Calls name args fun x w => x w = .ok term w := by
  obtain ⟨rfl, table, term, rfl, hitems⟩ := hrows
  generalize hname : "build_expression_parser" = name at h
  generalize hargs : [table, term] = args at h
  cases h with
  | table _ hitems' hparts =>
    cases hargs
    cases hitems.symm.trans hitems'
    cases hparts
    exact ⟨term, rfl, hname ▸ calls_emptyTable term hitems⟩
  | one _ hmem | two _ _ hmem | function _ _ hmem | method _ hmem | methodFunction _ _ hmem
  | operator _ _ hmem =>
    subst hname
    exact absurd hmem (by decide)
  | _ => exact absurd hname (by decide)

/-- A copy does what was copied. -/
theorem calls_clone (v : Val) :
    Calls "clone" [v] fun x w => Guarded x [v] w fun c => ∃ r, v = .parser r ∧ c = w.cell r := by
  refine ⟨clone, rfl, fun t w => ?_⟩
  cases v with
  | parser r => exact ⟨fun _ => ⟨_, ⟨r, rfl, rfl⟩, rfl⟩, fun h => by simp [Value.isParser] at h⟩
  | _ =>
    exact ⟨fun h => by simp [Value.isParser] at h,
      fun _ => ⟨"clone", _, List.mem_singleton_self _, rfl, rfl⟩⟩

/-! ### Calls without a parser to build of -/

theorem calls_refused {name : String} {f : Constructor} {args : List Val} {cause : Fault Function}
    (hfind : find? name = some (construct name f)) (hbuilt : f args = some (.error cause)) :
    Calls name args fun x w => x w = .error (.fault cause) w := by
  refine ⟨_, hfind, fun _ w => ?_⟩
  simp only [construct, hbuilt]
  rfl

/-- An operator between something else and a parser is no operator of a parser. -/
theorem calls_operator_left {name : String} {v : Val} (hv : v.isParser = false) (r : Ref)
    (h : name ∈ ["|", "&"]) : Calls name [v, .parser r] fun x w => Meets x [v, .parser r] w := by
  have hcalls : ∀ {name f}, find? name = some (construct name (Script.operator name f)) →
      Calls name [v, .parser r] fun x w => Meets x [v, .parser r] w := by
    intro name f hfind
    have hbuilt : ∃ message, Script.operator name f [v, .parser r] =
        some (.error (.raised .type message)) := by
      cases v with
      | parser _ => cases hv
      | _ => exact ⟨_, rfl⟩
    obtain ⟨message, hbuilt⟩ := hbuilt
    obtain ⟨g, hg, hfault⟩ := calls_refused hfind hbuilt
    refine ⟨g, hg, fun t w => ⟨fun hall => ?_, fun _ => ⟨_, rfl, hfault t w⟩⟩⟩
    simp [hv] at hall
  revert name
  simp only [List.forall_mem_cons]
  exact ⟨hcalls rfl, hcalls rfl, nofun⟩

/-- A comparison sign between something else and a parser is the mirrored one of the parser. -/
theorem calls_comparison_left {name : String} {v : Val} (hv : v.isParser = false) (r : Ref)
    (h : name ∈ [">", "<"]) : Calls name [v, .parser r] fun x w => Refuses x [v, .parser r] w := by
  have hcalls : ∀ {name f mirrored}, Guards (mirrored (.parser r) v) [.parser r, v] →
      find? name = some (construct name (comparison name f mirrored)) →
      Calls name [v, .parser r] fun x w => Refuses x [v, .parser r] w := by
    intro name f mirrored hguards hfind
    have hbuilt : comparison name f mirrored [v, .parser r] = some (mirrored (.parser r) v) := by
      cases v with
      | parser _ => cases hv
      | _ => rfl
    obtain ⟨g, hg, hguarded⟩ := calls_constructor hfind hbuilt hguards
    refine ⟨g, hg, fun t w => ?_⟩
    obtain ⟨asker, u, hu, hunfit, hfault⟩ := (hguarded t w).refuses ⟨v, by simp, hv⟩
    exact ⟨asker, u, List.mem_pair.2 (List.mem_pair.1 hu).symm, hunfit, hfault⟩
  revert name
  simp only [List.forall_mem_cons]
  exact ⟨hcalls (guards_skip _ v) rfl, hcalls (guards_skipLeft _ v) rfl, nofun⟩

/-- No operator takes something else before a parser. -/
theorem calls_left {name : String} {v : Val} (hv : v.isParser = false) (r : Ref)
    (h : name ∈ ["|", "&", ">", "<"]) :
    Calls name [v, .parser r] fun x w => Meets x [v, .parser r] w := by
  have hname : name ∈ ["|", "&"] ∨ name ∈ [">", "<"] := List.mem_append.1 h
  rcases hname with hname | hname
  · exact calls_operator_left hv r hname
  · obtain ⟨f, hf, hrefuses⟩ := calls_comparison_left hv r hname
    refine ⟨f, hf, fun t w => ⟨fun hall => ?_, fun _ => ?_⟩⟩
    · simp [hv] at hall
    · obtain ⟨_, _, _, _, hfault⟩ := hrefuses t w
      exact ⟨_, rfl, hfault⟩

theorem calls_noAlternatives :
    Calls "alt" [] fun x w => x w = .error (.fault .noAlternatives) w :=
  calls_refused rfl rfl

theorem calls_noChoices {v : Val} (h : items v = .ok []) :
    Calls "choice" [v] fun x w => x w = .error (.fault .noAlternatives) w := by
  refine calls_refused (f := unary Checked.choice) rfl ?_
  simp only [unary, Checked.choice, h]
  rfl

/-! ## What can be built -/

/-- The worlds that come about, from the shared parsers on, by calls that build a parser from
parsers which are there.  Other parsers may be made in any way as long as they have no parts, and
parsers may be named, copied and put in place of others. -/
inductive Assembled : World Function → Prop where
  | initial : Assembled .initial
  | built {w w' : World Function} {name : String} {args parts : List Val} {f : Primitive}
    {t : Tools Function} {v : Val} :
    Assembled w → Building name args parts → (∀ r, .parser r ∈ parts → r < w.cells.size) →
      find? name = some f → f t args w = .ok v w' → Assembled w'
  | alone {w w' : World Function} {c : Cell Function} :
    Assembled w → w'.cells = w.cells.push c → c.behaviour.objects = [] → Assembled w'
  | cloned {w w' : World Function} {r r' : Ref} :
    Assembled w → Machine.clone r w = .ok r' w' → Assembled w'
  | replaced {w w' : World Function} (r substitute : Ref) {u : PUnit} :
    Assembled w → Machine.replace r substitute w = .ok u w' → Assembled w'
  | kept {w w' : World Function} :
    Assembled w → w'.cells.size = w.cells.size →
      (∀ r, (w'.cell r).behaviour = (w.cell r).behaviour) → Assembled w'

/-- An object that is built of parsers which are there keeps a world linked. -/
theorem BuiltOf.linked {parts : List Val} {c : Cell Function} (hc : BuiltOf parts c)
    {w : World Function} (hw : w.Linked) (hlive : ∀ r, .parser r ∈ parts → r < w.cells.size) :
    World.Linked { w with cells := w.cells.push c } := by
  refine hw.push rfl fun o ho => ?_
  rcases hc.only o ho with hpart | hshared
  · exact hlive o hpart
  · have hle : o ≤ Ref.position := by
      rcases List.mem_pair.1 hshared with rfl | rfl <;> decide
    exact Nat.lt_of_le_of_lt hle hw.shared

/-- So does a call that builds a parser of them. -/
theorem Building.linked {name : String} {args parts : List Val} (h : Building name args parts)
    {w w' : World Function} (hw : w.Linked) (hlive : ∀ r, .parser r ∈ parts → r < w.cells.size)
    {f : Primitive} (hfind : find? name = some f) {t : Tools Function} {v : Val}
    (hcall : f t args w = .ok v w') : w'.Linked := by
  by_cases hrows : Rowless name args
  · obtain ⟨term, -, f', hfind', hreturned⟩ := h.rowless hrows
    cases hfind.symm.trans hfind'
    cases hcall.symm.trans (hreturned t w)
    exact hw
  obtain ⟨f', hfind', hguarded⟩ := h.guarded hrows
  cases hfind.symm.trans hfind'
  by_cases hall : ∀ p ∈ parts, p.isParser = true
  · obtain ⟨c, hc, hbuilt⟩ := (hguarded t w).builds hall
    cases hcall.symm.trans hbuilt
    exact BuiltOf.linked hc hw hlive
  · -- A refused call has no answer.
    obtain ⟨_, _, _, _, hfault⟩ := (hguarded t w).refuses (by simpa using hall)
    cases hcall.symm.trans hfault

theorem Assembled.linked {w : World Function} (h : Assembled w) : w.Linked := by
  induction h with
  | initial => exact World.linked_initial
  | built _ hbuilding hlive hfind hcall ih => exact hbuilding.linked ih hlive hfind hcall
  | alone _ hpush hnone ih => exact ih.push hpush (by simp [hnone])
  | @cloned w w' r r' _ hclone ih =>
    cases hclone
    exact ih.push rfl (ih.parts r)
  | @replaced w w' r substitute u _ hreplace ih =>
    cases hreplace
    exact ih.rebind r substitute
  | kept _ hsize hsame ih =>
    constructor
    · rw [hsize]
      exact ih.shared
    · intro r o ho
      rw [hsize]
      exact ih.parts r o (hsame r ▸ ho)

theorem meets_of_returned {x : Machine Function Val} {term : Val} {w : World Function}
    (h : x w = .ok term w) : Meets x [term] w ↔ ∀ v ∈ [term], v.isParser = true := by
  constructor
  · intro hmeets
    by_contra hunfit
    obtain ⟨cause, -, hfault⟩ := hmeets.raises (by simpa using hunfit)
    cases h.symm.trans hfault
  · intro hall
    obtain ⟨r, rfl⟩ := Value.isParser_iff.1 (hall _ (List.mem_singleton_self _))
    exact ⟨fun _ => ⟨r, w, h⟩, fun hunfit => by simp [Value.isParser] at hunfit⟩

/-- A call by name that builds a parser from others makes a parser of these if they are parsers, and
otherwise is a complaint about one that is not, unless a table without rows hands its term back:
that is the only call that fails to check what it is given.  No operator takes something else before
a parser, and a comparison sign complains about it as `seq` does.  A copy is made of a parser only,
and a choice needs something to choose from.  Whatever is assembled so, parsers are made of
parsers. -/
theorem parts_checked_when_built {name : String} {args parts : List Val}
    (h : Building name args parts) :
    (Calls name args fun x w =>
      (Meets x parts w ↔ (Rowless name args → ∀ v ∈ parts, v.isParser = true)) ∧
      (¬ Rowless name args → Guarded x parts w (BuiltOf parts)) ∧
      (Rowless name args → ∃ term, parts = [term] ∧ x w = .ok term w)) ∧
    (∀ v : Val, Calls "clone" [v] fun x w => Meets x [v] w ∧
      Guarded x [v] w fun c => ∃ r, v = .parser r ∧ c = w.cell r) ∧
    (∀ {name : String} {v : Val} (r : Ref), v.isParser = false → name ∈ ["|", "&", ">", "<"] →
      Calls name [v, .parser r] fun x w => Meets x [v, .parser r] w) ∧
    (∀ {name : String} {v : Val} (r : Ref), v.isParser = false → name ∈ [">", "<"] →
      Calls name [v, .parser r] fun x w => Refuses x [v, .parser r] w) ∧
    (Calls "alt" [] fun x w => x w = .error (.fault .noAlternatives) w) ∧
    (∀ v : Val, items v = .ok [] →
      Calls "choice" [v] fun x w => x w = .error (.fault .noAlternatives) w) ∧
    ∀ w : World Function, Assembled w → w.Linked := by
  refine ⟨?calls, fun v => ?clone, fun r hv hname => calls_left hv r hname,
    fun r hv hname => calls_comparison_left hv r hname, calls_noAlternatives,
    fun _ => calls_noChoices, fun _ => Assembled.linked⟩
  case calls =>
    by_cases hrows : Rowless name args
    · obtain ⟨term, rfl, f, hfind, hreturned⟩ := h.rowless hrows
      refine ⟨f, hfind, fun t w => ⟨?_, fun hn => absurd hrows hn, fun _ => ?_⟩⟩
      · exact (meets_of_returned (hreturned t w)).trans ⟨fun hall _ => hall, fun hall => hall hrows⟩
      · exact ⟨term, rfl, hreturned t w⟩
    · obtain ⟨f, hfind, hguarded⟩ := h.guarded hrows
      refine ⟨f, hfind, fun t w => ⟨?_, fun _ => hguarded t w, fun hr => absurd hr hrows⟩⟩
      exact iff_of_true (hguarded t w).meets fun hr => absurd hr hrows
  case clone =>
    obtain ⟨f, hfind, hguarded⟩ := calls_clone v
    exact ⟨f, hfind, fun t w => ⟨(hguarded t w).meets, hguarded t w⟩⟩

/-- A text is refused as a separator, and as the term of a table with a row, though that row holds
no operators.  The world in which any character may repeat is linked. -/
theorem parts_checked_when_built_anyChar :
    (Calls "sep_by" [.parser Ref.anyChar, .text ","] fun x w =>
      Refuses x [.parser Ref.anyChar, .text ","] w) ∧
    (Calls "build_expression_parser" [.list [.list []], .text "x"] fun x w =>
      Refuses x [.text "x"] w) ∧
    ∃ w : World Function, w.cells.size = 6 ∧ (w.cell 5).behaviour.objects = [Ref.anyChar] ∧
      Assembled w ∧ w.Linked := by
  have hsepBy : Building "sep_by" [.parser Ref.anyChar, .text ","]
      [.parser Ref.anyChar, .text ","] := .two _ _ (by decide)
  have htable : Building "build_expression_parser" [.list [.list []], .text "x"] [.text "x"] :=
    .table (.text "x") rfl (.cons ⟨[], rfl, rfl⟩ .nil)
  have hmany : Building "many" [.parser Ref.anyChar] [.parser Ref.anyChar] := .one _ (by decide)
  refine ⟨?separator, ?term, ?world⟩
  case separator =>
    obtain ⟨f, hf, hg⟩ := (parts_checked_when_built hsepBy).1
    refine ⟨f, hf, fun t w => ?_⟩
    exact ((hg t w).2.1 fun hr => absurd hr.1 (by decide)).refuses ⟨.text ",", by simp, rfl⟩
  case term =>
    obtain ⟨f, hf, hg⟩ := (parts_checked_when_built htable).1
    refine ⟨f, hf, fun t w => ((hg t w).2.1 ?_).refuses ⟨.text "x", by simp, rfl⟩⟩
    rintro ⟨-, table, term, hargs, hitems⟩
    cases hargs
    cases hitems
  case world =>
    have hlive : ∀ r : Ref, (.parser r : Val) ∈ [.parser Ref.anyChar] →
        r < (World.initial : World Function).cells.size := by
      rintro r hr
      cases List.mem_singleton.1 hr
      decide
    have hassembled := Assembled.initial.built hmany hlive (f := construct "many" (unary many)) rfl
      (t := Machine.tools (applyFunction []) 0 0) rfl
    exact ⟨_, rfl, rfl, hassembled, (parts_checked_when_built hmany).2.2.2.2.2.2 _ hassembled⟩

/-- Without rows nothing looks at the term: a text comes back as it is, and no complaint. -/
theorem emptyTable_unchecked :
    Building "build_expression_parser" [.list [], .text "x"] [.text "x"] ∧
      (Value.text "x" : Val).isParser = false ∧
      Calls "build_expression_parser" [.list [], .text "x"] fun x w =>
        x w = .ok (.text "x") w ∧ ¬ Meets x [.text "x"] w := by
  refine ⟨.table (.text "x") rfl .nil, rfl, expressionParser, rfl, fun t w => ⟨rfl, ?_⟩⟩
  intro hmeets
  obtain ⟨cause, -, hfault⟩ := hmeets.raises ⟨.text "x", by simp, rfl⟩
  cases hfault

end Furthest.Script
