import Furthest.Grammar.Operators
import Furthest.Proofs.Deferred.History

/-!
# The parts of parser objects

A grammar refers to other parser objects, its parts (`Grammar.objects`).  `Grammar.Holds` says that
the parts are the objects among given values, and at most the shared parsers of places besides.  In
a world that is `World.Linked`, every part of every object is an object itself.
-/

namespace Furthest

variable {φ : Type}

namespace Grammar

mutual

/-- The objects that a grammar refers to, in the order in which they stand in it. -/
def objects : Grammar φ → List Ref
  | .object r => [r]
  | .seq ps => objectsAll ps
  | .alt p ps => p.objects ++ objectsAll ps
  | .times p _ _ | .mapEnv p _ | .chainEnv p _ | .relabel p _ | .lookAhead p | .trace p _
  | .subEnv p _ => p.objects
  | .except allowed forbidden => allowed.objects ++ forbidden.objects
  | .custom _ | .succeed _ | .fail _ | .offset | .position | .eof | .anyChar | .rest | .string _
  | .regex .. | .satisfy .. | .takeWhile _ | .fromEnv _ | .deferred _ => []

/-- The objects that several grammars refer to. -/
def objectsAll : List (Grammar φ) → List Ref
  | [] => []
  | p :: ps => p.objects ++ objectsAll ps

end

attribute [simp] objects objectsAll

variable {p q term : Grammar φ} {ps : List (Grammar φ)} {o : Ref} {rs : List Ref}

@[simp] theorem objectsAll_map_object : objectsAll (rs.map object : List (Grammar φ)) = rs := by
  induction rs with
  | nil => rfl
  | cons r rs ih => simp [ih]

/-! ## Derived grammars -/

section

variable (p q)

@[simp] theorem objects_seqItem (ps : List (Grammar φ)) (k : Nat) :
    (seqItem ps k).objects = objectsAll ps := by
  simp [seqItem]

@[simp] theorem objects_seqMap (ps : List (Grammar φ)) (f : Value φ) :
    (seqMap ps f).objects = objectsAll ps := by
  simp [seqMap]

@[simp] theorem objects_skip : (skip p q).objects = p.objects ++ q.objects := by
  simp [skip]

@[simp] theorem objects_skipLeft : (skipLeft p q).objects = p.objects ++ q.objects := by
  simp [skipLeft]

@[simp] theorem objects_between (r : Grammar φ) :
    (between p q r).objects = p.objects ++ (r.objects ++ q.objects) := by
  simp [between]

@[simp] theorem objects_mark : (mark p).objects = Ref.offset :: p.objects ++ [Ref.offset] := by
  simp [mark]

@[simp] theorem objects_markPositions :
    (markPositions p).objects = Ref.position :: p.objects ++ [Ref.position] := by
  simp [markPositions]

@[simp] theorem objects_many : (many p).objects = p.objects := by
  simp [many]

@[simp] theorem objects_many1 : (many1 p).objects = p.objects := by
  simp [many1]

@[simp] theorem objects_void : (void p).objects = p.objects := by
  simp [void]

@[simp] theorem objects_skipMany : (skipMany p).objects = p.objects := by
  simp [skipMany]

@[simp] theorem objects_skipMany1 : (skipMany1 p).objects = p.objects := by
  simp [skipMany1]

@[simp] theorem objects_option (v : Value φ) : (option v p).objects = p.objects := by
  simp [option]

@[simp] theorem objects_optional : (optional p).objects = p.objects := by
  simp [optional]

@[simp] theorem objects_notFollowedBy : (notFollowedBy p).objects = p.objects := by
  simp [notFollowedBy]

@[simp] theorem objects_sepBy1 :
    (sepBy1 p q).objects = p.objects ++ (q.objects ++ p.objects) := by
  simp [sepBy1]

@[simp] theorem objects_sepBy : (sepBy p q).objects = (sepBy1 p q).objects := by
  simp [sepBy]

@[simp] theorem objects_endBy : (endBy p q).objects = p.objects ++ q.objects := by
  simp [endBy]

@[simp] theorem objects_sepEndBy :
    (sepEndBy p q).objects = (sepBy p q).objects ++ q.objects := by
  simp [sepEndBy]

@[simp] theorem objects_manyTill :
    (manyTill p q).objects = p.objects ++ (q.objects ++ q.objects) := by
  simp [manyTill]

@[simp] theorem objects_chainLeft :
    (chainLeft p q).objects = p.objects ++ (q.objects ++ p.objects) := by
  simp [chainLeft]

@[simp] theorem objects_chainRight :
    (chainRight p q).objects = p.objects ++ (q.objects ++ p.objects) := by
  simp [chainRight]

end

/-! ### Operator tables -/

theorem mem_objects_anyOptional : o ∈ (anyOptional ps).objects ↔ o ∈ objectsAll ps := by
  cases ps <;> simp [anyOptional]

theorem mem_objects_joinLeft :
    o ∈ (joinLeft p ps).objects ↔ o ∈ p.objects ∨ o ∈ objectsAll ps := by
  cases ps with
  | nil => simp [joinLeft]
  | cons q ps =>
    simp only [joinLeft, objects_chainLeft, objects, objectsAll, List.mem_append]
    tauto

theorem mem_objects_joinRight :
    o ∈ (joinRight p ps).objects ↔ o ∈ p.objects ∨ o ∈ objectsAll ps := by
  cases ps with
  | nil => simp [joinRight]
  | cons q ps =>
    simp only [joinRight, objects_chainRight, objects, objectsAll, List.mem_append]
    tauto

theorem mem_objects_joinOnce :
    o ∈ (joinOnce p ps).objects ↔ o ∈ p.objects ∨ o ∈ objectsAll ps := by
  cases ps with
  | nil => simp [joinOnce]
  | cons q ps =>
    simp only [joinOnce, objects, objectsAll, objects_option, List.mem_append, List.not_mem_nil]
    tauto

/-- A level refers to what its term and the operators of its row refer to. -/
theorem mem_objects_level {row : OperatorRow φ} :
    o ∈ (level row term).objects ↔
      o ∈ objectsAll row.prefixes ∨ o ∈ objectsAll row.postfixes ∨ o ∈ term.objects ∨
        o ∈ objectsAll row.leftInfixes ∨ o ∈ objectsAll row.rightInfixes ∨
          o ∈ objectsAll row.plainInfixes := by
  rw [level, mem_objects_joinOnce, mem_objects_joinRight, mem_objects_joinLeft, unary]
  simp only [objects, objectsAll, List.mem_append, mem_objects_anyOptional, List.not_mem_nil]
  tauto

/-! ## Parts among values -/

/-- A grammar refers to the objects among some values, to all of them, and to no others than the
shared parsers of places. -/
structure Holds (g : Grammar φ) (parts : List (Value φ)) : Prop where
  all : ∀ o, .parser o ∈ parts → o ∈ g.objects
  only : ∀ o ∈ g.objects, .parser o ∈ parts ∨ o ∈ [Ref.offset, Ref.position]

theorem Holds.of_mem {g : Grammar φ} {parts parts' : List (Value φ)} (h : g.Holds parts)
    (hmem : ∀ v, v ∈ parts ↔ v ∈ parts') : g.Holds parts' where
  all o ho := h.all o ((hmem _).2 ho)
  only o ho := (h.only o ho).imp_left (hmem _).1

end Grammar

namespace World

/-- The shared parsers of places are there, and every part of every object is an object. -/
structure Linked (w : World φ) : Prop where
  shared : Ref.position < w.cells.size
  parts : ∀ r, ∀ o ∈ (w.cell r).behaviour.objects, o < w.cells.size

theorem linked_initial : (initial : World φ).Linked where
  shared := by simp [initial, Ref.position]
  parts r o ho := by
    have hnone : ∀ c ∈ (initial : World φ).cells, c.behaviour.objects = [] := by
      simp [initial]
    have hcell : ((initial : World φ).cell r).behaviour.objects = [] := by
      unfold cell
      rcases Nat.lt_or_ge r (initial : World φ).cells.size with hr | hr
      · rw [Array.getElem?_eq_getElem hr]
        exact hnone _ (Array.getElem_mem hr)
      · rw [Array.getElem?_eq_none hr]
        rfl
    rw [hcell] at ho
    exact absurd ho List.not_mem_nil

/-- A new object keeps a world linked if its parts are there. -/
theorem Linked.push {w w' : World φ} {c : Cell φ} (h : w.Linked)
    (hw' : w'.cells = w.cells.push c) (hc : ∀ o ∈ c.behaviour.objects, o < w.cells.size) :
    w'.Linked := by
  have hcell : ∀ r, w'.cell r = if r = w.cells.size then c else w.cell r := by
    intro r
    rw [← cell_push w c r]
    simp only [cell, hw']
  have hsize : w'.cells.size = w.cells.size + 1 := by
    rw [hw', Array.size_push]
  constructor
  · rw [hsize]
    exact Nat.lt_succ_of_lt h.shared
  · intro r o ho
    rw [hcell] at ho
    rw [hsize]
    split at ho
    · exact Nat.lt_succ_of_lt (hc o ho)
    · exact Nat.lt_succ_of_lt (h.parts r o ho)

/-- So does an object that comes to do what another one does. -/
theorem Linked.rebind {w : World φ} (h : w.Linked) (r substitute : Ref) :
    (w.rebind r (w.cell substitute).behaviour).Linked := by
  have hsize : (w.rebind r (w.cell substitute).behaviour).cells.size = w.cells.size := by
    simp [World.rebind]
  constructor
  · rw [hsize]
    exact h.shared
  · intro r' o ho
    rw [hsize]
    rcases behaviour_rebind w r r' (w.cell substitute).behaviour with hnew | hold
    · exact h.parts substitute o (hnew ▸ ho)
    · exact h.parts r' o (hold ▸ ho)

end World

end Furthest
