import Furthest.Proofs.Deferred.Bond

/-!
# The wording of alike values

Alike values are shown and worded alike, and alike faults are of one kind and have the same message,
where objects that go together have the same names and functions that do are shown alike.
-/

namespace Furthest

variable {φ : Type}

namespace Value

section

variable [FunctionText φ] {B : Bond φ} {names names' : Ref → Option String}

/-- Objects that go together have the same names, and functions that do are shown alike. -/
structure SameTexts (B : Bond φ) (names names' : Ref → Option String) : Prop where
  names_eq {r r' : Ref} : B.objects r = some r' → names r = names' r'
  display_eq {f f' : φ} : B.functions f f' → FunctionText.display f = FunctionText.display f'
  typeName_eq {f f' : φ} : B.functions f f' → FunctionText.typeName f = FunctionText.typeName f'

mutual

theorem Like.display_eq (h : SameTexts B names names') {v v' : Value φ} :
    Like B v v' → v.display names = v'.display names'
  | .null | .bool _ | .number _ | .text _ | .bytes _ | .pattern _ | .position _ | .error _
  | .bareOp => rfl
  | .list hs => by simp only [display, LikeAll.displayAll_eq h hs]
  | .tuple hs => by simp only [display, LikeAll.displayAll_eq h hs]
  | .dict hs => by simp only [display, LikeEntries.displayEntries_eq h hs]
  | .mark ha hv hb => by
    simp only [display, Like.display_eq h ha, Like.display_eq h hv, Like.display_eq h hb]
  | .result hr hs hi hv => by simp only [display, hr, hs, hi, Like.display_eq h hv]
  | .ok hv => by simp only [display, Like.display_eq h hv]
  | .infixOp _ hv => by simp only [display, Like.display_eq h hv]
  | .prefixOp hv => by simp only [display, Like.display_eq h hv]
  | .postfixOp hv => by simp only [display, Like.display_eq h hv]
  | .parser hr => by simp only [display, h.names_eq hr]
  | .function hf => by simp only [display, h.display_eq hf]
  | .loose kind hs => by
    simp only [display, LikeAll.displayAll_eq h hs]
    cases kind <;> rfl

theorem LikeAll.displayAll_eq (h : SameTexts B names names') {vs vs' : List (Value φ)} :
    LikeAll B vs vs' → displayAll names vs = displayAll names' vs'
  | .nil => rfl
  | .cons hv hs => by simp only [displayAll, Like.display_eq h hv, LikeAll.displayAll_eq h hs]

theorem LikeEntries.displayEntries_eq (h : SameTexts B names names')
    {es es' : List (String × Value φ)} :
    LikeEntries B es es' → displayEntries names es = displayEntries names' es'
  | .nil => rfl
  | .cons _ hv hs => by
    simp only [displayEntries, Like.display_eq h hv, LikeEntries.displayEntries_eq h hs]

end

/-- Alike values are worded alike. -/
theorem Like.describe_eq (h : SameTexts B names names') {v v' : Value φ} :
    Like B v v' → v.describe names = v'.describe names'
  | .text _ | .position _ => rfl
  | .loose .position (.cons _ (.cons hl (.cons hc .nil))) => by
    simp only [describe, Like.describe_eq h hl, Like.describe_eq h hc]
  | .loose .position .nil => rfl
  | .loose .position (.cons h₁ .nil) => (Like.loose .position (.cons h₁ .nil)).display_eq h
  | .loose .position (.cons h₁ (.cons h₂ .nil)) =>
    (Like.loose .position (.cons h₁ (.cons h₂ .nil))).display_eq h
  | .loose .position (.cons h₁ (.cons h₂ (.cons h₃ (.cons h₄ hs)))) =>
    (Like.loose .position (.cons h₁ (.cons h₂ (.cons h₃ (.cons h₄ hs))))).display_eq h
  | .loose .result hs => (Like.loose .result hs).display_eq h
  | .loose .mark hs => (Like.loose .mark hs).display_eq h
  | .loose .error hs => (Like.loose .error hs).display_eq h
  | .null | .bool _ | .number _ | .bytes _ | .pattern _ | .error _ | .bareOp => rfl
  | .list hs => (Like.list hs).display_eq h
  | .tuple hs => (Like.tuple hs).display_eq h
  | .dict hs => (Like.dict hs).display_eq h
  | .mark ha hv hb => (Like.mark ha hv hb).display_eq h
  | .result hr hs hi hv => (Like.result hr hs hi hv).display_eq h
  | .ok hv => (Like.ok hv).display_eq h
  | .infixOp assoc hv => (Like.infixOp assoc hv).display_eq h
  | .prefixOp hv => (Like.prefixOp hv).display_eq h
  | .postfixOp hv => (Like.postfixOp hv).display_eq h
  | .parser hr => (Like.parser hr).display_eq h
  | .function hf => (Like.function hf).display_eq h

theorem Like.typeName_eq (h : SameTexts B names names') {v v' : Value φ} (hv : Like B v v') :
    v.typeName = v'.typeName := by
  cases hv with
  | function hf => exact h.typeName_eq hf
  | loose kind => cases kind <;> rfl
  | _ => rfl

theorem Like.fullTypeName_eq (h : SameTexts B names names') {v v' : Value φ} (hv : Like B v v') :
    v.fullTypeName = v'.fullTypeName := by
  have htype := hv.typeName_eq h
  cases hv with
  | pattern p => rfl
  | _ => exact htype

end

end Value

namespace Fault.Like

variable {e e' : Fault φ}

theorem kind_eq {Q : Value φ → Value φ → Prop} (h : Fault.Like Q e e') : e.kind = e'.kind := by
  cases h <;> rfl

variable [FunctionText φ] {B : Bond φ} {names names' : Ref → Option String}

theorem given_eq (h : Value.SameTexts B names names') {v v' : Value φ} (hv : Value.Like B v v') :
    Fault.given names v = Fault.given names' v' := by
  unfold given
  rw [hv.typeName_eq h, hv.display_eq h]

/-- Alike faults have the same message. -/
theorem message_eq (h : Value.SameTexts B names names') (he : Fault.Like (Value.Like B) e e') :
    e.message names = e'.message names' := by
  cases he with
  | unfit _ _ hv => exact congrArg (_ ++ ·) (given_eq h hv)
  | notOperator hv => exact congrArg (_ ++ ·) (hv.display_eq h)
  | notFound hv hl => exact congrArg₂ (_ ++ · ++ _ ++ ·) (given_eq h hv) (hl.display_eq h)
  | notCallable hv | notIterable hv => exact congrArg ("'" ++ · ++ _) (hv.fullTypeName_eq h)
  | noField field hv => exact congrArg ("'" ++ · ++ _ ++ field ++ "'") (hv.fullTypeName_eq h)
  | noAlternatives | badBounds _ _ | noSuchGroup | boundTooLarge | raised _ _ | mismatch _ _ => rfl

end Fault.Like

end Furthest
