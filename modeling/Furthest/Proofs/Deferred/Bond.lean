import Mathlib.Logic.Function.Basic
import Furthest.Machine.World
import Furthest.Proofs.Pairing.Basic

/-!
# Bonds

Where two systems of parser objects have the same objects under different references, a `Bond` tells
which object of the one stands for which of the other, and which functions go together.  Two values
are alike under a bond if they differ in such references only.  A bond grows when objects are made;
what is alike stays alike (`Value.Like.mono`).  A value that holds no reference and no function is
like itself only (`Value.Like.eq_of_plain`).
-/

namespace Furthest

variable {φ : Type}

/-- Which references and functions of two systems go together. -/
structure Bond (φ : Type) where
  objects : Ref → Option Ref
  deferrals : DeferralRef → Option DeferralRef
  functions : φ → φ → Prop
  /-- The functions that make what a deferred parser stands for. -/
  thunks : Value φ → DeferralRef → Prop

/-- One bond is part of another. -/
structure Bond.Part (B B' : Bond φ) : Prop where
  objects {r r' : Ref} : B.objects r = some r' → B'.objects r = some r'
  deferrals {d d' : DeferralRef} : B.deferrals d = some d' → B'.deferrals d = some d'
  functions {f f' : φ} : B.functions f f' → B'.functions f f'
  thunks {v : Value φ} {d : DeferralRef} : B.thunks v d → B'.thunks v d

instance : Preorder (Bond φ) where
  le := Bond.Part
  le_refl _ := ⟨id, id, id, id⟩
  le_trans _ _ _ h h' :=
    ⟨h'.objects ∘ h.objects, h'.deferrals ∘ h.deferrals, h'.functions ∘ h.functions,
      h'.thunks ∘ h.thunks⟩

theorem Result.Like.eq_of_value {Q : Value φ → Value φ → Prop} {r r' : Result (Value φ)}
    (h : r.Like Q r') (hv : r.value = r'.value) : r = r' := by
  obtain ⟨report, status, index, value⟩ := r
  obtain ⟨report', status', index', value'⟩ := r'
  obtain ⟨rfl, rfl, rfl, -⟩ := h
  rw [show value = value' from hv]

namespace Bond

/-- The bond with one more object. -/
def insert (B : Bond φ) (r r' : Ref) : Bond φ :=
  { B with objects := Function.update B.objects r (some r') }

theorem le_insert {B : Bond φ} {r : Ref} (h : B.objects r = none) (r' : Ref) :
    B ≤ B.insert r r' := by
  refine ⟨fun {r₁ r₁'} h₁ => ?_, id, id, id⟩
  have hne : r₁ ≠ r := by
    rintro rfl
    rw [h] at h₁
    cases h₁
  exact (Function.update_of_ne hne _ _).trans h₁

end Bond

namespace Value

mutual

/-- Two values that differ in references and functions that go together only. -/
inductive Like (B : Bond φ) : Value φ → Value φ → Prop where
  | null : Like B .null .null
  | bool (b : Bool) : Like B (.bool b) (.bool b)
  | number (n : Number) : Like B (.number n) (.number n)
  | text (s : String) : Like B (.text s) (.text s)
  | bytes (s : String) : Like B (.bytes s) (.bytes s)
  | list {vs vs' : List (Value φ)} : LikeAll B vs vs' → Like B (.list vs) (.list vs')
  | tuple {vs vs' : List (Value φ)} : LikeAll B vs vs' → Like B (.tuple vs) (.tuple vs')
  | dict {es es' : List (String × Value φ)} : LikeEntries B es es' → Like B (.dict es) (.dict es')
  | pattern (p : Pattern) : Like B (.pattern p) (.pattern p)
  | position (p : Position) : Like B (.position p) (.position p)
  | mark {a a' v v' b b' : Value φ} :
    Like B a a' → Like B v v' → Like B b b' → Like B (.mark a v b) (.mark a' v' b')
  | result {r r' : Result (Value φ)} : r.toReport = r'.toReport → r.status = r'.status →
    r.index = r'.index → Like B r.value r'.value → Like B (.result r) (.result r')
  | ok {v v' : Value φ} : Like B v v' → Like B (.ok v) (.ok v')
  | error (report : Report) : Like B (.error report) (.error report)
  | infixOp {v v' : Value φ} (assoc : Assoc) :
    Like B v v' → Like B (.infixOp v assoc) (.infixOp v' assoc)
  | prefixOp {v v' : Value φ} : Like B v v' → Like B (.prefixOp v) (.prefixOp v')
  | postfixOp {v v' : Value φ} : Like B v v' → Like B (.postfixOp v) (.postfixOp v')
  | bareOp : Like B .bareOp .bareOp
  | parser {r r' : Ref} : B.objects r = some r' → Like B (.parser r) (.parser r')
  | function {f f' : φ} : B.functions f f' → Like B (.function f) (.function f')
  | loose (kind : RecordKind) {vs vs' : List (Value φ)} :
    LikeAll B vs vs' → Like B (.loose kind vs) (.loose kind vs')

/-- As many values on both sides, each alike. -/
inductive LikeAll (B : Bond φ) : List (Value φ) → List (Value φ) → Prop where
  | nil : LikeAll B [] []
  | cons {v v' : Value φ} {vs vs' : List (Value φ)} :
    Like B v v' → LikeAll B vs vs' → LikeAll B (v :: vs) (v' :: vs')

/-- The same keys on both sides, each with alike values. -/
inductive LikeEntries (B : Bond φ) :
    List (String × Value φ) → List (String × Value φ) → Prop where
  | nil : LikeEntries B [] []
  | cons (key : String) {v v' : Value φ} {es es' : List (String × Value φ)} :
    Like B v v' → LikeEntries B es es' → LikeEntries B ((key, v) :: es) ((key, v') :: es')

end

theorem likeAll_iff {B : Bond φ} {vs vs' : List (Value φ)} :
    LikeAll B vs vs' ↔ List.Forall₂ (Like B) vs vs' := by
  constructor
  · intro h
    induction vs generalizing vs' with
    | nil =>
      cases h
      exact .nil
    | cons v vs ih =>
      cases h with
      | cons hv hvs => exact .cons hv (ih hvs)
  · intro h
    induction h with
    | nil => exact .nil
    | cons hv _ ih => exact .cons hv ih

mutual

/-- What is alike stays alike when the bond grows. -/
theorem Like.mono {B B' : Bond φ} (hB : B ≤ B') {v v' : Value φ} : Like B v v' → Like B' v v'
  | .null => .null
  | .bool b => .bool b
  | .number n => .number n
  | .text s => .text s
  | .bytes s => .bytes s
  | .list h => .list (LikeAll.mono hB h)
  | .tuple h => .tuple (LikeAll.mono hB h)
  | .dict h => .dict (LikeEntries.mono hB h)
  | .pattern p => .pattern p
  | .position p => .position p
  | .mark ha hv hb => .mark (Like.mono hB ha) (Like.mono hB hv) (Like.mono hB hb)
  | .result hr hs hi hv => .result hr hs hi (Like.mono hB hv)
  | .ok h => .ok (Like.mono hB h)
  | .error report => .error report
  | .infixOp assoc h => .infixOp assoc (Like.mono hB h)
  | .prefixOp h => .prefixOp (Like.mono hB h)
  | .postfixOp h => .postfixOp (Like.mono hB h)
  | .bareOp => .bareOp
  | .parser h => .parser (hB.objects h)
  | .function h => .function (hB.functions h)
  | .loose kind h => .loose kind (LikeAll.mono hB h)

theorem LikeAll.mono {B B' : Bond φ} (hB : B ≤ B') {vs vs' : List (Value φ)} :
    LikeAll B vs vs' → LikeAll B' vs vs'
  | .nil => .nil
  | .cons h hs => .cons (Like.mono hB h) (LikeAll.mono hB hs)

theorem LikeEntries.mono {B B' : Bond φ} (hB : B ≤ B') {es es' : List (String × Value φ)} :
    LikeEntries B es es' → LikeEntries B' es es'
  | .nil => .nil
  | .cons key h hs => .cons key (Like.mono hB h) (LikeEntries.mono hB hs)

end

theorem Like.truthy_eq {B : Bond φ} {v v' : Value φ} (h : Like B v v') : v.truthy = v'.truthy := by
  cases h with
  | list h | tuple h => cases h <;> rfl
  | dict h => cases h <;> rfl
  | number n => rfl
  | _ => rfl

theorem Like.textOrEmpty_eq {B : Bond φ} {v v' : Value φ} (h : Like B v v') :
    v.textOrEmpty = v'.textOrEmpty := by
  cases h <;> rfl

/-! ## Plain values -/

mutual

/-- A value with no object and no function in it. -/
def Plain : Value φ → Prop
  | .list vs | .tuple vs | .loose _ vs => PlainAll vs
  | .dict es => PlainEntries es
  | .mark a v b => a.Plain ∧ v.Plain ∧ b.Plain
  | .result r => r.value.Plain
  | .ok v | .infixOp v _ | .prefixOp v | .postfixOp v => v.Plain
  | .parser _ | .function _ => False
  | _ => True

/-- Only plain values. -/
def PlainAll : List (Value φ) → Prop
  | [] => True
  | v :: vs => v.Plain ∧ PlainAll vs

/-- Only entries with plain values. -/
def PlainEntries : List (String × Value φ) → Prop
  | [] => True
  | (_, v) :: es => v.Plain ∧ PlainEntries es

end

mutual

/-- What is like a plain value is plain. -/
theorem Like.plain_iff {B : Bond φ} {v v' : Value φ} : Like B v v' → (v.Plain ↔ v'.Plain)
  | .null | .bool _ | .number _ | .text _ | .bytes _ | .pattern _ | .position _ | .error _ | .bareOp
  | .parser _ | .function _ => Iff.rfl
  | .list h | .tuple h | .loose _ h => by simpa only [Plain] using LikeAll.plain_iff h
  | .dict h => by simpa only [Plain] using LikeEntries.plain_iff h
  | .mark ha hv hb =>
    and_congr (Like.plain_iff ha) (and_congr (Like.plain_iff hv) (Like.plain_iff hb))
  | .result _ _ _ h | .ok h | .infixOp _ h | .prefixOp h | .postfixOp h => by
    simpa only [Plain] using Like.plain_iff h

theorem LikeAll.plain_iff {B : Bond φ} {vs vs' : List (Value φ)} :
    LikeAll B vs vs' → (PlainAll vs ↔ PlainAll vs')
  | .nil => Iff.rfl
  | .cons h hs => and_congr (Like.plain_iff h) (LikeAll.plain_iff hs)

theorem LikeEntries.plain_iff {B : Bond φ} {es es' : List (String × Value φ)} :
    LikeEntries B es es' → (PlainEntries es ↔ PlainEntries es')
  | .nil => Iff.rfl
  | .cons _ h hs => and_congr (Like.plain_iff h) (LikeEntries.plain_iff hs)

end

mutual

/-- A plain value is like itself only. -/
theorem Like.eq_of_plain {B : Bond φ} {v v' : Value φ} : Like B v v' → v.Plain → v = v'
  | .null, _ | .bool _, _ | .number _, _ | .text _, _ | .bytes _, _ | .pattern _, _
  | .position _, _ | .error _, _ | .bareOp, _ => rfl
  | .list h, hp => congrArg list (LikeAll.eq_of_plain h hp)
  | .tuple h, hp => congrArg tuple (LikeAll.eq_of_plain h hp)
  | .loose kind h, hp => congrArg (loose kind) (LikeAll.eq_of_plain h hp)
  | .dict h, hp => congrArg dict (LikeEntries.eq_of_plain h hp)
  | .mark ha hv hb, ⟨pa, pv, pb⟩ => by
    rw [Like.eq_of_plain ha pa, Like.eq_of_plain hv pv, Like.eq_of_plain hb pb]
  | .result hr hs hi hv, hp =>
    congrArg result (Result.Like.eq_of_value ⟨hr, hs, hi, hv⟩ (Like.eq_of_plain hv hp))
  | .ok h, hp => congrArg ok (Like.eq_of_plain h hp)
  | .infixOp assoc h, hp => congrArg (infixOp · assoc) (Like.eq_of_plain h hp)
  | .prefixOp h, hp => congrArg prefixOp (Like.eq_of_plain h hp)
  | .postfixOp h, hp => congrArg postfixOp (Like.eq_of_plain h hp)
  | .parser _, hp | .function _, hp => hp.elim

theorem LikeAll.eq_of_plain {B : Bond φ} {vs vs' : List (Value φ)} :
    LikeAll B vs vs' → PlainAll vs → vs = vs'
  | .nil, _ => rfl
  | .cons h hs, ⟨hp, hps⟩ => by rw [Like.eq_of_plain h hp, LikeAll.eq_of_plain hs hps]

theorem LikeEntries.eq_of_plain {B : Bond φ} {es es' : List (String × Value φ)} :
    LikeEntries B es es' → PlainEntries es → es = es'
  | .nil, _ => rfl
  | .cons key h hs, ⟨hp, hps⟩ => by rw [Like.eq_of_plain h hp, LikeEntries.eq_of_plain hs hps]

end

end Value

/-- Alike values, objects and deferred parsers of a bond. -/
def Bond.likeness (φ : Type) : Likeness (Bond φ) φ where
  values B := Value.Like B
  objects B r r' := B.objects r = some r'
  deferrals B d d' := B.deferrals d = some d'
  values_mono hB h := h.mono hB
  objects_mono hB := hB.objects
  deferrals_mono hB := hB.deferrals
  null _ := .null
  text _ t := .text t
  nat _ _ := .number _
  position _ p := .position p
  mark := .mark
  list h := .list (Value.likeAll_iff.2 h)
  parser := .parser
  list_or h := by
    cases h with
    | list h => exact Or.inl ⟨_, _, rfl, rfl, Value.likeAll_iff.1 h⟩
    | _ => exact Or.inr ⟨nofun, nofun⟩
  parser_or h := by
    cases h with
    | parser h => exact Or.inl ⟨_, _, rfl, rfl, h⟩
    | _ => exact Or.inr ⟨nofun, nofun⟩
  result_or h := by
    cases h with
    | result hr hs hi hv => exact Or.inl ⟨_, _, rfl, rfl, hr, hs, hi, hv⟩
    | _ => exact Or.inr ⟨nofun, nofun⟩
  truthy_eq := Value.Like.truthy_eq
  textOrEmpty_eq := Value.Like.textOrEmpty_eq

end Furthest
