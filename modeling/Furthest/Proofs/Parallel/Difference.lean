import Furthest.Parser.Leaf

/-!
# Attempts side by side

Two attempts at one stretch of text may differ in what stands before it and in the labels of their
reports.  A `Difference` says what stands before it on either side, and whether labels have to be the
same.  Under a difference two offsets are in the same place of the stretch (`Difference.Place`), two
reports tell of failures in the same place (`Difference.Reports`), and two results are the same up
to that (`Difference.Results`).  Joining reports keeps to it (`Difference.Reports.join`).
-/

namespace Furthest

variable {φ : Type}

/-- How two texts differ that go on with the same stretch, and whether labels are to agree. -/
structure Difference where
  /-- What stands before the stretch on the left side. -/
  left : Input
  /-- What stands before the stretch on the right side. -/
  right : Input
  sameLabels : Prop

/-- Values that are kept to: whatever parsers put together themselves is among them. -/
structure Domain (V : Value φ → Prop) : Prop where
  null : V .null
  text (t : String) : V (.text t)
  nat (n : Nat) : V (.nat n)
  position (p : Position) : V (.position p)
  list {vs : List (Value φ)} : (∀ v ∈ vs, V v) → V (.list vs)

theorem domain_true : Domain (φ := φ) fun _ => True :=
  ⟨trivial, fun _ => trivial, fun _ => trivial, fun _ => trivial, fun _ => trivial⟩

namespace Difference

variable (D : Difference)

/-- The whole text on the left side. -/
def leftText (stretch : Input) : Input := D.left ++ stretch

/-- The whole text on the right side. -/
def rightText (stretch : Input) : Input := D.right ++ stretch

/-- The difference seen from the other side. -/
def swap : Difference := ⟨D.right, D.left, D.sameLabels⟩

/-- Two offsets in the same place of the stretch. -/
def Place (i j : Nat) : Prop := ∃ k, i = D.left.length + k ∧ j = D.right.length + k

/-- Nothing stands before the stretch. -/
def Unmoved : Prop := D.left = [] ∧ D.right = []

/-- Two reports of failures in the same place, or of none. -/
structure Reports (a b : Report) : Prop where
  furthest : a.furthest = -1 ∧ b.furthest = -1 ∨
    ∃ i j, D.Place i j ∧ a.furthest = i ∧ b.furthest = j
  expected_eq : D.sameLabels → a.expected = b.expected

/-- Two results that are the same up to places and labels, with a value to keep to; a failure has no
value. -/
structure Results (V : Value φ → Prop) (r r' : Result (Value φ)) : Prop where
  reports : D.Reports r.toReport r'.toReport
  status_eq : r.status = r'.status
  place : D.Place r.index r'.index
  value_eq : r.value = r'.value
  value_mem : V r.value
  value_of_failure : r.status = false → r.value = .null

variable {D}

/-! ## Places -/

theorem Place.swap {i j : Nat} (h : D.Place i j) : D.swap.Place j i := by
  obtain ⟨k, hi, hj⟩ := h
  exact ⟨k, hj, hi⟩

theorem Place.add {i j : Nat} (h : D.Place i j) (n : Nat) : D.Place (i + n) (j + n) := by
  obtain ⟨k, rfl, rfl⟩ := h
  exact ⟨k + n, by omega, by omega⟩

theorem Place.lt_iff {i j i' j' : Nat} (h : D.Place i j) (h' : D.Place i' j') :
    i < i' ↔ j < j' := by
  obtain ⟨k, rfl, rfl⟩ := h
  obtain ⟨k', rfl, rfl⟩ := h'
  omega

theorem Place.eq_iff {i j i' j' : Nat} (h : D.Place i j) (h' : D.Place i' j') :
    i = i' ↔ j = j' := by
  obtain ⟨k, rfl, rfl⟩ := h
  obtain ⟨k', rfl, rfl⟩ := h'
  omega

/-- The two texts end in the same place. -/
theorem place_length (text : Input) : D.Place (D.leftText text).length (D.rightText text).length :=
  ⟨text.length, List.length_append, List.length_append⟩

theorem Place.drop_eq {i j : Nat} (h : D.Place i j) (text : Input) :
    (D.leftText text).drop i = (D.rightText text).drop j := by
  obtain ⟨k, rfl, rfl⟩ := h
  rw [leftText, rightText, List.drop_length_add_append, List.drop_length_add_append]

theorem Place.getElem?_eq {i j : Nat} (h : D.Place i j) (text : Input) :
    (D.leftText text)[i]? = (D.rightText text)[j]? := by
  obtain ⟨k, rfl, rfl⟩ := h
  rw [leftText, rightText, List.getElem?_append_right (Nat.le_add_right _ _),
    List.getElem?_append_right (Nat.le_add_right _ _), Nat.add_sub_cancel_left,
    Nat.add_sub_cancel_left]

/-- Where nothing stands before the stretch, the same place is the same offset. -/
theorem Unmoved.place_iff (h : D.Unmoved) {i j : Nat} : D.Place i j ↔ i = j := by
  obtain ⟨hleft, hright⟩ := h
  simp [Place, hleft, hright, eq_comm]

theorem Unmoved.text_eq (h : D.Unmoved) (text : Input) : D.leftText text = D.rightText text := by
  rw [leftText, rightText, h.1, h.2]

/-! ## Reports -/

theorem reports_silent : D.Reports .silent .silent := ⟨Or.inl ⟨rfl, rfl⟩, fun _ => rfl⟩

theorem reports_single {i j : Nat} (h : D.Place i j) {label label' : String}
    (hl : D.sameLabels → label = label') :
    D.Reports (.single i label) (.single j label') :=
  ⟨Or.inr ⟨i, j, h, rfl, rfl⟩, fun hs => congrArg (fun l => [l]) (hl hs)⟩

theorem Reports.swap {a b : Report} (h : D.Reports a b) : D.swap.Reports b a := by
  refine ⟨?_, fun hs => (h.expected_eq hs).symm⟩
  rcases h.furthest with ⟨ha, hb⟩ | ⟨i, j, hp, ha, hb⟩
  · exact Or.inl ⟨hb, ha⟩
  · exact Or.inr ⟨j, i, hp.swap, hb, ha⟩

/-- Two pairs of reports compare in the same way. -/
theorem Reports.furthest_lt_iff {a b a' b' : Report} (h : D.Reports a b) (h' : D.Reports a' b') :
    a.furthest < a'.furthest ↔ b.furthest < b'.furthest := by
  rcases h.furthest with ⟨ha, hb⟩ | ⟨i, j, hp, ha, hb⟩ <;>
    rcases h'.furthest with ⟨ha', hb'⟩ | ⟨i', j', hp', ha', hb'⟩ <;> rw [ha, hb, ha', hb']
  · exact iff_of_true (by omega) (by omega)
  · exact iff_of_false (by omega) (by omega)
  · exact Int.ofNat_lt.trans ((hp.lt_iff hp').trans Int.ofNat_lt.symm)

theorem Reports.join {a b a' b' : Report} (h : D.Reports a b) (h' : D.Reports a' b') :
    D.Reports (a.join a') (b.join b') := by
  rcases Int.lt_trichotomy a.furthest a'.furthest with hlt | heq | hgt
  · rw [Report.join_of_gt hlt, Report.join_of_gt ((h.furthest_lt_iff h').1 hlt)]
    exact h'
  · have hforth := not_congr (h.furthest_lt_iff h')
    have hback := not_congr (h'.furthest_lt_iff h)
    rw [Report.join_of_eq heq, Report.join_of_eq (by omega)]
    exact ⟨h'.furthest, fun hs => by rw [h.expected_eq hs, h'.expected_eq hs]⟩
  · rw [Report.join_of_lt hgt, Report.join_of_lt ((h'.furthest_lt_iff h).1 hgt)]
    exact h

/-! ## Results -/

namespace Results

variable {V : Value φ → Prop} {r r' b b' : Result (Value φ)}

theorem swap (h : D.Results V r r') : D.swap.Results V r' r where
  reports := h.reports.swap
  status_eq := h.status_eq.symm
  place := h.place.swap
  value_eq := h.value_eq.symm
  value_mem := h.value_eq ▸ h.value_mem
  value_of_failure hs := h.value_eq ▸ h.value_of_failure (h.status_eq ▸ hs)

theorem merge (h : D.Results V r r') (hb : D.Results V b b') :
    D.Results V (r.merge b) (r'.merge b') :=
  { h with reports := h.reports.join hb.reports }

theorem mergeWith (h : D.Results V r r') {best best' : Option (Result (Value φ))}
    (hb : Option.Rel (D.Results V) best best') :
    D.Results V (r.mergeWith best) (r'.mergeWith best') := by
  cases hb with
  | none => exact h
  | some hb => exact h.merge hb

theorem success {i j : Nat} (hp : D.Place i j) {v : Value φ} (hv : V v) :
    D.Results V (.success i v) (.success j v) :=
  ⟨reports_silent, rfl, hp, rfl, hv, nofun⟩

theorem failed {i j : Nat} (hp : D.Place i j) (hV : V .null) {a b : Report} (h : D.Reports a b) :
    D.Results V ⟨a, false, i, .null⟩ ⟨b, false, j, .null⟩ :=
  ⟨h, rfl, hp, rfl, hV, fun _ => rfl⟩

theorem failure {i j : Nat} (hp : D.Place i j) (hV : V .null) {label label' : String}
    (hl : D.sameLabels → label = label') :
    D.Results V (.failure i label) (.failure j label') :=
  failed hp hV (reports_single hp hl)

/-- Two results are equal if nothing may differ. -/
theorem eq (h : D.Results V r r') (hD : D.Unmoved) (hl : D.sameLabels) : r = r' := by
  obtain ⟨⟨furthest, expected⟩, status, index, value⟩ := r
  obtain ⟨⟨furthest', expected'⟩, status', index', value'⟩ := r'
  obtain ⟨⟨hf, he⟩, rfl, hp, rfl, -, -⟩ := h
  obtain rfl : expected = expected' := he hl
  obtain rfl : index = index' := hD.place_iff.1 hp
  obtain rfl : furthest = furthest' := by
    rcases hf with ⟨ha, hb⟩ | ⟨i, j, hp, ha, hb⟩
    · exact ha.trans hb.symm
    · exact ha.trans ((congrArg Nat.cast (hD.place_iff.1 hp)).trans hb.symm)
  rfl

end Results

end Difference

end Furthest
