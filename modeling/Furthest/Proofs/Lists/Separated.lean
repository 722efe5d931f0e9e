import Furthest.Proofs.Lists.Recursion

/-!
# The recursive grammar of lists

A list with separators is an item, and then either a separator and a list again or nothing.  The loop
for lists (`Grammar.sepBy1`) tries a separator and an item together, and keeps nothing of the two
unless both match.  The recursive grammar tries the separator, and then, with the list again, the item;
where the item fails the list has failed, and the grammar falls back to nothing, before the separator.

Both come to the same, on whole results and in every state (`sepBy_recursive`), where a separator and
an item together consume something.  A separator without an item is given back, and the report still
tells of the item that is missing.
-/

namespace Furthest

variable {φ σ : Type}

namespace Behaviour

variable {I : σ → Prop} {p sep L : Behaviour (EStateM (Halt φ) σ) φ} {s : Input} {env : Value φ}
  {i n : Nat} {w : σ}

/-- A separator and a list, or nothing. -/
def moreItems (sep L : Behaviour (EStateM (Halt φ) σ) φ) : Behaviour (EStateM (Halt φ) σ) φ :=
  alt (chain sep fun _ => pure L) [succeed (.list [])]

/-- An item, and before the items of a list after a separator, if there is one. -/
def listOf (p sep L : Behaviour (EStateM (Halt φ) σ) φ) : Behaviour (EStateM (Halt φ) σ) φ :=
  chain p fun x => pure (map (moreItems sep L) fun xs => pure (.list (x :: xs.items)))

/-- A loop over pairs of a separator and an item, where the separators are dropped. -/
theorem folds_items (I : σ → Prop) (sep p : Behaviour (EStateM (Halt φ) σ) φ) :
    Folds I (fun _ => True) sep p (fun _ y => y)
      (fun rest x _ y => map (rest x) fun xs => pure (.list (y :: xs.items)))
      (fun _ => .list []) (fun _ l => pure (.list l)) where
  stop _ := rfl
  step _ _ _ _ hrest := by
    rw [map_congr (hrest _ trivial), map_map]
    rfl

/-- What the recursive grammar does after the first item is what a loop does. -/
theorem moreItems_eq_map_loop (hp : WellFormed I p) (hsep : WellFormed I sep)
    (hc : PairsConsume I sep p) (hL : SameFrom I L (listOf p sep L)) (hi : i ≤ s.length) (hw : I w)
    (hn : s.length - i < n) :
    moreItems sep L s i env w =
      map (loop (pairWith sep p fun _ y => y) n) (fun l => pure (.list l.items)) s i env w :=
  (folds_items I sep p).eq_map_loop hsep hp hc (fun _ _ => alt_chain_congr hsep (fun _ => hL) _)
    (x := .null) trivial hi hw hn

theorem exists_listOf (hp : WellFormed I p) (hsep : WellFormed I sep) (hc : PairsConsume I sep p) :
    ∃ L, SameFrom I L (listOf p sep L) := by
  obtain ⟨rest, hrest⟩ := (folds_items I sep p).exists_rest hsep hp hc
  refine ⟨chain p fun x => pure (map (rest .null) fun xs => pure (.list (x :: xs.items))),
    fun s i env w hi hw => chain_congr fun r w' hr _ => map_congr ?_⟩
  have hwf := hp s i env w hi hw r w' hr
  exact hrest .null trivial s r.index env w' hwf.2.index_le hwf.1

end Behaviour

open Behaviour

section

variable {host : Host (EStateM (Halt φ) σ) φ} {I : σ → Prop} {p sep : Grammar φ} {s : Input}
  {env : Value φ} {i : Nat} {w : σ}

/-- A separator and an item, of which the item is kept. -/
theorem Grammar.denote_skipLeft_pair (host : Host (EStateM (Halt φ) σ) φ) (sep p : Grammar φ) :
    (skipLeft sep p).denote host = pairWith (sep.denote host) (p.denote host) fun _ y => y := by
  rw [skipLeft, denote_seqItem, List.map_cons, List.map_cons, List.map_nil, seq_pair,
    mapValue_pairWith]
  rfl

/-- The loop for lists, as a chain. -/
theorem Grammar.denote_sepBy1 (host : Host (EStateM (Halt φ) σ) φ) (p sep : Grammar φ) (s : Input)
    (i : Nat) (env : Value φ) : (sepBy1 p sep).denote host s i env =
      chain (p.denote host) (fun x => pure (map
        (loop (pairWith (sep.denote host) (p.denote host) fun _ y => y) host.budget)
        fun l => pure (.list (x :: l.items)))) s i env := by
  rw [← denote_skipLeft_pair]
  exact mapEnv_seq_loop fun _ _ => rfl

/-- A list of one item or more: the values of all the items in order. -/
def ListsFrom (p sep : Behaviour (EStateM (Halt φ) σ) φ) (s : Input) (env : Value φ) (i : Nat)
    (w : σ) (r : Result (Value φ)) (w' : σ) : Prop :=
  ∃ x pairs, Separated sep p s env i w x pairs r w' ∧ r.value = .list (x :: pairs.map (·.2))

theorem Grammar.listsFrom_of_sepBy1 (hp : WellFormed I (p.denote host))
    (hsep : WellFormed I (sep.denote host)) (hc : PairsConsume I (sep.denote host) (p.denote host))
    (hi : i ≤ s.length) (hw : I w) {r : Result (Value φ)} {w' : σ}
    (hr : (sepBy1 p sep).denote host s i env w = .ok r w') (hs : r.status = true) :
    ListsFrom (p.denote host) (sep.denote host) s env i w r w' := by
  rw [denote_sepBy1] at hr
  obtain ⟨x, pairs, w₁, hsep, hvalue⟩ := separated_of_ok hsep hp hc _
    (fun x l => pure (.list (x :: l))) hi hw hr hs
  obtain ⟨hlist, rfl⟩ := EStateM.Result.ok.inj hvalue
  exact ⟨x, pairs, hsep, hlist.symm⟩

theorem Grammar.denote_sepBy (host : Host (EStateM (Halt φ) σ) φ) (p sep : Grammar φ) :
    (sepBy p sep).denote host =
      Behaviour.alt ((sepBy1 p sep).denote host) [Behaviour.succeed (.list [])] := rfl

/-- Lists with separators are the recursive grammar of lists, on whole results and in every state
with `I`, as long as a loop may match as often as there are characters left and once more.  A list
ends after its last item and has the values of all the items in order, and its report is that of the
separator and item that were missed there, joined to all before. -/
theorem sepBy_recursive (hp : WellFormed I (p.denote host)) (hsep : WellFormed I (sep.denote host))
    (hc : PairsConsume I (sep.denote host) (p.denote host)) :
    (∃ L, SameFrom I L (listOf (p.denote host) (sep.denote host) L)) ∧
    (∀ L, SameFrom I L (listOf (p.denote host) (sep.denote host) L) →
      ∀ s i env w, i ≤ s.length → I w → s.length - i < host.budget →
        (Grammar.sepBy1 p sep).denote host s i env w = L s i env w ∧
        (Grammar.sepBy p sep).denote host s i env w = alt L [succeed (.list [])] s i env w) ∧
    ∀ s i env w r w', i ≤ s.length → I w → r.status = true →
      ((Grammar.sepBy1 p sep).denote host s i env w = .ok r w' →
        ListsFrom (p.denote host) (sep.denote host) s env i w r w') ∧
      ((Grammar.sepBy p sep).denote host s i env w = .ok r w' →
        ListsFrom (p.denote host) (sep.denote host) s env i w r w' ∨
        ∃ x, p.denote host s i env w = .ok x w' ∧ x.status = false ∧
          r = ⟨x.toReport, true, i, .list []⟩) := by
  refine ⟨exists_listOf hp hsep hc, fun L hL s i env w hi hw hn => ?_,
    fun s i env w r w' hi hw hs => ⟨fun hr => ?_, fun hr => ?_⟩⟩
  · have hone : (Grammar.sepBy1 p sep).denote host s i env w = L s i env w := by
      rw [hL s i env w hi hw, Grammar.denote_sepBy1, listOf]
      refine chain_congr fun r w' hr _ => ?_
      obtain ⟨hw', hwf⟩ := hp s i env w hi hw r w' hr
      have henough := (Nat.sub_le_sub_left hwf.le_index s.length).trans_lt hn
      rw [map_congr (moreItems_eq_map_loop hp hsep hc hL hwf.index_le hw' henough), map_map]
      rfl
    refine ⟨hone, ?_⟩
    rw [Grammar.denote_sepBy, alt_apply, alt_apply, bind_apply, hone, ← bind_apply]
  · exact Grammar.listsFrom_of_sepBy1 hp hsep hc hi hw hr hs
  · rw [Grammar.denote_sepBy, alt_apply] at hr
    obtain ⟨r₁, w₁, hr₁, hr⟩ := bind_eq_ok hr
    cases hs₁ : r₁.status with
    | true =>
      rw [orElse_of_match _ _ _ _ hs₁] at hr
      cases hr
      exact .inl (Grammar.listsFrom_of_sepBy1 hp hsep hc hi hw hr₁ hs)
    | false =>
      rw [orElse_succeed s i env _ hs₁] at hr
      cases hr
      rw [Grammar.denote_sepBy1] at hr₁
      have hfails := failed_of_chain_loop hr₁ hs₁
      have hwf := (hp s i env w hi hw r₁ _ hfails).2
      exact .inr ⟨r₁, hfails, hs₁, Result.success_merge hwf.fits.neg_one_le i _⟩

/-- A host for literal texts, with loops of up to eight. -/
def literals : Host (EStateM (Halt Empty) Unit) Empty := { idle with budget := 9 }

/-- In `a,a,` the last separator is given back, and the report tells of the item that is missing
after it.  In an empty text there is nothing to list. -/
theorem sepBy_recursive_commas : ∃ L,
    SameFrom (fun _ => True) L (listOf (literal "a") (literal ",") L) ∧
    L "a,a,".toList 0 .null () =
      .ok ⟨⟨4, ["'a'"]⟩, true, 3, .list [.text "a", .text "a"]⟩ () ∧
    alt L [succeed (.list [])] [] 0 .null () = .ok ⟨⟨0, ["'a'"]⟩, true, 0, .list []⟩ () := by
  have hwf : ∀ text, WellFormed (fun _ => True) (literal text) := fun text =>
    wellFormed_leaf fun _ _ hi => Leaf.wellFormed_string text hi
  have hc : PairsConsume (fun _ => True) ((Grammar.string ",").denote literals)
      ((Grammar.string "a").denote literals) :=
    pairsConsume_of_second (hwf ",") fun s i env w _ _ =>
      returns_string_consumes "a" (by simp) s i env w
  obtain ⟨⟨L, hL⟩, hsame, -⟩ := sepBy_recursive (hwf "a") (hwf ",") hc
  refine ⟨L, hL, ?_, ?_⟩
  · rw [← (hsame L hL "a,a,".toList 0 .null () (by decide) trivial (by decide)).1]
    rfl
  · rw [← (hsame L hL [] 0 .null () (by decide) trivial (by decide)).2]
    rfl

end

end Furthest
