import Furthest.Proofs.Deferred.Models

/-!
# Runs agree with the rules

From a world that models rules, running a parser object comes to what the rules give for the object
that it stands for, and the other way round, and leaves a world that models the rules
(`Machine.agrees_run`).  What deferred parsers have been made into so far makes no difference.

The proof is by induction on the depth.  At each depth, objects agree because what grammars need
from outside agrees at smaller depths, and that agrees because objects do.
-/

namespace Furthest

open Filter

variable {φ : Type} [FunctionText φ]

/-- Functions have no effect that shows.  From a world that models the rules a call comes to what the
rules give; the function of a deferred parser makes an object that stands for the target. -/
structure PureFunctions (apply : Tools φ → φ → List (Value φ) → Machine φ (Value φ))
    (budget : Nat) (R : Rules φ) : Prop where
  call {B : Bond φ} {w : World φ} {f f' : φ} {args args' : List (Value φ)} :
    Models R B w → B.functions f f' → List.Forall₂ (Value.Like B) args args' →
    ∃ o w' B', SettlesIn (fun n => (Machine.tools apply budget n).call (.function f) args) w o w' ∧
      B ≤ B' ∧ Undisturbed R w B' w' ∧ Related B' (Value.Like B') o (R.apply f' args')
  thunk {B : Bond φ} {w : World φ} {d d' : DeferralRef} :
    Models R B w → B.deferrals d = some d' → (w.deferral d).target = .null →
    B.thunks (w.deferral d).thunk d' →
    ∃ r w' B', SettlesIn (fun n => (Machine.tools apply budget n).call (w.deferral d).thunk []) w
        (.ok (.parser r)) w' ∧
      B ≤ B' ∧ Undisturbed R w B' w' ∧ B'.objects r = some (R.target d')

section

variable (apply : Tools φ → φ → List (Value φ) → Machine φ (Value φ)) (budget : Nat) (R : Rules φ)
  (k : Nat)

/-- What grammars need from outside agrees with the rules at a depth. -/
def HostsAgree : Prop :=
  ∀ B, (agreement (Faithful R) k).Hosts B (Machine.hosts apply budget) (R.hosts budget)

/-- What objects do agrees with the rules at a depth. -/
def ObjectsAgree : Prop :=
  ∀ B r r', B.objects r = some r' → (agreement (Faithful R) k).Like B
    ((Machine.hosts apply budget).object r) ((R.hosts budget).object r')

end

variable {apply : Tools φ → φ → List (Value φ) → Machine φ (Value φ)} {budget : Nat}
  {R : Rules φ}

namespace Machine

/-- A call that comes to one end at every depth but 0, where it is cut short. -/
theorem settlesIn_call {v : Value φ} {args : List (Value φ)} {w w' : World φ}
    {o : Except (Fault φ) (Value φ)}
    (h : ∀ n, (tools apply budget (n + 1)).call v args w = settledIn o w') :
    SettlesIn (fun n => (tools apply budget n).call v args) w o w' where
  unique {n o₁ w₁} hn := by
    cases n with
    | zero => cases o₁ <;> cases hn
    | succ n => exact settledIn_inj (hn.symm.trans (h n))
  late := eventually_succ (.of_forall h)

/-! ## Objects -/

/-- One depth later an object does what its grammar says. -/
theorem run_eq_delayed (r : Ref) (s : Input) (i : Nat) (env : Value φ) (w : World φ) (n : Nat) :
    (tools apply budget n).run r s i env w =
      delayed φ (fun n => (w.cell r).behaviour.denote (host (tools apply budget n)) s i env) n w := by
  cases n <;> rfl

section

variable {B : Bond φ} {w : World φ} {k : Nat} {env env' : Value φ}

theorem agrees_denote (hk : HostsAgree apply budget R k) {g g' : Grammar φ}
    (hg : g.Like (Bond.likeness φ) B g') (hw : Faithful R B w)
    (henv : Value.Like B env env') (s : Input) (i : Nat) :
    Agrees (Faithful R) k B (Bond.likeness φ).results
      (fun n => g.denote (host (tools apply budget n)) s i env)
      (fun n => g'.denote (R.host (R.run budget n) budget) s i env') w := by
  have h := Pairing.like_denote (hk B) hg B (le_refl B) s i env env' henv w hw
  simpa only [← denote_hosts, ← Rules.denote_hosts] using h

/-- A grammar that stands for an object comes to what the rules give for the object. -/
theorem agrees_of_stands {g : Grammar φ} {r' : Ref} (hg : Stands R B g r')
    (hk : ∀ j, j < k → HostsAgree apply budget R j) (hw : Faithful R B w)
    (henv : Value.Like B env env') (s : Input) (i : Nat) :
    Agrees (Faithful R) k B (Bond.likeness φ).results
      (delayed φ fun n => g.denote (host (tools apply budget n)) s i env)
      (fun n => R.run budget n r' s i env') w := by
  induction hg generalizing k with
  | rule hg =>
    rw [R.run_eq_delayed]
    exact .delayed fun j hj => agrees_denote (hk j hj) hg hw henv s i
  | target hr _ ih =>
    rw [R.run_eq_delayed, hr]
    exact .delayed_right fun j hj => ih fun l hl => hk l (Nat.lt_of_lt_of_le hl hj)

theorem objectsAgree_of_hosts (hk : ∀ j, j < k → HostsAgree apply budget R j) :
    ObjectsAgree apply budget R k := by
  intro B r r' hr B₁ hB s i env env' henv w hw
  have hstands := hw.models.stands (hB.objects hr)
  exact (agrees_of_stands hstands hk hw henv s i).step (run_eq_delayed r s i env w)

/-! ## Deferred parsers -/

section

variable {α β : Type} {Q : Bond φ → α → β → Prop} {d d' : DeferralRef}

omit [FunctionText φ] in
theorem adopt_made (use : Value φ → Machine φ α) (d : DeferralRef) (self r : Ref) (w : World φ) :
    adopt use d self (.parser r) w =
      (use (.parser r) >>= fun answer w => .ok answer (w.rebind self (w.cell r).behaviour))
        ((w.resolve d (.parser r)).rebind self (w.cell r).behaviour) := rfl

/-- A deferred parser is used as an object that stands for its target. -/
theorem agrees_useDeferred {use : Nat → Value φ → Machine φ α} {y : Nat → Except (Halt φ) β}
    (hpure : PureFunctions apply budget R) (hw : Faithful R B w) (hd : B.deferrals d = some d')
    (huse : ∀ B', B ≤ B' → ∀ r w', Faithful R B' w' → B'.objects r = some (R.target d') →
      Agrees (Faithful R) k B' Q (fun n => use n (.parser r)) y w') :
    Agrees (Faithful R) k B Q (fun n => useDeferred (tools apply budget n) (use n) d) y w := by
  obtain ⟨⟨self', hself, hrule⟩, htarget⟩ := hw.models.deferral hd
  rcases htarget with ⟨hnull, hthunk⟩ | ⟨r, htarget, hr⟩
  · obtain ⟨r, w₁, B₁, hcall, hB₁, hw₁, hr⟩ := hpure.thunk hw.models hd hnull hthunk
    have hnull₁ := (hw₁.target_eq d).trans hnull
    have hresolved := (hw.undisturbed hw₁).resolve hnull₁ (hB₁.deferrals hd) hr
    have hbound := hresolved.rebind (hB₁.objects hself) hrule hr
    have hagain := (huse B₁ hB₁ r _ hbound hr).bind fun B₂ hB₂ a b w₂ hw₂ hab =>
      (Agrees.pure (hw₂.rebind (hB₂.objects (hB₁.objects hself)) hrule (hB₂.objects hr))
        hab).step fun n => rfl
    rw [← funext fun n => bind_pure (y n)]
    have hadopt := hagain.step fun n => adopt_made (use n) d (w.deferral d).self r w₁
    have hfirst := Agrees.bind_settlesIn hcall hB₁ hadopt
      (f := fun n made => adopt (use n) d (w.deferral d).self made)
    exact hfirst.step fun n => useDeferred_of_null hnull _ _
  · exact (huse B (le_refl B) r w hw hr).step fun n => useDeferred_of_made htarget nofun _ _

end

theorem agrees_deferred (hpure : PureFunctions apply budget R)
    (ho : ObjectsAgree apply budget R k) (hw : Faithful R B w) {d d' : DeferralRef}
    (hd : B.deferrals d = some d') (henv : Value.Like B env env') (s : Input) (i : Nat) :
    Agrees (Faithful R) k B (Bond.likeness φ).results
      (fun n => runDeferred (tools apply budget n) d s i env)
      (fun n => R.run budget n (R.target d') s i env') w :=
  agrees_useDeferred hpure hw hd fun B' hB' r w' hw' hr =>
    ho B' r _ hr B' (le_refl B') s i env env' (henv.mono hB') w' hw'

/-! ## Calls -/

theorem agrees_fault {e e' : Fault φ} (hw : Faithful R B w)
    (he : Fault.Like (Value.Like B) e e') {α β : Type} {Q : Bond φ → α → β → Prop} :
    Agrees (Faithful R) k B Q (fun _ => fault e) (fun _ => throw (.fault e')) w :=
  (agreement (Faithful R) k).throw (.fault he) w hw

/-- Calling an object at a place comes to what the rules give for the object that it stands for. -/
theorem agrees_call_object (hk : HostsAgree apply budget R k) (hw : Faithful R B w) {r r' : Ref}
    (hr : B.objects r = some r') (henv : Value.Like B env env') (text : String) (i : Nat) :
    Agrees (Faithful R) k B Value.Like
      (fun n => (tools apply budget n).call (.parser r) [.text text, .nat i, env])
      (fun n => .result <$> R.run budget n r' text.toList i env') w :=
  (hk B).call B (le_refl B) _ _ _ _ (.parser hr)
    (.cons (.text text) (.cons (.number (.int i)) (.cons henv .nil))) w hw

/-- What a grammar answers is what the rules give, if it is the rule of an object. -/
theorem agrees_answer (hpure : PureFunctions apply budget R) (hk : HostsAgree apply budget R k)
    (hw : Faithful R B w) {g : Grammar φ} {r' : Ref} (hg : g.Like (Bond.likeness φ) B (R.rule r'))
    (henv : Value.Like B env env') (text : String) (i : Nat) :
    Agrees (Faithful R) k B Value.Like
      (fun n => answer (tools apply budget n) text i env g)
      (fun n => .result <$> (R.rule r').denote (R.host (R.run budget n) budget) text.toList i env')
      w := by
  have hplain : (∀ t : Tools φ, answer t text i env g =
      g.denote (host t) text.toList i env >>= fun result => pure (.result result)) →
      Agrees (Faithful R) k B Value.Like (fun n => answer (tools apply budget n) text i env g)
        (fun n => .result <$>
          (R.rule r').denote (R.host (R.run budget n) budget) text.toList i env') w := by
    intro h
    have hrun := agrees_denote hk hg hw henv text.toList i
    have hresult := hrun.bind fun B' _ result result' w' hw' hresult => Agrees.pure hw'
      (Value.Like.result hresult.toReport_eq hresult.status_eq hresult.index_eq hresult.value_like)
    simp only [h, map_eq_pure_bind]
    exact hresult
  generalize hrule : R.rule r' = rule at hg hplain ⊢
  have hargs := List.Forall₂.cons (.text text) (.cons (.number (.int i)) (.cons henv .nil))
  cases hg with
  | object hr => exact agrees_call_object hk hw hr henv text i
  | custom hf =>
    rw [← hrule, funext fun n => R.result_denote_custom budget n hrule text i env']
    exact (hk B).call B (le_refl B) _ _ _ _ hf hargs w hw
  | subEnv hp hderive =>
    cases hp with
    | object hr =>
      have hcall := (hk B).call B (le_refl B) _ _ _ _ hderive (.cons henv .nil) w hw
      have hinner := hcall.bind fun B' hB' inner inner' w' hw' hinner =>
        agrees_call_object hk hw' (hB'.objects hr) hinner text i
      rw [funext fun n => R.result_denote_subEnv budget n _ _ text.toList i env']
      exact hinner
    | _ => exact hplain fun _ => rfl
  | fromEnv hlookup =>
    have hcall := (hk B).call B (le_refl B) _ _ _ _ hlookup (.cons henv .nil) w hw
    rw [funext fun n => R.result_denote_fromEnv budget n _ text.toList i env']
    refine hcall.bind fun B' hB' v v' w' hw' hv => ?_
    have hfault := Fault.Like.notFound hv (hlookup.mono hB')
    cases hv with
    | parser hr => exact agrees_call_object hk hw' hr (henv.mono hB') text i
    | _ => exact agrees_fault hw' hfault
  | deferred hd =>
    exact agrees_useDeferred hpure hw hd fun B' hB' r w' hw' hr =>
      agrees_call_object hk hw' hr (henv.mono hB') text i
  | _ => exact hplain fun _ => rfl

/-- An object that is called answers what the rules give for the object that it stands for. -/
theorem agrees_invoke (hpure : PureFunctions apply budget R)
    (hk : ∀ j, j < k → HostsAgree apply budget R j) (hw : Faithful R B w) {r r' : Ref}
    (hr : B.objects r = some r') (henv : Value.Like B env env') (text : String) (i : Nat) :
    Agrees (Faithful R) k B Value.Like
      (delayed φ fun n => invoke (tools apply budget n) r text i env)
      (fun n => .result <$> R.run budget n r' text.toList i env') w := by
  have hstands := hw.models.stands hr
  generalize hg : (w.cell r).behaviour = g at hstands
  have hanswer : Agrees (Faithful R) k B Value.Like
      (delayed φ fun n => answer (tools apply budget n) text i env g)
      (fun n => .result <$> R.run budget n r' text.toList i env') w := by
    clear hg hr
    induction hstands generalizing k with
    | rule hg =>
      rw [R.result_run]
      exact .delayed fun j hj => agrees_answer hpure (hk j hj) hw hg henv text i
    | target hrule _ ih =>
      rw [R.result_run, hrule]
      exact .delayed_right fun j hj => ih fun l hl => hk l (Nat.lt_of_lt_of_le hl hj)
  subst hg
  refine hanswer.step fun n => ?_
  cases n <;> rfl

theorem call_eq_delayed (v : Value φ) (args : List (Value φ)) :
    (fun n => (tools apply budget n).call v args) =
      delayed φ fun n => callValue apply (tools apply budget n) v args := by
  funext n
  cases n <;> rfl

theorem agrees_call (hpure : PureFunctions apply budget R)
    (hk : ∀ j, j < k → HostsAgree apply budget R j) (hw : Faithful R B w)
    {v v' : Value φ} (hv : Value.Like B v v') {args args' : List (Value φ)}
    (hargs : List.Forall₂ (Value.Like B) args args') :
    Agrees (Faithful R) k B Value.Like (fun n => (tools apply budget n).call v args)
      (fun n => R.callValue (R.run budget n) v' args') w := by
  have hfault := Fault.Like.notCallable hv
  cases hv with
  | function hf =>
    obtain ⟨o, w', B', hx, hB, hw', ho⟩ := hpure.call hw.models hf hargs
    exact .of_settlesIn hx hB (hw.undisturbed hw') ho
  | parser hr =>
    rw [call_eq_delayed]
    simp only [callValue_object, Rules.callValue]
    rcases Value.start?_like hargs with ⟨s, i, env, env', h, h', henv⟩ | ⟨h, h'⟩
    · simp only [h, h']
      exact agrees_invoke hpure hk hw hr henv s i
    · simp only [h, h']
      exact .delayed_left fun j _ => agrees_fault hw (.notCallable (.parser hr))
  | _ =>
    rw [call_eq_delayed]
    exact .delayed_left fun j _ => agrees_fault hw hfault

/-! ## Everything outside of grammars -/

theorem hostsAgree_of_objects (hpure : PureFunctions apply budget R)
    (ho : ∀ j, j ≤ k → ObjectsAgree apply budget R j)
    (hk : ∀ j, j < k → HostsAgree apply budget R j) :
    HostsAgree apply budget R k := by
  refine fun B => ⟨?_, ?_, ?_, ?_, ?_, fun hs _ _ => Pairing.like_times_of_eq rfl hs⟩
  · intro B₁ _ r r' hr
    exact ho k (Nat.le_refl k) B₁ r r' hr
  · intro B₁ _ d d' hd B₂ hB₂ s i env env' henv w hw
    exact agrees_deferred hpure (ho k (Nat.le_refl k)) hw (hB₂.deferrals hd) henv s i
  · intro B₁ _ v v' args args' hv hargs w hw
    exact agrees_call hpure hk hw hv hargs
  · intro B₁ _ v v' hv w hw
    rw [show (R.hosts budget).describe v' = pure (v.describe w.names) from
      funext fun _ => congrArg Except.ok (hv.describe_eq hw.models.texts).symm]
    exact (Agrees.pure hw rfl).step fun n => rfl
  · intro B₁ _ entry entry' _ w hw
    exact (Agrees.pure (hw.log _) trivial).step fun n => rfl

theorem hostsAgree (hpure : PureFunctions apply budget R) (k : Nat) :
    HostsAgree apply budget R k := by
  induction k using Nat.strong_induction_on with
  | _ k ih =>
    refine hostsAgree_of_objects hpure (fun j hj => ?_) ih
    exact objectsAgree_of_hosts fun l hl => ih l (Nat.lt_of_lt_of_le hl hj)

/-- Running an object comes to what the rules give for the object that it stands for. -/
theorem agrees_run (hpure : PureFunctions apply budget R) (hw : Faithful R B w)
    {r r' : Ref} (hr : B.objects r = some r') (henv : Value.Like B env env') (s : Input) (i : Nat) :
    Agrees (Faithful R) k B (Bond.likeness φ).results
      (fun n => (tools apply budget n).run r s i env) (fun n => R.run budget n r' s i env') w :=
  (hostsAgree hpure k B).object (le_refl B) hr B (le_refl B) s i env env' henv w hw

/-! ## Whole texts -/

theorem agrees_log (hw : Faithful R B w) (entry entry' : LogEntry φ) :
    Agrees (Faithful R) k B (fun _ _ _ => True)
      (fun n => (host (tools apply budget n)).log entry)
      (fun n => (R.host (R.run budget n) budget).log entry') w :=
  (Agrees.pure (hw.log _) trivial).step fun _ => rfl

omit [FunctionText φ] in
theorem outcome_like {result result' : Result (Value φ)}
    (h : (Bond.likeness φ).results B result result') :
    Value.Like B result.outcome.toValue result'.outcome.toValue := by
  unfold Result.outcome
  rw [h.status_eq, h.toReport_eq]
  split
  · exact .ok h.value_like
  · exact .error _

/-- Parsing a whole text with an object comes to what the rules give for the object that it stands
for. -/
theorem agrees_parse (hpure : PureFunctions apply budget R) (hw : Faithful R B w)
    {r r' : Ref} (hr : B.objects r = some r') (henv : Value.Like B env env') (s : Input) :
    Agrees (Faithful R) k B (fun B o o' => Value.Like B o.toValue o'.toValue)
      (fun n => (host (tools apply budget n)).parse r s env)
      (fun n => (R.host (R.run budget n) budget).parse r' s env') w := by
  unfold Host.parse
  refine (agrees_log hw _ _).bind fun B₁ hB₁ _ _ w₁ hw₁ _ => ?_
  have hwhole : (Grammar.whole (.object r)).Like (Bond.likeness φ) B₁ (.whole (.object r')) :=
    .mapEnv (.seq (.cons (.object (hB₁.objects hr)) (.cons (.object hw₁.models.eof) .nil))) (.item 0)
  refine (agrees_denote (hostsAgree hpure k) hwhole hw₁ (henv.mono hB₁) s 0).bind ?_
  intro B₂ hB₂ result result' w₂ hw₂ hresult
  rw [hresult.status_eq]
  by_cases hs : result'.status
  · simp only [hs, if_true]
    exact .pure hw₂ (outcome_like hresult)
  · simp only [hs]
    exact (agrees_log hw₂ _ _).bind fun B₃ hB₃ _ _ w₃ hw₃ _ =>
      .pure hw₃ ((outcome_like hresult).mono hB₃)

end

end Machine

end Furthest
