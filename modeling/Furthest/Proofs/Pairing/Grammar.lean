import Furthest.Proofs.Pairing.Behaviour
import Furthest.Proofs.Pairing.Callback
import Furthest.Proofs.Watched.Denotation

/-!
# Pairs of grammars

Two grammars are alike if they have the same form and what they refer to is related
(`Grammar.Like`).  Alike grammars behave alike wherever what lies outside of them does: objects,
deferred parsers, calls, the wording of values and the log (`Pairing.Hosts`).  This is
`Pairing.like_denoteWith`, and `Pairing.like_denote` without a watcher.
-/

namespace Furthest

variable {φ S : Type} [Preorder S]

namespace Grammar

mutual

/-- Two grammars of the same form with related references and values. -/
inductive Like (L : Likeness S φ) (s : S) : Grammar φ → Grammar φ → Prop where
  | object {r r' : Ref} : L.objects s r r' → Like L s (.object r) (.object r')
  | custom {f f' : Value φ} : L.values s f f' → Like L s (.custom f) (.custom f')
  | succeed {v v' : Value φ} : L.values s v v' → Like L s (.succeed v) (.succeed v')
  | fail (label : String) : Like L s (.fail label) (.fail label)
  | offset : Like L s .offset .offset
  | position : Like L s .position .position
  | eof : Like L s .eof .eof
  | anyChar : Like L s .anyChar .anyChar
  | rest : Like L s .rest .rest
  | string (literal : String) : Like L s (.string literal) (.string literal)
  | regex (p : Pattern) (group : GroupName) (label : String) :
    Like L s (.regex p group label) (.regex p group label)
  | satisfy {test test' : Test φ} (label : String) :
    test.Like L s test' → Like L s (.satisfy test label) (.satisfy test' label)
  | takeWhile {test test' : Test φ} :
    test.Like L s test' → Like L s (.takeWhile test) (.takeWhile test')
  | seq {ps ps' : List (Grammar φ)} : LikeAll L s ps ps' → Like L s (.seq ps) (.seq ps')
  | alt {p p' : Grammar φ} {ps ps' : List (Grammar φ)} :
    Like L s p p' → LikeAll L s ps ps' → Like L s (.alt p ps) (.alt p' ps')
  | times {p p' : Grammar φ} (min max : Limit) :
    Like L s p p' → Like L s (.times p min max) (.times p' min max)
  | mapEnv {p p' : Grammar φ} {f f' : Callback φ} :
    Like L s p p' → f.Like L s f' → Like L s (.mapEnv p f) (.mapEnv p' f')
  | chainEnv {p p' : Grammar φ} {f f' : Callback φ} :
    Like L s p p' → f.Like L s f' → Like L s (.chainEnv p f) (.chainEnv p' f')
  | relabel {p p' : Grammar φ} (label : String) :
    Like L s p p' → Like L s (.relabel p label) (.relabel p' label)
  | except {p p' q q' : Grammar φ} :
    Like L s p p' → Like L s q q' → Like L s (.except p q) (.except p' q')
  | lookAhead {p p' : Grammar φ} : Like L s p p' → Like L s (.lookAhead p) (.lookAhead p')
  | trace {p p' : Grammar φ} {label label' : Value φ} :
    Like L s p p' → L.values s label label' → Like L s (.trace p label) (.trace p' label')
  | subEnv {p p' : Grammar φ} {f f' : Value φ} :
    Like L s p p' → L.values s f f' → Like L s (.subEnv p f) (.subEnv p' f')
  | fromEnv {f f' : Value φ} : L.values s f f' → Like L s (.fromEnv f) (.fromEnv f')
  | deferred {d d' : DeferralRef} : L.deferrals s d d' → Like L s (.deferred d) (.deferred d')

/-- As many grammars on both sides, each alike. -/
inductive LikeAll (L : Likeness S φ) (s : S) : List (Grammar φ) → List (Grammar φ) → Prop where
  | nil : LikeAll L s [] []
  | cons {p p' : Grammar φ} {ps ps' : List (Grammar φ)} :
    Like L s p p' → LikeAll L s ps ps' → LikeAll L s (p :: ps) (p' :: ps')

end

mutual

/-- What is alike stays alike. -/
theorem Like.mono {L : Likeness S φ} {s s' : S} (hs : s ≤ s') {g g' : Grammar φ} :
    Like L s g g' → Like L s' g g'
  | .object h => .object (L.objects_mono hs h)
  | .custom h => .custom (L.values_mono hs h)
  | .succeed h => .succeed (L.values_mono hs h)
  | .fail label => .fail label
  | .offset => .offset
  | .position => .position
  | .eof => .eof
  | .anyChar => .anyChar
  | .rest => .rest
  | .string literal => .string literal
  | .regex p group label => .regex p group label
  | .satisfy label h => .satisfy label (h.mono hs)
  | .takeWhile h => .takeWhile (h.mono hs)
  | .seq h => .seq (LikeAll.mono hs h)
  | .alt hp hps => .alt (Like.mono hs hp) (LikeAll.mono hs hps)
  | .times min max h => .times min max (Like.mono hs h)
  | .mapEnv hp hf => .mapEnv (Like.mono hs hp) (hf.mono hs)
  | .chainEnv hp hf => .chainEnv (Like.mono hs hp) (hf.mono hs)
  | .relabel label h => .relabel label (Like.mono hs h)
  | .except hp hq => .except (Like.mono hs hp) (Like.mono hs hq)
  | .lookAhead h => .lookAhead (Like.mono hs h)
  | .trace hp hl => .trace (Like.mono hs hp) (L.values_mono hs hl)
  | .subEnv hp hf => .subEnv (Like.mono hs hp) (L.values_mono hs hf)
  | .fromEnv h => .fromEnv (L.values_mono hs h)
  | .deferred h => .deferred (L.deferrals_mono hs h)

theorem LikeAll.mono {L : Likeness S φ} {s s' : S} (hs : s ≤ s') {ps ps' : List (Grammar φ)} :
    LikeAll L s ps ps' → LikeAll L s' ps ps'
  | .nil => .nil
  | .cons hp hps => .cons (Like.mono hs hp) (LikeAll.mono hs hps)

end

theorem likeSame_callback (f : Callback φ) : f.Like (Likeness.same φ) () f := by
  cases f <;> constructor <;> rfl

theorem likeSame_test (test : Test φ) : test.Like (Likeness.same φ) () test := by
  cases test <;> constructor <;> rfl

mutual

/-- Every grammar is alike to itself. -/
theorem like_same : (g : Grammar φ) → Like (Likeness.same φ) () g g
  | .object _ => .object rfl
  | .custom _ => .custom rfl
  | .succeed _ => .succeed rfl
  | .fail label => .fail label
  | .offset => .offset
  | .position => .position
  | .eof => .eof
  | .anyChar => .anyChar
  | .rest => .rest
  | .string literal => .string literal
  | .regex p group label => .regex p group label
  | .satisfy test label => .satisfy label (likeSame_test test)
  | .takeWhile test => .takeWhile (likeSame_test test)
  | .seq ps => .seq (likeAll_same ps)
  | .alt p ps => .alt (like_same p) (likeAll_same ps)
  | .times p min max => .times min max (like_same p)
  | .mapEnv p f => .mapEnv (like_same p) (likeSame_callback f)
  | .chainEnv p f => .chainEnv (like_same p) (likeSame_callback f)
  | .relabel p label => .relabel label (like_same p)
  | .except p q => .except (like_same p) (like_same q)
  | .lookAhead p => .lookAhead (like_same p)
  | .trace p _ => .trace (like_same p) rfl
  | .subEnv p _ => .subEnv (like_same p) rfl
  | .fromEnv _ => .fromEnv rfl
  | .deferred _ => .deferred rfl

theorem likeAll_same : (ps : List (Grammar φ)) → LikeAll (Likeness.same φ) () ps ps
  | [] => .nil
  | p :: ps => .cons (like_same p) (likeAll_same ps)

end

end Grammar

namespace Pairing

variable {L : Likeness S φ} {m₁ m₂ : Type → Type} [Monad m₁] [MonadExceptOf (Halt φ) m₁] [Monad m₂]
  [MonadExceptOf (Halt φ) m₂]

/-- From a stage on, what lies outside of grammars does the same on both sides. -/
structure Hosts (P : Pairing L m₁ m₂) (s : S) (h : Host m₁ φ) (h' : Host m₂ φ) : Prop where
  object {s' : S} : s ≤ s' → ∀ {r r' : Ref}, L.objects s' r r' →
    P.Like s' (h.object r) (h'.object r')
  deferred {s' : S} : s ≤ s' → ∀ {d d' : DeferralRef}, L.deferrals s' d d' →
    P.Like s' (h.deferred d) (h'.deferred d')
  call : P.Calls s h.call h'.call
  describe {s' : S} : s ≤ s' → ∀ {v v' : Value φ}, L.values s' v v' →
    P.Holds s' (fun _ => Eq) (h.describe v) (h'.describe v')
  log {s' : S} : s ≤ s' → ∀ {entry entry' : LogEntry φ},
    LogEntry.Like (L.values s') entry entry' →
      P.Holds s' (fun _ _ _ => True) (h.log entry) (h'.log entry')
  times {s' : S} : s ≤ s' → ∀ {p : Behaviour m₁ φ} {q : Behaviour m₂ φ}, P.Like s' p q →
    ∀ min max : Limit,
      P.Like s' (Behaviour.times p min max h.budget) (Behaviour.times q min max h'.budget)

/-- Two watchers add the same to alike behaviours. -/
structure Watchers (P : Pairing L m₁ m₂) (w : Watcher m₁ φ) (w' : Watcher m₂ φ) : Prop where
  leaf {s : S} (label : String) (place : Input → Nat → Nat) {p : Behaviour m₁ φ}
    {q : Behaviour m₂ φ} : P.Like s p q → P.Like s (w.leaf label place p) (w'.leaf label place q)
  foreign {s : S} {p : Behaviour m₁ φ} {q : Behaviour m₂ φ} :
    P.Like s p q → P.Like s (w.foreign p) (w'.foreign q)

variable {P : Pairing L m₁ m₂} {s : S} {h : Host m₁ φ} {h' : Host m₂ φ} {w : Watcher m₁ φ}
  {w' : Watcher m₂ φ}

theorem chosen_of_not_object {m : Type → Type} [Monad m] [MonadExceptOf (Halt φ) m]
    (h : Host m φ) (complaint : Value φ → Fault φ) {v : Value φ} (hv : ∀ r, v ≠ .parser r) :
    h.chosen complaint v = throw (.fault (complaint v)) := by
  cases v with
  | parser r => exact absurd rfl (hv r)
  | _ => rfl

theorem resultOf_of_not_result {m : Type → Type} [Monad m] [MonadExceptOf (Halt φ) m]
    {v : Value φ} (hv : ∀ r, v ≠ .result r) :
    Host.resultOf (m := m) v = throw (.fault (.noField v "status")) := by
  cases v with
  | result r => exact absurd rfl (hv r)
  | _ => rfl

theorem holds_chosen (hh : P.Hosts s h h') {complaint complaint' : Value φ → Fault φ} {s' : S}
    (hs : s ≤ s') (hc : ∀ s₂, s' ≤ s₂ → ∀ v v', L.values s₂ v v' →
      Fault.Like (L.values s₂) (complaint v) (complaint' v'))
    {x : m₁ (Value φ)} {y : m₂ (Value φ)} (hxy : P.Holds s' L.values x y) :
    P.Holds s' P.Like (do h.chosen complaint (← x)) (do h'.chosen complaint' (← y)) := by
  refine P.bind hxy fun s₂ v v' hs₂ hv => ?_
  rcases L.parser_or hv with ⟨r, r', rfl, rfl, hr⟩ | ⟨hn, hn'⟩
  · exact P.pure (hh.object (hs.trans hs₂) hr)
  · rw [chosen_of_not_object h complaint hn, chosen_of_not_object h' complaint' hn']
    exact P.throw (.fault (hc s₂ hs₂ v v' hv))

theorem holds_resultOf {v v' : Value φ} (hv : L.values s v v') :
    P.Holds s L.results (Host.resultOf v) (Host.resultOf v') := by
  rcases L.result_or hv with ⟨r, r', rfl, rfl, hr⟩ | ⟨hn, hn'⟩
  · exact P.pure hr
  · rw [resultOf_of_not_result hn, resultOf_of_not_result hn']
    exact P.throw (.fault (.noField "status" hv))

theorem like_custom (hh : P.Hosts s h h') {f f' : Value φ} (hf : L.values s f f') :
    P.Like s ((Grammar.custom f).denote h) ((Grammar.custom f').denote h') := by
  intro s₁ hs₁ text i env env' henv
  have hargs : List.Forall₂ (L.values s₁) [.text (String.ofList text), .nat i, env]
      [.text (String.ofList text), .nat i, env'] :=
    .cons (L.text s₁ _) (.cons (L.nat s₁ i) (.cons henv .nil))
  exact P.bind (hh.call s₁ hs₁ f f' _ _ (L.values_mono hs₁ hf) hargs) fun s₂ v v' _ hv =>
    holds_resultOf hv

theorem like_chainEnv_chosen (hh : P.Hosts s h h') {p : Behaviour m₁ φ} {q : Behaviour m₂ φ}
    (hp : P.Like s p q) {f f' : Callback φ} (hf : f.Like L s f') :
    P.Like s
      (Behaviour.chainEnv p fun v env => do
        h.chosen (.unfit "chain" .parser) (← f.run h.call v env))
      (Behaviour.chainEnv q fun v env => do
        h'.chosen (.unfit "chain" .parser) (← f'.run h'.call v env)) := by
  refine like_chainEnv hp fun s' hs v v' env env' hv henv => ?_
  have hrun := holds_callback (hh.call.mono hs) (hf.mono hs) hv henv
  exact holds_chosen hh hs (fun s₂ _ v v' hv => .unfit "chain" .parser hv) hrun

theorem like_fromEnv_chosen (hh : P.Hosts s h h') {f f' : Value φ} (hf : L.values s f f') :
    P.Like s
      (Behaviour.fromEnv fun env => do h.chosen (.notFound · f) (← h.call f [env]))
      (Behaviour.fromEnv fun env => do h'.chosen (.notFound · f') (← h'.call f' [env])) := by
  refine like_fromEnv fun s' hs env env' henv => ?_
  have hcall := hh.call s' hs f f' _ _ (L.values_mono hs hf) (.cons henv .nil)
  exact holds_chosen hh hs
    (fun s₂ hs₂ v v' hv => .notFound hv (L.values_mono (hs.trans hs₂) hf)) hcall

theorem like_subEnv_call (hh : P.Hosts s h h') {p : Behaviour m₁ φ} {q : Behaviour m₂ φ}
    (hp : P.Like s p q) {f f' : Value φ} (hf : L.values s f f') :
    P.Like s (Behaviour.subEnv p fun env => h.call f [env])
      (Behaviour.subEnv q fun env => h'.call f' [env]) :=
  like_subEnv hp fun s' hs _ _ henv =>
    hh.call s' hs f f' _ _ (L.values_mono hs hf) (.cons henv .nil)

mutual

/-- Alike grammars behave alike under watchers that add the same, if their hosts do the same. -/
theorem like_denoteWith (hw : P.Watchers w w') (hh : P.Hosts s h h') {g g' : Grammar φ} :
    g.Like L s g' → P.Like s (g.denoteWith w h) (g'.denoteWith w' h')
  | .object hr => hh.object (le_refl s) hr
  | .deferred hd => hh.deferred (le_refl s) hd
  | .custom hf => hw.foreign (like_custom hh hf)
  | .succeed hv => like_leaf fun _ hs _ i => .success i (L.values_mono hs hv)
  | .fail label => hw.leaf _ _ (like_leaf fun s _ _ i => .failure i label (L.null s))
  | .offset => like_leaf fun s _ _ i => .success i (L.nat s i)
  | .position => like_leaf fun s _ _ i => .success i (L.position s _)
  | .eof => hw.leaf _ _ (like_leaf fun s _ text i => by
      unfold Leaf.eof
      split
      · exact .failure i _ (L.null s)
      · exact .success i (L.null s))
  | .anyChar => hw.leaf _ _ (like_leaf fun s _ text i => by
      unfold Leaf.anyChar
      split
      · exact .success _ (L.text s _)
      · exact .failure i _ (L.null s))
  | .rest => like_leaf fun s _ _ _ => .success _ (L.text s _)
  | .string literal => hw.leaf _ _ (like_leaf fun s _ text i => by
      unfold Leaf.string
      dsimp only
      split
      · exact .success _ (L.text s _)
      · exact ⟨rfl, rfl, rfl, L.null s⟩)
  | .regex p group label => hw.leaf _ _ (like_regex p group label)
  | .satisfy label ht => hw.leaf _ _ (like_satisfy
      (fun _ hs c _ _ henv => holds_test (hh.call.mono hs) (ht.mono hs) c henv) label)
  | .takeWhile ht => like_takeWhile fun s hs c =>
      holds_test (hh.call.mono hs) (ht.mono hs) c (L.null s)
  | .seq hps => like_seq (like_denoteAllWith hw hh hps)
  | .alt hp hps => like_alt (like_denoteWith hw hh hp) (like_denoteAllWith hw hh hps)
  | .times min max hp => hh.times (le_refl s) (like_denoteWith hw hh hp) min max
  | .mapEnv hp hf => like_mapEnv (like_denoteWith hw hh hp) fun _ hs _ _ _ _ hv henv =>
      holds_callback (hh.call.mono hs) (hf.mono hs) hv henv
  | .chainEnv hp hf => like_chainEnv_chosen hh (like_denoteWith hw hh hp) hf
  | .relabel label hp => hw.foreign (like_relabel (like_denoteWith hw hh hp) label)
  | .except hp hq => hw.foreign
      (like_except (like_denoteWith hw hh hp) (like_denoteWith hw hh hq) fun _ hs _ _ hv =>
        hh.describe hs hv)
  | .lookAhead hp => like_lookAhead (like_denoteWith hw hh hp)
  | .trace hp hl => like_trace (like_denoteWith hw hh hp) hl fun _ hs _ _ he => hh.log hs he
  | .subEnv hp hf => like_subEnv_call hh (like_denoteWith hw hh hp) hf
  | .fromEnv hf => like_fromEnv_chosen hh hf

theorem like_denoteAllWith (hw : P.Watchers w w') (hh : P.Hosts s h h')
    {ps ps' : List (Grammar φ)} : Grammar.LikeAll L s ps ps' →
      List.Forall₂ (P.Like s) (Grammar.denoteAllWith w h ps) (Grammar.denoteAllWith w' h' ps')
  | .nil => .nil
  | .cons hp hps => .cons (like_denoteWith hw hh hp) (like_denoteAllWith hw hh hps)

end

/-- Alike grammars behave alike if their hosts do the same. -/
theorem like_denote (hh : P.Hosts s h h') {g g' : Grammar φ} (hg : g.Like L s g') :
    P.Like s (g.denote h) (g'.denote h') := by
  have hw : P.Watchers .blind .blind := by
    refine ⟨?_, ?_⟩
    · intro _ _ _ p q hp
      exact hp
    · intro _ p q hp
      exact hp
  rw [← Grammar.denoteWith_blind h g, ← Grammar.denoteWith_blind h' g']
  exact like_denoteWith hw hh hg

end Pairing

end Furthest
