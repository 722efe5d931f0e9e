import Furthest.Proofs.Traced.Pinned

/-!
# Noting traced parsers

`Grammar.denoteNoting` is the behaviour of a grammar where something is noted of each traced parser
in it.  If what is noted leaves a traced parser alike on a text, and the hosts are alike there, the
whole grammar is (`Pairing.likeOn_denoteNoting`).
-/

namespace Furthest

variable {φ : Type}

namespace Grammar

variable {m : Type → Type} [Monad m] [MonadExceptOf (Halt φ) m]
  (note : Value φ → Behaviour m φ → Behaviour m φ) (host : Host m φ)

mutual

/-- The behaviour of a grammar where `note` is added to its traced parsers, under their labels. -/
def denoteNoting : Grammar φ → Behaviour m φ
  | .seq ps => Behaviour.seq (denoteAllNoting ps)
  | .alt p ps => Behaviour.alt p.denoteNoting (denoteAllNoting ps)
  | .times p min max => Behaviour.times p.denoteNoting min max host.budget
  | .mapEnv p f => Behaviour.mapEnv p.denoteNoting (f.run host.call)
  | .chainEnv p f =>
    Behaviour.chainEnv p.denoteNoting fun v env => do
      host.chosen (.unfit "chain" .parser) (← f.run host.call v env)
  | .relabel p label => Behaviour.relabel p.denoteNoting label
  | .except allowed forbidden =>
    Behaviour.except allowed.denoteNoting forbidden.denoteNoting host.describe
  | .lookAhead p => Behaviour.lookAhead p.denoteNoting
  | .trace p label => note label (Behaviour.trace p.denoteNoting label host.log)
  | .subEnv p derive => Behaviour.subEnv p.denoteNoting fun env => host.call derive [env]
  -- the others have no parts
  | g => g.denote host

/-- The behaviours of several grammars. -/
def denoteAllNoting : List (Grammar φ) → List (Behaviour m φ)
  | [] => []
  | p :: ps => p.denoteNoting :: denoteAllNoting ps

end

end Grammar

namespace Pairing

variable {m₁ m₂ : Type → Type} [Monad m₁] [MonadExceptOf (Halt φ) m₁] [Monad m₂]
  [MonadExceptOf (Halt φ) m₂] (P : Pairing (Likeness.same φ) m₁ m₂) (s : Input)

/-- Attempts on the text `s` come to the same. -/
def LikeOn (p : Behaviour m₁ φ) (q : Behaviour m₂ φ) : Prop := P.Like () (p.pinned s) (q.pinned s)

variable {P s} {p : Behaviour m₁ φ} {q : Behaviour m₂ φ} {h : Host m₁ φ} {h' : Host m₂ φ}
  {note : Value φ → Behaviour m₁ φ → Behaviour m₁ φ}

/-- What is alike on all texts is alike on one. -/
theorem Like.on (hpq : P.Like () p q) : P.LikeOn s p q :=
  fun u hu _ i env env' henv => hpq u hu s i env env' henv

theorem likeSame_fault (e : Fault φ) : e.Like Eq e := by
  cases e <;> constructor <;> rfl

/-- The objects that a value chooses are alike on the text. -/
theorem holds_chosen_on (hh : P.Hosts () (h.pinned s) (h'.pinned s))
    (complaint : Value φ → Fault φ) {x : m₁ (Value φ)} {y : m₂ (Value φ)}
    (hxy : P.Holds () (fun _ => Eq) x y) :
    P.Holds () (fun _ => P.LikeOn s) (do h.chosen complaint (← x))
      (do h'.chosen complaint (← y)) := by
  refine P.bind hxy ?_
  rintro _ v _ - rfl
  cases v with
  | parser r => exact P.pure (hh.object (le_refl ()) rfl)
  | _ => exact P.throw (.fault (likeSame_fault _))

section

variable [LawfulMonad m₁] [LawfulMonad m₂]

theorem likeOn_chainEnv (hp : P.LikeOn s p q) {f : Value φ → Value φ → m₁ (Behaviour m₁ φ)}
    {g : Value φ → Value φ → m₂ (Behaviour m₂ φ)}
    (hf : ∀ v env, P.Holds () (fun _ => P.LikeOn s) (f v env) (g v env)) :
    P.LikeOn s (Behaviour.chainEnv p f) (Behaviour.chainEnv q g) := by
  unfold LikeOn
  rw [Behaviour.pinned_chainEnv, Behaviour.pinned_chainEnv]
  refine like_chainEnv hp ?_
  rintro _ - v _ env _ rfl rfl
  rw [map_eq_pure_bind, map_eq_pure_bind]
  exact P.bind (hf v env) fun _ _ _ _ hpq => P.pure hpq

theorem likeOn_fromEnv {f : Value φ → m₁ (Behaviour m₁ φ)} {g : Value φ → m₂ (Behaviour m₂ φ)}
    (hf : ∀ env, P.Holds () (fun _ => P.LikeOn s) (f env) (g env)) :
    P.LikeOn s (Behaviour.fromEnv f) (Behaviour.fromEnv g) := by
  unfold LikeOn
  rw [Behaviour.pinned_fromEnv, Behaviour.pinned_fromEnv]
  refine like_fromEnv ?_
  rintro _ - env _ rfl
  rw [map_eq_pure_bind, map_eq_pure_bind]
  exact P.bind (hf env) fun _ _ _ _ hpq => P.pure hpq

end

/-- What is noted of a traced parser leaves it alike on the text. -/
def Noting (P : Pairing (Likeness.same φ) m₁ m₂) (s : Input) (h : Host m₁ φ) (h' : Host m₂ φ)
    (note : Value φ → Behaviour m₁ φ → Behaviour m₁ φ) : Prop :=
  ∀ label p q, P.LikeOn s p q →
    P.LikeOn s (note label (Behaviour.trace p label h.log)) (Behaviour.trace q label h'.log)

mutual

/-- On a text, a grammar where something is noted of its traced parsers is alike to the plain one if
the hosts are and the noting leaves it so. -/
theorem likeOn_denoteNoting [LawfulMonad m₁] [LawfulMonad m₂]
    (hh : P.Hosts () (h.pinned s) (h'.pinned s)) (hn : P.Noting s h h' note) :
    (g : Grammar φ) → P.LikeOn s (g.denoteNoting note h) (g.denote h')
  | .seq ps => by
    show P.Like () (Behaviour.pinned s (Behaviour.seq _)) (Behaviour.pinned s (Behaviour.seq _))
    rw [Behaviour.pinned_seq, Behaviour.pinned_seq]
    exact like_seq (likeOn_denoteAllNoting hh hn ps)
  | .alt p ps => by
    show P.Like () (Behaviour.pinned s (Behaviour.alt _ _)) (Behaviour.pinned s (Behaviour.alt _ _))
    rw [Behaviour.pinned_alt, Behaviour.pinned_alt]
    exact like_alt (likeOn_denoteNoting hh hn p) (likeOn_denoteAllNoting hh hn ps)
  | .times p min max => by
    show P.Like () (Behaviour.pinned s (Behaviour.times _ min max _))
      (Behaviour.pinned s (Behaviour.times _ min max _))
    rw [Behaviour.pinned_times, Behaviour.pinned_times]
    exact hh.times (le_refl ()) (likeOn_denoteNoting hh hn p) min max
  | .mapEnv p f => like_mapEnv (likeOn_denoteNoting hh hn p) fun _ hs _ _ _ _ hv henv =>
      holds_callback (hh.call.mono hs) (Grammar.likeSame_callback f) hv henv
  | .chainEnv p f => likeOn_chainEnv (likeOn_denoteNoting hh hn p) fun _ _ =>
      holds_chosen_on hh _ (holds_callback hh.call (Grammar.likeSame_callback f) rfl rfl)
  | .relabel p label => like_relabel (likeOn_denoteNoting hh hn p) label
  | .except allowed forbidden =>
      like_except (likeOn_denoteNoting hh hn allowed) (likeOn_denoteNoting hh hn forbidden)
        fun _ hs _ _ hv => hh.describe hs hv
  | .lookAhead p => like_lookAhead (likeOn_denoteNoting hh hn p)
  | .trace p label => hn label _ _ (likeOn_denoteNoting hh hn p)
  | .subEnv p derive => like_subEnv (likeOn_denoteNoting hh hn p) fun u hu _ _ henv =>
      hh.call u hu derive derive _ _ rfl (.cons henv .nil)
  | .fromEnv lookup => likeOn_fromEnv fun _ =>
      holds_chosen_on hh _ (hh.call () (le_refl ()) lookup lookup _ _ rfl (.cons rfl .nil))
  | .object _ => hh.object (le_refl ()) rfl
  | .deferred _ => hh.deferred (le_refl ()) rfl
  | .custom f => (like_denote hh (Grammar.like_same (.custom f))).on
  | .succeed v => (like_denote hh (Grammar.like_same (.succeed v))).on
  | .fail label => (like_denote hh (Grammar.like_same (.fail label))).on
  | .offset => (like_denote hh (Grammar.like_same .offset)).on
  | .position => (like_denote hh (Grammar.like_same .position)).on
  | .eof => (like_denote hh (Grammar.like_same .eof)).on
  | .anyChar => (like_denote hh (Grammar.like_same .anyChar)).on
  | .rest => (like_denote hh (Grammar.like_same .rest)).on
  | .string literal => (like_denote hh (Grammar.like_same (.string literal))).on
  | .regex p group label => (like_denote hh (Grammar.like_same (.regex p group label))).on
  | .satisfy test label => (like_denote hh (Grammar.like_same (.satisfy test label))).on
  | .takeWhile test => (like_denote hh (Grammar.like_same (.takeWhile test))).on

theorem likeOn_denoteAllNoting [LawfulMonad m₁] [LawfulMonad m₂]
    (hh : P.Hosts () (h.pinned s) (h'.pinned s)) (hn : P.Noting s h h' note) :
    (ps : List (Grammar φ)) →
    List.Forall₂ (P.Like ()) ((Grammar.denoteAllNoting note h ps).map (Behaviour.pinned s))
      ((Grammar.denoteAll h' ps).map (Behaviour.pinned s))
  | [] => .nil
  | p :: ps => .cons (likeOn_denoteNoting hh hn p) (likeOn_denoteAllNoting hh hn ps)

end

end Pairing

end Furthest
