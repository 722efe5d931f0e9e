import Furthest.Proofs.Pairing.Grammar

/-!
# Behaviours on one text

No combinator changes the text.  `Behaviour.pinned s p` does on every text what `p` does on `s`, and
a combination of such behaviours does what the combination does on `s`.  So what is shown of alike
behaviours on all texts (`Pairing.Like`) holds for one text alone, where what they do has to be
related on this text only (`Pairing.LikeOn`).
-/

namespace Furthest

variable {m : Type → Type} [Monad m] {φ : Type}

namespace Behaviour

/-- What `p` does on the text `s`, on every text. -/
def pinned (s : Input) (p : Behaviour m φ) : Behaviour m φ := fun _ i env => p s i env

variable (s : Input)

theorem seqFrom_map_pinned (t : Input) (env : Value φ) (ps : List (Behaviour m φ)) :
    seqFrom t env (ps.map (pinned s)) = seqFrom s env ps := by
  induction ps with
  | nil => rfl
  | cons p ps ih =>
    funext i values best
    simp only [List.map_cons, seqFrom, ih]
    rfl

theorem altFrom_map_pinned (t : Input) (i : Nat) (env : Value φ) (ps : List (Behaviour m φ)) :
    altFrom t i env (ps.map (pinned s)) = altFrom s i env ps := by
  induction ps with
  | nil => rfl
  | cons p ps ih =>
    funext best
    simp only [List.map_cons, altFrom, ih]
    rfl

theorem mandatory_pinned (p : Behaviour m φ) (t : Input) (env : Value φ) (next : Repeat m φ)
    (n : Nat) : mandatory (pinned s p) t env next n = mandatory p s env next n := by
  induction n with
  | zero => rfl
  | succ n ih =>
    funext i values best
    simp only [mandatory, ih]
    rfl

theorem pinned_seq (ps : List (Behaviour m φ)) : pinned s (seq ps) = seq (ps.map (pinned s)) := by
  funext t i env
  simp only [seq, seqFrom_map_pinned]
  rfl

theorem pinned_alt (p : Behaviour m φ) (ps : List (Behaviour m φ)) :
    pinned s (alt p ps) = alt (pinned s p) (ps.map (pinned s)) := by
  funext t i env
  simp only [alt, altFrom_map_pinned]
  rfl

section

variable [MonadExceptOf (Halt φ) m]

theorem optional_pinned (p : Behaviour m φ) (max : Limit) (t : Input) (env : Value φ)
    (next : Repeat m φ) (n : Nat) :
    optional (pinned s p) max t env next n = optional p max s env next n := by
  induction n with
  | zero => rfl
  | succ n ih =>
    funext i values best
    simp only [optional, ih]
    rfl

theorem pinned_times (p : Behaviour m φ) (min max : Limit) (budget : Nat) :
    pinned s (times p min max budget) = times (pinned s p) min max budget := by
  funext t i env
  simp only [times, mandatory_pinned, optional_pinned]
  rfl

end

variable [LawfulMonad m]

theorem pinned_chainEnv (p : Behaviour m φ) (f : Value φ → Value φ → m (Behaviour m φ)) :
    pinned s (chainEnv p f) = chainEnv (pinned s p) fun v env => pinned s <$> f v env := by
  funext t i env
  simp only [pinned, chainEnv, bind_map_left]

theorem pinned_fromEnv (lookup : Value φ → m (Behaviour m φ)) :
    pinned s (fromEnv lookup) = fromEnv fun env => pinned s <$> lookup env := by
  funext t i env
  simp only [pinned, fromEnv, bind_map_left]

end Behaviour

namespace Host

/-- A host that runs everything on the text `s` and keeps no log. -/
def pinned (s : Input) (host : Host m φ) : Host m φ :=
  { host with
    object := fun r => (host.object r).pinned s
    deferred := fun d => (host.deferred d).pinned s
    log := fun _ => pure ⟨⟩ }

end Host

end Furthest
