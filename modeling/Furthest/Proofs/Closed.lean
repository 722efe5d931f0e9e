import Furthest.Grammar.Denotation

/-!
# Properties of effects

A property of computations is closed if it holds of those without an effect and of steps taken one
after another.  What holds of every call of a function holds of every callback and of every test
that makes such calls, whatever it does with lists in between.
-/

namespace Furthest

variable {m : Type → Type} [Monad m] {φ : Type}

/-- The property holds without an effect and of steps one after another. -/
structure Closed (K : (α : Type) → m α → Prop) : Prop where
  protected pure {α : Type} (a : α) : K α (pure a)
  protected bind {α β : Type} {x : m α} {f : α → m β} :
    K α x → (∀ a, K β (f a)) → K β (x >>= f)

namespace Closed

variable {K : (α : Type) → m α → Prop} {call : Value φ → List (Value φ) → m (Value φ)}

theorem foldPairsLeft (hK : Closed K) (hc : ∀ f args, K _ (call f args)) (acc : Value φ)
    (pairs : List (Value φ)) : K _ (Value.foldPairsLeft call acc pairs) := by
  fun_induction Value.foldPairsLeft call acc pairs with
  | case1 acc op operand pairs ih => exact hK.bind (hc op [acc, operand]) ih
  | case2 => exact hK.pure _

theorem foldPairsRight (hK : Closed K) (hc : ∀ f args, K _ (call f args)) (first : Value φ)
    (pairs : List (Value φ)) : K _ (Value.foldPairsRight call first pairs) := by
  fun_induction Value.foldPairsRight call first pairs with
  | case1 first op operand pairs ih => exact hK.bind ih fun v => hc op [first, v]
  | case2 => exact hK.pure _

theorem applyOptional (hK : Closed K) (hc : ∀ f args, K _ (call f args)) (op operand : Value φ) :
    K _ (Value.applyOptional call op operand) := by
  unfold Value.applyOptional
  split
  · exact hc _ _
  · exact hK.pure operand

theorem callback (hK : Closed K) (hc : ∀ f args, K _ (call f args)) (f : Callback φ)
    (v env : Value φ) : K _ (f.run call v env) := by
  unfold Callback.run
  split
  case h_10 => exact hK.foldPairsLeft hc _ _
  case h_11 => exact hK.foldPairsRight hc _ _
  case h_12 => exact hK.bind (hK.applyOptional hc _ _) fun inner => hK.applyOptional hc _ inner
  all_goals first
    | exact hc _ _
    | exact hK.pure _

theorem test (hK : Closed K) (hc : ∀ f args, K _ (call f args)) (test : Test φ) (c : Char)
    (env : Value φ) : K _ (test.run call c env) := by
  cases test with
  | value f => exact hK.bind (hc f _) fun v => hK.pure v.truthy
  | valueAndEnv f => exact hK.bind (hc f _) fun v => hK.pure v.truthy
  | _ => exact hK.pure _

end Closed

end Furthest
