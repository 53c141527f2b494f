/-
Computations that may stop with an error: the equations of `Except` as a monad, and what a bind that ended says about
its two halves. The equations are not proved by `rfl`, so that `simp` rewrites with them instead of leaving the
unfolding to the kernel.
-/
import Mathlib.Tactic

namespace MCoroRpc.Result

variable {ε α β : Type}

theorem ok_bind (x : α) (f : α → Except ε β) : (Except.ok x >>= f) = f x := by simp only [bind, Except.bind]

theorem error_bind (e : ε) (f : α → Except ε β) : (Except.error e >>= f) = .error e := by
  simp only [bind, Except.bind]

theorem pure_ok (x : α) : (pure x : Except ε α) = .ok x := by simp only [pure, Except.pure]

theorem throw_error (e : ε) : (throw e : Except ε α) = .error e := by
  simp only [throw, throwThe, MonadExceptOf.throw]

/-- a check, and what follows it -/
theorem ite_bind {p : Prop} [Decidable p] (x : α) (e : ε) (f : α → Except ε β) :
    ((if p then .ok x else .error e : Except ε α) >>= f) = if p then f x else .error e := by
  split_ifs
  · rw [ok_bind]
  · rw [error_bind]

theorem bind_eq_ok {x : Except ε α} {f : α → Except ε β} {r : β} :
    (x >>= f) = .ok r ↔ ∃ a, x = .ok a ∧ f a = .ok r := by
  cases x with
  | error e => simp only [error_bind, reduceCtorEq, false_and, exists_false]
  | ok a => simp only [ok_bind, Except.ok.injEq, exists_eq_left']

theorem ite_error_eq_ok {p : Prop} [Decidable p] {x : Except ε α} {e : ε} {r : α} :
    (if p then x else .error e) = .ok r ↔ p ∧ x = .ok r := by
  split_ifs with h
  · exact (and_iff_right h).symm
  · exact iff_of_false (by nofun) fun hp => h hp.1

/-- the computation does not stop with an error -/
def Succeeds (x : Except ε α) : Prop := ∃ a, x = .ok a

theorem succeeds_ok (a : α) : Succeeds (.ok a : Except ε α) := ⟨a, rfl⟩

theorem not_succeeds_error (e : ε) : ¬ Succeeds (.error e : Except ε α) := by rintro ⟨a, h⟩; cases h

theorem succeeds_bind {x : Except ε α} {f : α → Except ε β} :
    Succeeds (x >>= f) ↔ ∃ a, x = .ok a ∧ Succeeds (f a) := by
  cases x with
  | error e => simp only [error_bind, not_succeeds_error, reduceCtorEq, false_and, exists_false]
  | ok a => simp only [ok_bind, Except.ok.injEq, exists_eq_left']

theorem not_succeeds {x : Except ε α} (h : ¬ Succeeds x) : ∃ e, x = .error e := by
  cases x with
  | error e => exact ⟨e, rfl⟩
  | ok a => exact absurd ⟨a, rfl⟩ h

/-- `f` of what is computed, nothing of an error -/
def amount (f : α → ℕ) : Except ε α → ℕ
  | .ok a => f a
  | .error _ => 0

@[simp] theorem amount_ok (f : α → ℕ) (a : α) : amount f (.ok a : Except ε α) = f a := rfl

/-- whatever `x` computes without an error, `y` computes -/
def Refines (x y : Except ε α) : Prop := ∀ a, x = .ok a → y = .ok a

theorem Refines.refl (x : Except ε α) : Refines x x := fun _ h => h

theorem refines_error (e : ε) (y : Except ε α) : Refines (.error e) y := fun a h => by cases h

theorem Refines.bind {x y : Except ε α} {f g : α → Except ε β} (h : Refines x y)
    (hf : ∀ a, x = .ok a → Refines (f a) (g a)) : Refines (x >>= f) (y >>= g) := by
  intro r hr
  obtain ⟨a, ha, hr⟩ := bind_eq_ok.1 hr
  rw [h a ha, ok_bind]
  exact hf a ha r hr

theorem Refines.ite {p : Prop} [Decidable p] {x x' y y' : Except ε α} (h : Refines x x') (h' : Refines y y') :
    Refines (if p then x else y) (if p then x' else y') := by
  split_ifs
  · exact h
  · exact h'

end MCoroRpc.Result
