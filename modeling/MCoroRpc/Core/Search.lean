/-
Bounded search: the places `k`, `k + 1`, … are looked at one after another, `n` of them.

- `Until P Q n k`: `Q` holds at one of them, and `P` at those before it.
- `until_succ`: the first place, and those behind it.
- `forall_or_until`: `P` holds at all of them, or there is a first at which it does not.
- `exists_first`, `first_unique`: the first place at which `P` does not hold.
-/
import Mathlib.Tactic

namespace MCoroRpc.Search

def Until (P Q : ℕ → Prop) (n k : ℕ) : Prop := ∃ i < n, (∀ j < i, P (k + j)) ∧ Q (k + i)

variable {P Q R : ℕ → Prop} {n k : ℕ}

theorem not_until_zero : ¬ Until P Q 0 k := by
  rintro ⟨i, hi, -⟩
  exact absurd hi (Nat.not_lt_zero i)

/-- the first place, and those behind it -/
theorem until_succ : Until P Q (n + 1) k ↔ Q k ∨ P k ∧ Until P Q n (k + 1) := by
  constructor
  · rintro ⟨i, hi, hj, hq⟩
    cases i with
    | zero => exact .inl hq
    | succ i =>
      refine .inr ⟨hj 0 (Nat.succ_pos i), i, Nat.lt_of_succ_lt_succ hi, ?_, ?_⟩
      · intro j hji
        rw [Nat.succ_add_eq_add_succ]
        exact hj (j + 1) (Nat.succ_lt_succ hji)
      · rw [Nat.succ_add_eq_add_succ]
        exact hq
  · rintro (hq | ⟨hp, i, hi, hj, hq⟩)
    · exact ⟨0, Nat.succ_pos n, fun j hj => absurd hj (Nat.not_lt_zero j), hq⟩
    · refine ⟨i + 1, Nat.succ_lt_succ hi, ?_, ?_⟩
      · intro j hji
        cases j with
        | zero => exact hp
        | succ j =>
          rw [← Nat.succ_add_eq_add_succ]
          exact hj j (Nat.lt_of_succ_lt_succ hji)
      · rw [← Nat.succ_add_eq_add_succ]
        exact hq

/-- a search that goes no further than its first place -/
theorem not_until (hp : ¬ P k) (hq : ¬ Q k) : ¬ Until P Q n k := by
  cases n with
  | zero => exact not_until_zero
  | succ n =>
    rw [until_succ]
    exact fun h => h.elim hq fun h => hp h.1

theorem until_zero : Until P Q (n + 1) 0 ↔ ∃ i ≤ n, (∀ j < i, P j) ∧ Q i := by
  simp only [Until, Nat.zero_add, Nat.lt_succ_iff]

theorem forall_or_until : (∀ i < n, P (k + i)) ∨ Until P (fun i => ¬ P i) n k := by
  induction n generalizing k with
  | zero => exact .inl fun i hi => absurd hi (Nat.not_lt_zero i)
  | succ n ih =>
    rw [until_succ]
    by_cases hp : P k
    · rcases ih (k := k + 1) with hall | hsome
      · left
        intro i hi
        cases i with
        | zero => exact hp
        | succ i =>
          rw [← Nat.succ_add_eq_add_succ]
          exact hall i (Nat.lt_of_succ_lt_succ hi)
      · exact .inr (.inr ⟨hp, hsome⟩)
    · exact .inr (.inl hp)

/-- the first place at which `P` does not hold -/
theorem exists_first (h : ¬ P n) : ∃ k, (∀ j < k, P j) ∧ ¬ P k := by
  rcases forall_or_until (P := P) (n := n) (k := 0) with hall | ⟨k, -, hj, hk⟩
  · exact ⟨n, fun j hj => by simpa using hall j hj, h⟩
  · rw [Nat.zero_add] at hk
    exact ⟨k, fun j hjk => by simpa using hj j hjk, hk⟩

theorem first_unique {k' : ℕ} (hj : ∀ j < k, P j) (hk : ¬ P k) (hj' : ∀ j < k', P j) (hk' : ¬ P k') : k = k' := by
  rcases lt_trichotomy k k' with hlt | heq | hlt
  · exact absurd (hj' k hlt) hk
  · exact heq
  · exact absurd (hj k' hlt) hk'

end MCoroRpc.Search
