/-
Choices from a finite set, one after another, and how even they are.

- `Balanced`: two elements of the set have been chosen equally often, up to one.
- `Rounds`: the choices fall into rounds, as many choices as the set has elements; no round has an element twice.
- `balanced_take_iff`: the choices are balanced at every time exactly if no round has an element twice.
-/
import Mathlib.Tactic
import Mathlib.Algebra.BigOperators.Group.Finset.Basic
import Mathlib.Algebra.Order.BigOperators.Group.Finset

namespace MCoroRpc.Balance

variable {α : Type*} {xs : List α}

/-- choices of one round of `m` differ -/
def Rounds (m : ℕ) (xs : List α) : Prop := ∀ a b, a < b → b < xs.length → a / m = b / m → xs[a]? ≠ xs[b]?

theorem Rounds.nodup {m q r : ℕ} (h : Rounds m xs) (hr : r ≤ m) : ((xs.drop (m * q)).take r).Nodup := by
  rw [List.nodup_iff_getElem?_ne_getElem?]
  intro i j hij hj
  rw [List.length_take, List.length_drop] at hj
  rw [List.getElem?_take_of_lt (by omega), List.getElem?_take_of_lt (by omega), List.getElem?_drop, List.getElem?_drop]
  have hdiv : ∀ k, k < r → (m * q + k) / m = q := fun k hk => by
    rw [Nat.mul_add_div (by omega), Nat.div_eq_of_lt (by omega), Nat.add_zero]
  exact h _ _ (by omega) (by omega) ((hdiv i (by omega)).trans (hdiv j (by omega)).symm)

variable [DecidableEq α] {t : Finset α}

/-- two elements have been chosen equally often, up to one -/
def Balanced (t : Finset α) (xs : List α) : Prop := ∀ i ∈ t, ∀ j ∈ t, xs.count i ≤ xs.count j + 1

theorem sum_count (hxs : ∀ x ∈ xs, x ∈ t) : ∑ i ∈ t, xs.count i = xs.length := by
  have hsum := Multiset.sum_count_eq_card (m := (xs : Multiset α)) hxs
  simpa only [Multiset.coe_count, Multiset.coe_card] using hsum

/-! ## Balanced choices have no repetition in a round -/

/-- no element lags behind the mean by one -/
theorem Balanced.length_lt (h : Balanced t xs) (hxs : ∀ x ∈ xs, x ∈ t) {i : α} (hi : i ∈ t) :
    xs.length < t.card * (xs.count i + 1) := by
  calc xs.length = ∑ j ∈ t, xs.count j := (sum_count hxs).symm
    _ < ∑ _j ∈ t, (xs.count i + 1) := Finset.sum_lt_sum (fun j hj => h j hj i hi) ⟨i, hi, Nat.lt_succ_self _⟩
    _ = t.card * (xs.count i + 1) := by rw [Finset.sum_const, smul_eq_mul]

/-- no element is ahead of the mean by one -/
theorem Balanced.mul_count_lt (h : Balanced t xs) (hxs : ∀ x ∈ xs, x ∈ t) {i : α} (hi : i ∈ t) :
    t.card * xs.count i < xs.length + t.card := by
  calc t.card * xs.count i = ∑ _j ∈ t, xs.count i := by rw [Finset.sum_const, smul_eq_mul]
    _ < ∑ j ∈ t, (xs.count j + 1) := Finset.sum_lt_sum (fun j hj => h i hi j hj) ⟨i, hi, Nat.lt_succ_self _⟩
    _ = xs.length + t.card := by rw [Finset.sum_add_distrib, sum_count hxs, Finset.sum_const, smul_eq_mul, mul_one]

theorem count_take_le {k l : ℕ} (h : k ≤ l) (i : α) : (xs.take k).count i ≤ (xs.take l).count i :=
  ((List.take_prefix_take_left h).sublist).count_le i

theorem count_take_succ {k : ℕ} {i : α} (h : xs[k]? = some i) : (xs.take (k + 1)).count i = (xs.take k).count i + 1 := by
  rw [List.take_add_one, h, Option.toList_some, List.count_append, List.count_singleton_self]

/-- an element that comes twice is counted at both places -/
theorem count_take_add_two {a b q : ℕ} {i : α} (hq : q ≤ a) (hab : a < b) (ha : xs[a]? = some i) (hb : xs[b]? = some i) :
    (xs.take q).count i + 2 ≤ (xs.take (b + 1)).count i := by
  calc (xs.take q).count i + 2 ≤ (xs.take a).count i + 1 + 1 := Nat.add_le_add_right (count_take_le hq i) 2
    _ = (xs.take (a + 1)).count i + 1 := by rw [count_take_succ ha]
    _ ≤ (xs.take b).count i + 1 := Nat.succ_le_succ (count_take_le hab i)
    _ = (xs.take (b + 1)).count i := (count_take_succ hb).symm

theorem rounds_of_balanced (h : ∀ k, Balanced t (xs.take k)) (hxs : ∀ x ∈ xs, x ∈ t) : Rounds t.card xs := by
  intro a b hab hb hround heq
  obtain ⟨i, hbi⟩ : ∃ i, xs[b]? = some i := ⟨_, List.getElem?_eq_getElem hb⟩
  have hi : i ∈ t := hxs i (List.mem_of_getElem? hbi)
  have hcard : 0 < t.card := Finset.card_pos.2 ⟨i, hi⟩
  have hmem : ∀ k, ∀ x ∈ xs.take k, x ∈ t := fun k x hx => hxs x (List.mem_of_mem_take hx)
  -- the round begins at `q * t.card`, and `b` is in it
  obtain ⟨q, hq⟩ : ∃ q, q = b / t.card := ⟨_, rfl⟩
  have hbegin : t.card * q ≤ a := by
    rw [hq, ← hround]
    exact Nat.mul_div_le a t.card
  have hend : b < t.card * (q + 1) := by
    rw [hq]
    exact Nat.lt_mul_div_succ b hcard
  have htwice := count_take_add_two hbegin hab (heq.trans hbi) hbi
  have hbefore := (h (t.card * q)).length_lt (hmem _) hi
  rw [List.length_take, Nat.min_eq_left (by omega)] at hbefore
  have hbehind := (h (b + 1)).mul_count_lt (hmem _) hi
  rw [List.length_take, Nat.min_eq_left hb] at hbehind
  -- before the round every element has been chosen `q` times
  have hleast : q + 2 ≤ (xs.take (b + 1)).count i := by
    have := Nat.lt_of_mul_lt_mul_left hbefore
    omega
  have hmost := Nat.mul_le_mul_left t.card hleast
  rw [show t.card * (q + 2) = t.card * (q + 1) + t.card by ring] at hmost
  omega

/-! ## Rounds without repetition are balanced -/

/-- a whole round has every element once -/
theorem Rounds.count_round {q : ℕ} (h : Rounds t.card xs) (hxs : ∀ x ∈ xs, x ∈ t) {i : α} (hi : i ∈ t)
    (hlen : t.card * (q + 1) ≤ xs.length) : ((xs.drop (t.card * q)).take t.card).count i = 1 := by
  have hnodup := h.nodup (q := q) le_rfl
  refine List.count_eq_one_of_mem hnodup ?_
  have hsub : ((xs.drop (t.card * q)).take t.card).toFinset ⊆ t := fun x hx =>
    hxs x (List.mem_of_mem_drop (List.mem_of_mem_take (List.mem_toFinset.1 hx)))
  have hcard : t.card ≤ ((xs.drop (t.card * q)).take t.card).toFinset.card := by
    rw [Nat.mul_add, mul_one] at hlen
    rw [List.toFinset_card_of_nodup hnodup, List.length_take, List.length_drop, Nat.min_eq_left (by omega)]
  rw [← List.mem_toFinset, Finset.eq_of_subset_of_card_le hsub hcard]
  exact hi

theorem Rounds.count_take {q : ℕ} (h : Rounds t.card xs) (hxs : ∀ x ∈ xs, x ∈ t) {i : α} (hi : i ∈ t)
    (hlen : t.card * q ≤ xs.length) : (xs.take (t.card * q)).count i = q := by
  induction q with
  | zero => rw [mul_zero, List.take_zero, List.count_nil]
  | succ q ih =>
    have hle : t.card * q ≤ xs.length := (Nat.mul_le_mul_left _ (Nat.le_succ q)).trans hlen
    rw [Nat.mul_add, mul_one, List.take_add, List.count_append, ih hle, h.count_round hxs hi hlen]

/-- at any time every element has been chosen once in each whole round, and at most once since -/
theorem Rounds.count_bounds (h : Rounds t.card xs) (hxs : ∀ x ∈ xs, x ∈ t) {i : α} (hi : i ∈ t) {k : ℕ}
    (hk : k ≤ xs.length) : k / t.card ≤ (xs.take k).count i ∧ (xs.take k).count i ≤ k / t.card + 1 := by
  have hcard : 0 < t.card := Finset.card_pos.2 ⟨i, hi⟩
  have hmul := Nat.mul_div_le k t.card
  have hrest : k - t.card * (k / t.card) ≤ t.card := by
    have hlt := Nat.lt_mul_div_succ k hcard
    rw [Nat.mul_add, mul_one] at hlt
    omega
  have hsplit : xs.take k = xs.take (t.card * (k / t.card)) ++
      (xs.drop (t.card * (k / t.card))).take (k - t.card * (k / t.card)) := by
    rw [← List.take_add, Nat.add_sub_cancel' hmul]
  have honce := List.nodup_iff_count_le_one.1 (h.nodup (q := k / t.card) hrest) i
  rw [hsplit, List.count_append, h.count_take hxs hi (hmul.trans hk)]
  omega

theorem balanced_of_rounds (h : Rounds t.card xs) (hxs : ∀ x ∈ xs, x ∈ t) (k : ℕ) : Balanced t (xs.take k) := by
  intro i hi j hj
  rw [List.take_eq_take_min]
  have hbi := h.count_bounds hxs hi (Nat.min_le_right k xs.length)
  have hbj := h.count_bounds hxs hj (Nat.min_le_right k xs.length)
  omega

/-- **Even choices**: they are balanced at every time exactly if no round has an element twice -/
theorem balanced_take_iff (hxs : ∀ x ∈ xs, x ∈ t) : (∀ k, Balanced t (xs.take k)) ↔ Rounds t.card xs :=
  ⟨fun h => rounds_of_balanced h hxs, fun h => balanced_of_rounds h hxs⟩

end MCoroRpc.Balance
