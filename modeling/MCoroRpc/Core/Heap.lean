/-
Binary heaps in level order: the element at `i` has its parent at `(i - 1) / 2`.

`IsHeap key v`: no element of `v` has a smaller key than its parent.
- `IsHeap.front_le`: the key of the front is the least.
- `isHeap_of_pairwise`: a vector in the order of its keys is a heap.
-/
import Mathlib.Tactic

namespace MCoroRpc

variable {α β : Type*} [Preorder β] {key : α → β} {v : List α}

def IsHeap (key : α → β) (v : List α) : Prop :=
  ∀ i a p, 0 < i → v[i]? = some a → v[(i - 1) / 2]? = some p → key p ≤ key a

theorem isHeap_nil : IsHeap key [] := by
  intro i a p _ ha
  cases ha

/-- the front has the least key -/
theorem IsHeap.front_le {x y : α} (h : IsHeap key (x :: v)) (hy : y ∈ x :: v) : key x ≤ key y := by
  obtain ⟨i, hi⟩ := List.mem_iff_getElem?.1 hy
  -- from an element to its parent, down to the front
  induction i using Nat.strong_induction_on generalizing y with
  | _ i ih =>
    rcases Nat.eq_zero_or_pos i with rfl | hpos
    · rw [List.getElem?_cons_zero, Option.some.injEq] at hi
      rw [hi]
    · have hparent : (i - 1) / 2 < i := by omega
      obtain ⟨hlt, -⟩ := List.getElem?_eq_some_iff.1 hi
      have hp := List.getElem?_eq_getElem (hparent.trans hlt)
      calc key x ≤ key ((x :: v)[(i - 1) / 2]) := ih _ hparent (List.mem_of_getElem? hp) hp
        _ ≤ key y := h i y _ hpos hi hp

theorem isHeap_of_pairwise (h : v.Pairwise fun a b => key a ≤ key b) : IsHeap key v := by
  intro i a p hpos ha hp
  obtain ⟨hi, rfl⟩ := List.getElem?_eq_some_iff.1 ha
  obtain ⟨hj, rfl⟩ := List.getElem?_eq_some_iff.1 hp
  exact List.pairwise_iff_getElem.1 h _ _ hj hi (by omega)

end MCoroRpc
