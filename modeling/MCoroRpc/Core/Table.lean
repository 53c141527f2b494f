/-
Tables of entries that hold values: `f i a` is what the entry `a` at place `i` holds, `total f t` what they hold together.

- `total_modify`: one entry is changed.
- `forall_mem_modify`: one entry is changed and keeps what all of them have.
- `setAll`: the entries at some places are set to one value.
- `nodup_total`: entries that hold no value in common.
- `total_unique`: a value that is held once is held by one entry.
-/
import Mathlib.Tactic

namespace MCoroRpc.Table

variable {α β : Type*}

def total (f : ℕ → α → Multiset β) (t : List α) : Multiset β := (t.mapIdx f).sum

variable {f : ℕ → α → Multiset β} {t : List α} {i j : ℕ} {a b : α} {x : β}

@[simp] theorem total_nil : total f [] = 0 := rfl

@[simp] theorem total_cons : total f (a :: t) = f 0 a + total (fun i => f (i + 1)) t := by
  simp [total]

theorem total_snoc : total f (t ++ [a]) = total f t + f t.length a := by
  simp [total]

theorem total_modify (g : α → α) (h : t[i]? = some a) : total f (t.modify i g) + f i a = total f t + f i (g a) := by
  induction t generalizing i f with
  | nil => simp at h
  | cons b t ih =>
    cases i with
    | zero =>
      obtain rfl : b = a := by simpa using h
      simp only [List.modify_zero_cons, total_cons]
      abel
    | succ i =>
      have h' : t[i]? = some a := by simpa using h
      have hih := ih (f := fun i => f (i + 1)) h'
      simp only [List.modify_succ_cons, total_cons]
      rw [add_assoc, hih, add_assoc]

/-- an entry behind a change is the changed one or an old one -/
theorem of_getElem?_modify {g : α → α} (h : (t.modify i g)[j]? = some a) :
    (j = i ∧ ∃ b, t[i]? = some b ∧ a = g b) ∨ j ≠ i ∧ t[j]? = some a := by
  rw [List.getElem?_modify] at h
  obtain ⟨b, hb, hba⟩ := Option.map_eq_some_iff.1 h
  by_cases hij : i = j
  · subst hij
    rw [if_pos rfl] at hba
    exact .inl ⟨rfl, b, hb, hba.symm⟩
  · rw [if_neg hij] at hba
    exact .inr ⟨Ne.symm hij, hba ▸ hb⟩

theorem of_getElem?_set {c : α} (h : (t.modify i fun _ => c)[j]? = some a) :
    j = i ∧ a = c ∨ j ≠ i ∧ t[j]? = some a := by
  rcases of_getElem?_modify h with ⟨hj, _, -, ha⟩ | hold
  · exact .inl ⟨hj, ha⟩
  · exact .inr hold

/-- what all entries have, and the changed one too -/
theorem forall_mem_modify {P : α → Prop} {g : α → α} (h : ∀ a ∈ t, P a) (hg : ∀ a, t[i]? = some a → P a → P (g a)) :
    ∀ a ∈ t.modify i g, P a := by
  intro a ha
  obtain ⟨j, hj⟩ := List.mem_iff_getElem?.1 ha
  rcases of_getElem?_modify hj with ⟨-, b, hb, rfl⟩ | ⟨-, hold⟩
  · exact hg b hb (h b (List.mem_of_getElem? hb))
  · exact h a (List.mem_of_getElem? hold)

/-- the entries at the places `is` become `a` -/
def setAll (a : α) (is : List ℕ) (t : List α) : List α := is.foldl (fun t i => t.modify i fun _ => a) t

theorem of_getElem?_setAll {is : List ℕ} {c : α} (h : (setAll c is t)[j]? = some a) :
    j ∈ is ∧ a = c ∨ j ∉ is ∧ t[j]? = some a := by
  induction is generalizing t with
  | nil => exact .inr ⟨List.not_mem_nil, h⟩
  | cons i is ih =>
    rcases ih h with ⟨hj, ha⟩ | ⟨hj, ha⟩
    · exact .inl ⟨List.mem_cons_of_mem i hj, ha⟩
    · rcases of_getElem?_set ha with ⟨hji, hac⟩ | ⟨hji, hta⟩
      · exact .inl ⟨List.mem_cons.2 (.inl hji), hac⟩
      · exact .inr ⟨List.not_mem_cons_of_ne_of_not_mem hji hj, hta⟩

theorem getElem?_setAll_of_not_mem {is : List ℕ} {c : α} (h : j ∉ is) : (setAll c is t)[j]? = t[j]? := by
  induction is generalizing t with
  | nil => rfl
  | cons i is ih =>
    obtain ⟨hji, hj⟩ := List.ne_and_not_mem_of_not_mem_cons h
    have hrest : (setAll c is (t.modify i fun _ => c))[j]? = (t.modify i fun _ => c)[j]? := ih hj
    exact hrest.trans (List.getElem?_modify_ne _ _ (Ne.symm hji))

/-- the places that are set hold what they held before -/
theorem total_setAll {is : List ℕ} {c : α} (h : ∀ i ∈ is, ∀ b, t[i]? = some b → f i b = f i c) :
    total f (setAll c is t) = total f t := by
  induction is generalizing t with
  | nil => rfl
  | cons i is ih =>
    have hrest : ∀ j ∈ is, ∀ b, (t.modify i fun _ => c)[j]? = some b → f j b = f j c := by
      intro j hj b hb
      rcases of_getElem?_set hb with ⟨_, rfl⟩ | ⟨_, htb⟩
      · rfl
      · exact h j (List.mem_cons_of_mem i hj) b htb
    have hset : total f (t.modify i fun _ => c) = total f t := by
      cases hb : t[i]? with
      | none => rw [List.modify_eq_self (List.getElem?_eq_none_iff.1 hb)]
      | some b =>
        have hm := total_modify (f := f) (fun _ => c) hb
        rw [h i List.mem_cons_self b hb] at hm
        exact add_right_cancel hm
    exact (ih hrest).trans hset

theorem mem_total : x ∈ total f t ↔ ∃ i a, t[i]? = some a ∧ x ∈ f i a := by
  induction t generalizing f with
  | nil => simp
  | cons b t ih =>
    rw [total_cons, Multiset.mem_add, ih]
    constructor
    · intro h
      rcases h with h | ⟨i, a, h1, h2⟩
      · exact ⟨0, b, rfl, h⟩
      · exact ⟨i + 1, a, h1, h2⟩
    · intro ⟨i, a, h1, h2⟩
      cases i with
      | zero =>
        obtain rfl : b = a := by simpa using h1
        exact .inl h2
      | succ i => exact .inr ⟨i, a, by simpa using h1, h2⟩

theorem nodup_total (hf : ∀ i a, (f i a).Nodup) (hne : ∀ i j a b x, x ∈ f i a → x ∈ f j b → i = j) :
    (total f t).Nodup := by
  induction t generalizing f with
  | nil => simp
  | cons b t ih =>
    rw [total_cons, Multiset.nodup_add]
    refine ⟨hf 0 b, ih (fun i a => hf (i + 1) a) ?_, ?_⟩
    · intro i j a b x hi hj
      exact Nat.succ.inj (hne (i + 1) (j + 1) a b x hi hj)
    · rw [Multiset.disjoint_left]
      intro x h0 hx
      obtain ⟨i, a, -, hi⟩ := mem_total.1 hx
      exact absurd (hne 0 (i + 1) b a x h0 hi) (Nat.succ_ne_zero i).symm

theorem total_unique (h : (total f t).Nodup) (ha : t[i]? = some a) (hb : t[j]? = some b) (hxa : x ∈ f i a)
    (hxb : x ∈ f j b) : i = j := by
  induction t generalizing i j f with
  | nil => simp at ha
  | cons c t ih =>
    rw [total_cons, Multiset.nodup_add, Multiset.disjoint_left] at h
    obtain ⟨-, ht, hdis⟩ := h
    cases i with
    | zero =>
      obtain rfl : c = a := by simpa using ha
      cases j with
      | zero => rfl
      | succ j => exact absurd (mem_total.2 ⟨j, b, by simpa using hb, hxb⟩) (hdis hxa)
    | succ i =>
      cases j with
      | zero =>
        obtain rfl : c = b := by simpa using hb
        exact absurd (mem_total.2 ⟨i, a, by simpa using ha, hxa⟩) (hdis hxb)
      | succ j => exact congrArg (· + 1) (ih ht (by simpa using ha) (by simpa using hb) hxa hxb)

end MCoroRpc.Table
