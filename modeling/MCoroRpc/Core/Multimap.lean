/-
Finite maps read key by key, and multimaps: maps to lists of values.

- `lookup_insert_ite`, `lookup_erase_ite`: what a change makes of each lookup.
- `keep`: the keys that meet a condition, and their values.
- `Holds m k x`: the value stands under the key. `Tight`: no key is without a value.
- `put`, `take`: a value is added under a key; a value is removed, and its key with the last one.
-/
import Mathlib.Data.Finmap
import Mathlib.Tactic

namespace MCoroRpc.Multimap

variable {α β : Type*} [DecidableEq α]

/-! ## Lookups -/

section Lookup

variable {m : Finmap fun _ : α => β} {a b : α} {x : β}

theorem lookup_insert_ite : (m.insert a x).lookup b = if b = a then some x else m.lookup b := by
  split_ifs with h
  · rw [h, Finmap.lookup_insert]
  · exact Finmap.lookup_insert_of_ne m h

theorem lookup_erase_ite : (m.erase a).lookup b = if b = a then none else m.lookup b := by
  split_ifs with h
  · rw [h, Finmap.lookup_erase]
  · exact Finmap.lookup_erase_ne h

theorem lookup_empty_ne : (∅ : Finmap fun _ : α => β).lookup a ≠ some x := by
  rw [Finmap.lookup_empty]
  simp

theorem eq_empty_iff : m = ∅ ↔ ∀ a, m.lookup a = none := by
  refine ⟨?_, fun h => Finmap.ext_lookup fun a => by rw [h a, Finmap.lookup_empty]⟩
  intro h a
  rw [h, Finmap.lookup_empty]

end Lookup

/-! ## A part of the keys -/

section Keep

variable {m : Finmap fun _ : α => β} {a : α}

def keep (p : α → Prop) [DecidablePred p] (m : Finmap fun _ : α => β) : Finmap fun _ : α => β where
  entries := m.entries.filter fun e => p e.1
  nodupKeys := by
    obtain ⟨entries, h⟩ := m
    induction entries using Quotient.inductionOn with
    | h l => exact List.NodupKeys.sublist List.filter_sublist h

theorem lookup_keep (p : α → Prop) [DecidablePred p] : (keep p m).lookup a = if p a then m.lookup a else none := by
  ext x
  rw [Finmap.lookup_eq_some_iff]
  simp only [keep, Multiset.mem_filter, ← Finmap.lookup_eq_some_iff]
  split_ifs with hp <;> simp [hp]

def values (m : Finmap fun _ : α => β) : Multiset β := m.entries.map Sigma.snd

end Keep

/-! ## Values under keys -/

def Holds (m : Finmap fun _ : α => List β) (k : α) (x : β) : Prop := ∃ l, m.lookup k = some l ∧ x ∈ l

def Tight (m : Finmap fun _ : α => List β) : Prop := ∀ k, m.lookup k ≠ some []

variable {m : Finmap fun _ : α => List β} {k k' : α} {x y : β}

theorem not_holds_empty : ¬ Holds (∅ : Finmap fun _ : α => List β) k x := by
  intro ⟨l, hl, _⟩
  exact lookup_empty_ne hl

theorem empty_tight : Tight (∅ : Finmap fun _ : α => List β) := by
  intro k hk
  exact lookup_empty_ne hk

theorem holds_erase : Holds (m.erase k) k' y ↔ Holds m k' y ∧ k' ≠ k := by
  unfold Holds
  rw [lookup_erase_ite]
  split_ifs with h <;> simp [h]

theorem erase_tight (h : Tight m) : Tight (m.erase k) := by
  intro k' hk'
  rw [lookup_erase_ite] at hk'
  split_ifs at hk'
  exact h k' hk'

/-- a multimap without values is empty -/
theorem Tight.eq_empty (h : Tight m) (hnone : ∀ k x, ¬ Holds m k x) : m = ∅ := by
  rw [eq_empty_iff]
  intro k
  cases hl : m.lookup k with
  | none => rfl
  | some l =>
    cases l with
    | nil => exact absurd hl (h k)
    | cons x l => exact absurd ⟨x :: l, hl, List.mem_cons_self⟩ (hnone k x)

variable [DecidableEq β]

def put (k : α) (x : β) (m : Finmap fun _ : α => List β) : Finmap fun _ : α => List β :=
  m.insert k (((m.lookup k).getD []).insert x)

def take (k : α) (x : β) (m : Finmap fun _ : α => List β) : Finmap fun _ : α => List β :=
  match m.lookup k with
  | none => m
  | some l => if l.filter (· ≠ x) = [] then m.erase k else m.insert k (l.filter (· ≠ x))

theorem holds_put : Holds (put k x m) k' y ↔ Holds m k' y ∨ k' = k ∧ y = x := by
  unfold Holds put
  rw [lookup_insert_ite]
  split_ifs with h
  · subst h
    cases hl : m.lookup k' with
    | none => simp
    | some l => simp [or_comm]
  · simp [h]

theorem put_tight (h : Tight m) : Tight (put k x m) := by
  intro k' hk'
  unfold put at hk'
  rw [lookup_insert_ite] at hk'
  split_ifs at hk' with he
  · have hmem : x ∈ ((m.lookup k).getD []).insert x := List.mem_insert_self
    rw [Option.some.inj hk'] at hmem
    cases hmem
  · exact h k' hk'

theorem lookup_take_self {l : List β} (h : m.lookup k = some l) :
    (take k x m).lookup k = if l.filter (· ≠ x) = [] then none else some (l.filter (· ≠ x)) := by
  simp only [take, h]
  split_ifs
  · exact Finmap.lookup_erase k m
  · exact Finmap.lookup_insert m

theorem lookup_take_ne (h : k' ≠ k) : (take k x m).lookup k' = m.lookup k' := by
  unfold take
  cases m.lookup k with
  | none => rfl
  | some l =>
    dsimp only
    split_ifs
    · exact Finmap.lookup_erase_ne h
    · exact Finmap.lookup_insert_of_ne m h

theorem take_absent (h : m.lookup k = none) : take k x m = m := by
  simp only [take, h]

theorem holds_take : Holds (take k x m) k' y ↔ Holds m k' y ∧ ¬ (k' = k ∧ y = x) := by
  by_cases hk : k' = k
  swap
  · unfold Holds
    rw [lookup_take_ne hk]
    simp [hk]
  subst hk
  cases hl : m.lookup k' with
  | none => simp [take_absent hl, Holds, hl]
  | some l =>
    unfold Holds
    rw [lookup_take_self hl, hl]
    have hmem : y ∈ l.filter (· ≠ x) ↔ y ∈ l ∧ ¬ y = x := by
      simp
    split_ifs with hnil
    · rw [hnil] at hmem
      simpa using hmem
    · simp

theorem take_tight (h : Tight m) : Tight (take k x m) := by
  intro k' hk'
  by_cases hk : k' = k
  swap
  · rw [lookup_take_ne hk] at hk'
    exact h k' hk'
  subst hk
  cases hl : m.lookup k' with
  | none =>
    rw [take_absent hl] at hk'
    exact h k' hk'
  | some l =>
    rw [lookup_take_self hl] at hk'
    split_ifs at hk' with hnil
    exact hnil (Option.some.inj hk')

end MCoroRpc.Multimap
