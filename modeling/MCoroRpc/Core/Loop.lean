/-
Loops without a condition: `while (true)` around a body that stops the program, leaves the loop or goes round again.

- `run n`: at most `n` turns; `none` when they are used up.
- `Ends s r`: from `s` the loop ends with `r` after finitely many turns.
- `Turn`, `Reach`: one turn, and the heads of turns that can be reached.
- `ends_of_measure`: a loop whose turns all lower a measure ends.
- `not_ends_of_closed`: a loop that can always go round inside a set of states never ends.
-/
import Mathlib.Tactic

namespace MCoroRpc.Loop

variable {σ ε ρ : Type*} {body : σ → Except ε (σ ⊕ ρ)}

/-- at most `n` turns of the loop -/
def run (body : σ → Except ε (σ ⊕ ρ)) : ℕ → σ → Option (Except ε ρ)
  | 0, _ => none
  | n + 1, s =>
    match body s with
    | .error e => some (.error e)
    | .ok (.inr r) => some (.ok r)
    | .ok (.inl s') => run body n s'

/-- from `s` the loop ends with `r` -/
def Ends (body : σ → Except ε (σ ⊕ ρ)) (s : σ) (r : Except ε ρ) : Prop := ∃ n, run body n s = some r

/-- the body goes round from `s` to `s'` -/
def Turn (body : σ → Except ε (σ ⊕ ρ)) (s s' : σ) : Prop := body s = .ok (.inl s')

/-- `s'` is the head of a turn of the loop entered at `s` -/
def Reach (body : σ → Except ε (σ ⊕ ρ)) : σ → σ → Prop := Relation.ReflTransGen (Turn body)

theorem Turn.unique {s t u : σ} (h : Turn body s t) (h' : Turn body s u) : t = u := by
  have e : (Except.ok (.inl t) : Except ε (σ ⊕ ρ)) = .ok (.inl u) := h.symm.trans h'
  exact Sum.inl.inj (Except.ok.inj e)

theorem Reach.refl (s : σ) : Reach body s s := Relation.ReflTransGen.refl

theorem Reach.head {s t u : σ} (h : Turn body s t) (ht : Reach body t u) : Reach body s u :=
  Relation.ReflTransGen.head h ht

theorem Reach.snoc {s t u : σ} (h : Reach body s t) (ht : Turn body t u) : Reach body s u :=
  Relation.ReflTransGen.tail h ht

theorem Reach.trans {s t u : σ} (h : Reach body s t) (ht : Reach body t u) : Reach body s u :=
  Relation.ReflTransGen.trans h ht

theorem Reach.cases_head {s t : σ} (h : Reach body s t) : t = s ∨ ∃ u, Turn body s u ∧ Reach body u t := by
  rcases Relation.ReflTransGen.cases_head h with rfl | h
  · exact .inl rfl
  · exact .inr h

theorem run_turn {s s' : σ} (h : Turn body s s') (n : ℕ) : run body (n + 1) s = run body n s' := by
  simp only [run, show body s = .ok (.inl s') from h]

theorem run_mono {n m : ℕ} {s : σ} {r : Except ε ρ} (h : run body n s = some r) (hm : n ≤ m) :
    run body m s = some r := by
  induction n generalizing s m with
  | zero => simp [run] at h
  | succ n ih =>
    obtain ⟨m, rfl⟩ : ∃ k, m = k + 1 := ⟨m - 1, by omega⟩
    simp only [run] at h ⊢
    split at h
    · exact h
    · exact h
    · exact ih h (by omega)

theorem Ends.unique {s : σ} {r r' : Except ε ρ} (h : Ends body s r) (h' : Ends body s r') : r = r' := by
  obtain ⟨n, hn⟩ := h
  obtain ⟨m, hm⟩ := h'
  have e1 := run_mono hn (Nat.le_max_left n m)
  have e2 := run_mono hm (Nat.le_max_right n m)
  rw [e1] at e2
  exact Option.some.inj e2

theorem ends_of_error {s : σ} {e : ε} (h : body s = .error e) : Ends body s (.error e) := ⟨1, by simp [run, h]⟩

theorem ends_of_return {s : σ} {r : ρ} (h : body s = .ok (.inr r)) : Ends body s (.ok r) := ⟨1, by simp [run, h]⟩

theorem ends_turn {s s' : σ} (h : Turn body s s') {r : Except ε ρ} : Ends body s r ↔ Ends body s' r := by
  constructor
  · intro ⟨n, hn⟩
    cases n with
    | zero => simp [run] at hn
    | succ n => exact ⟨n, by rwa [run_turn h] at hn⟩
  · intro ⟨n, hn⟩
    exact ⟨n + 1, by rwa [run_turn h]⟩

theorem ends_reach {s t : σ} (h : Reach body s t) {r : Except ε ρ} : Ends body s r ↔ Ends body t r := by
  induction h with
  | refl => exact Iff.rfl
  | tail _ hbc ih => exact ih.trans (ends_turn hbc)

/-- a body that does not go round ends the loop at once -/
theorem ends_of_no_turn {s : σ} (h : ∀ s', ¬ Turn body s s') : ∃ r, Ends body s r := by
  cases hb : body s with
  | error e => exact ⟨_, ends_of_error hb⟩
  | ok o =>
    cases o with
    | inl s' => exact absurd hb (h s')
    | inr r => exact ⟨_, ends_of_return hb⟩

/-- a loop that ends without going round returns from its body -/
theorem returns_of_ends {s : σ} {r : ρ} (h : ∀ s', ¬ Turn body s s') (he : Ends body s (.ok r)) :
    body s = .ok (.inr r) := by
  cases hb : body s with
  | error e => exact absurd (he.unique (ends_of_error hb)) (by simp)
  | ok o =>
    cases o with
    | inl s' => exact absurd hb (h s')
    | inr r' => rw [Except.ok.inj (he.unique (ends_of_return hb))]

theorem error_of_ends {s : σ} {e : ε} (h : ∀ s', ¬ Turn body s s') (he : Ends body s (.error e)) :
    body s = .error e := by
  cases hb : body s with
  | error e' => rw [Except.error.inj (he.unique (ends_of_error hb))]
  | ok o =>
    cases o with
    | inl s' => exact absurd hb (h s')
    | inr r => exact absurd (he.unique (ends_of_return hb)) (by simp)

/-- **Measure rule**: a loop ends if every turn that can be reached lowers `μ` -/
theorem ends_of_measure (μ : σ → ℕ) {s : σ} (h : ∀ t u, Reach body s t → Turn body t u → μ u < μ t) :
    ∃ r, Ends body s r := by
  induction hn : μ s using Nat.strong_induction_on generalizing s with
  | _ n ih =>
    by_cases ht : ∃ t, Turn body s t
    · obtain ⟨t, ht⟩ := ht
      have hlt := h s t (Reach.refl s) ht
      obtain ⟨r, hr⟩ := ih (μ t) (by omega) (fun u v hu hv => h u v (Reach.head ht hu) hv) rfl
      exact ⟨r, (ends_turn ht).2 hr⟩
    · exact ends_of_no_turn (fun t h' => ht ⟨t, h'⟩)

/-- **Divergence rule**: a loop that can go round for ever inside `I` never ends -/
theorem not_ends_of_closed {I : σ → Prop} (h : ∀ s, I s → ∃ t, Turn body s t ∧ I t) {s : σ} (hs : I s) :
    ¬ ∃ r, Ends body s r := by
  intro ⟨r, n, hn⟩
  induction n generalizing s with
  | zero => simp [run] at hn
  | succ n ih =>
    obtain ⟨t, ht, hI⟩ := h s hs
    rw [run_turn ht] at hn
    exact ih hI hn

/-- a turn that changes nothing is taken for ever -/
theorem not_ends_of_fixed {s : σ} (h : Turn body s s) : ¬ ∃ r, Ends body s r :=
  not_ends_of_closed (I := fun t => t = s) (fun t ht => ⟨s, by rw [ht]; exact h, rfl⟩) rfl

/-- what every turn preserves holds at every head of a turn -/
theorem inv_reach {I : σ → Prop} (h : ∀ t u, I t → Turn body t u → I u) {s t : σ} (hr : Reach body s t)
    (hs : I s) : I t := by
  induction hr with
  | refl => exact hs
  | tail _ hbc ih => exact h _ _ ih hbc

/-- a loop whose body computes what another one does ends as the other does -/
theorem ends_refines {body' : σ → Except ε (σ ⊕ ρ)} {I : σ → Prop} (hinv : ∀ t u, I t → Turn body t u → I u)
    (href : ∀ t, I t → ∀ o, body t = .ok o → body' t = .ok o) {s : σ} {r : ρ} (hs : I s)
    (he : Ends body s (.ok r)) : Ends body' s (.ok r) := by
  obtain ⟨n, hn⟩ := he
  induction n generalizing s with
  | zero => simp [run] at hn
  | succ n ih =>
    by_cases ht : ∃ t, Turn body s t
    · obtain ⟨t, ht⟩ := ht
      exact (ends_turn (href s hs _ ht)).2 (ih (hinv s t hs ht) (by rwa [run_turn ht] at hn))
    · exact ends_of_return (href s hs _ (returns_of_ends (fun t h' => ht ⟨t, h'⟩) ⟨n + 1, hn⟩))

/-- what every turn preserves holds when the loop is left -/
theorem ends_inv {I : σ → Prop} (h : ∀ t u, I t → Turn body t u → I u) {s : σ} {r : Except ε ρ}
    (he : Ends body s r) (hs : I s) : ∃ t, I t ∧ Reach body s t ∧ (∀ u, ¬ Turn body t u) ∧ Ends body t r := by
  obtain ⟨n, hn⟩ := he
  induction n generalizing s with
  | zero => simp [run] at hn
  | succ n ih =>
    by_cases ht : ∃ t, Turn body s t
    · obtain ⟨t, ht⟩ := ht
      obtain ⟨u, h1, h2, h3, h4⟩ := ih (h s t hs ht) (by rwa [run_turn ht] at hn)
      exact ⟨u, h1, Reach.head ht h2, h3, h4⟩
    · exact ⟨s, hs, Reach.refl s, fun t h' => ht ⟨t, h'⟩, n + 1, hn⟩

end MCoroRpc.Loop
