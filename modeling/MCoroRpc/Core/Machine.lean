/-
Labelled machines: a total step function on states and labels, run over a list of labels.

- `run`: the state after a list of labels.
- `Along P`: every step of the run starts in a state and takes a label related by `P`.
- `inv_run`, `inv_run_of_step`: what each step of a run preserves, the run preserves.
- `cost`, `cost_add_le`: what a run costs, paid by a potential.
- `Leads`: there is a run of legal steps to a state with a property.
- `along_iff_of_along`, `along_iff`: a property holds in every state of a run exactly if each step meets the condition
  that keeps it.
- `iterate_iff`: what the steps of an unlabelled machine bring about and preserve.
- `run_settles`, `inv_run_fuel`: runs of steps that need fuel, and the invariant rule for them.
-/
import Mathlib.Tactic

namespace MCoroRpc.Machine

variable {σ ℓ : Type*} {step : σ → ℓ → σ}

def run (step : σ → ℓ → σ) (s : σ) (ls : List ℓ) : σ := ls.foldl step s

@[simp] theorem run_nil (s : σ) : run step s [] = s := rfl

@[simp] theorem run_cons (s : σ) (l : ℓ) (ls : List ℓ) : run step s (l :: ls) = run step (step s l) ls := rfl

theorem run_append (s : σ) (ls ls' : List ℓ) : run step s (ls ++ ls') = run step (run step s ls) ls' := List.foldl_append

/-- every step of the run over `ls` starts in a state and takes a label related by `P` -/
def Along (step : σ → ℓ → σ) (P : σ → ℓ → Prop) : σ → List ℓ → Prop
  | _, [] => True
  | s, l :: ls => P s l ∧ Along step P (step s l) ls

@[simp] theorem along_nil (P : σ → ℓ → Prop) (s : σ) : Along step P s [] := trivial

@[simp] theorem along_cons (P : σ → ℓ → Prop) (s : σ) (l : ℓ) (ls : List ℓ) :
    Along step P s (l :: ls) ↔ P s l ∧ Along step P (step s l) ls := Iff.rfl

theorem along_append {P : σ → ℓ → Prop} {s : σ} {ls ls' : List ℓ} :
    Along step P s (ls ++ ls') ↔ Along step P s ls ∧ Along step P (run step s ls) ls' := by
  induction ls generalizing s with
  | nil => exact ⟨fun h => ⟨trivial, h⟩, And.right⟩
  | cons l ls ih => rw [List.cons_append, along_cons, along_cons, run_cons, ih, and_assoc]

/-- a condition on labels alone -/
theorem along_of_mem {L : ℓ → Prop} {ls : List ℓ} (h : ∀ l ∈ ls, L l) (s : σ) : Along step (fun _ l => L l) s ls := by
  induction ls generalizing s with
  | nil => trivial
  | cons l ls ih => exact ⟨h l List.mem_cons_self, ih (fun l' hl' => h l' (List.mem_cons_of_mem l hl')) _⟩

theorem forall_mem_of_along {L : ℓ → Prop} {s : σ} {ls : List ℓ} (h : Along step (fun _ l => L l) s ls) :
    ∀ l ∈ ls, L l := by
  induction ls generalizing s with
  | nil => nofun
  | cons l ls ih => exact List.forall_mem_cons.2 ⟨h.1, ih h.2⟩

theorem along_take {P : σ → ℓ → Prop} {s : σ} {ls : List ℓ} (h : Along step P s ls) (n : ℕ) :
    Along step P s (ls.take n) := by
  induction ls generalizing s n with
  | nil =>
    rw [List.take_nil]
    trivial
  | cons l ls ih =>
    cases n with
    | zero => trivial
    | succ n => exact ⟨h.1, ih h.2 n⟩

/-- **Invariant rule**: what each step of the run preserves, the run preserves -/
theorem inv_run {P : σ → ℓ → Prop} {I : σ → Prop} (hstep : ∀ s l, P s l → I s → I (step s l)) {s : σ}
    {ls : List ℓ} (ha : Along step P s ls) (hs : I s) : I (run step s ls) := by
  induction ls generalizing s with
  | nil => exact hs
  | cons l ls ih => exact ih ha.2 (hstep s l ha.1 hs)

/-- what every step preserves, every run preserves -/
theorem inv_run_of_step {I : σ → Prop} (hstep : ∀ s l, I s → I (step s l)) {s : σ} (hs : I s) (ls : List ℓ) :
    I (run step s ls) := by
  induction ls generalizing s with
  | nil => exact hs
  | cons l ls ih => exact ih (hstep s l hs)

/-- what the steps of a run cost together -/
def cost (step : σ → ℓ → σ) (c : σ → ℓ → ℕ) : σ → List ℓ → ℕ
  | _, [] => 0
  | s, l :: ls => c s l + cost step c (step s l) ls

/-- **Potentials**: if the fall of a potential pays for each step under an invariant, less what the step is given, it pays
for the run -/
theorem cost_add_le {P : σ → ℓ → Prop} {I : σ → Prop} {c : σ → ℓ → ℕ} {given : ℓ → ℕ} {Φ : σ → ℕ}
    (hstep : ∀ s l, P s l → I s → I (step s l) ∧ c s l + Φ (step s l) ≤ Φ s + given l) {s : σ} {ls : List ℓ}
    (ha : Along step P s ls) (hs : I s) : cost step c s ls + Φ (run step s ls) ≤ Φ s + (ls.map given).sum := by
  induction ls generalizing s with
  | nil => exact (Nat.zero_add _).le
  | cons l ls ih =>
    obtain ⟨hnext, hl⟩ := hstep s l ha.1 hs
    have hrest := ih ha.2 hnext
    rw [List.map_cons, List.sum_cons, run_cons]
    unfold cost
    omega

/-- under an invariant no step costs anything -/
theorem cost_eq_zero {P : σ → ℓ → Prop} {I : σ → Prop} {c : σ → ℓ → ℕ}
    (hstep : ∀ s l, P s l → I s → I (step s l) ∧ c s l = 0) {s : σ} {ls : List ℓ} (ha : Along step P s ls) (hs : I s) :
    cost step c s ls = 0 := by
  have hfree : ∀ s l, P s l → I s → I (step s l) ∧ c s l + 0 ≤ 0 + 0 := fun s l hl hs =>
    ⟨(hstep s l hl hs).1, (hstep s l hl hs).2.le⟩
  have hle : cost step c s ls + 0 ≤ 0 + (ls.map fun _ => 0).sum := cost_add_le (Φ := fun _ => 0) hfree ha hs
  simp only [List.map_const', List.sum_replicate, smul_eq_mul, mul_zero, add_zero] at hle
  exact Nat.le_zero.1 hle

/-- the places of a label in a list: the last one, and those in front of it -/
theorem exists_split_snoc {P : List ℓ → List ℓ → Prop} {a l : ℓ} {ls : List ℓ} :
    (∃ ls0 ls1, ls ++ [l] = ls0 ++ a :: ls1 ∧ P ls0 ls1) ↔
      (∃ ls0 ls1, ls = ls0 ++ a :: ls1 ∧ P ls0 (ls1 ++ [l])) ∨ l = a ∧ P ls [] := by
  constructor
  · intro ⟨ls0, ls1, heq, hp⟩
    rcases List.eq_nil_or_concat ls1 with rfl | ⟨ls1, l', rfl⟩
    · obtain ⟨rfl, hl⟩ := List.append_inj' heq rfl
      exact .inr ⟨List.singleton_injective hl, hp⟩
    · rw [List.concat_eq_append, ← List.cons_append, ← List.append_assoc] at heq
      obtain ⟨rfl, hl⟩ := List.append_inj' heq rfl
      obtain rfl : l = l' := List.singleton_injective hl
      exact .inl ⟨ls0, ls1, rfl, by rwa [List.concat_eq_append] at hp⟩
  · intro h
    rcases h with ⟨ls0, ls1, rfl, hp⟩ | ⟨rfl, hp⟩
    · exact ⟨ls0, ls1 ++ [l], by rw [List.append_assoc, List.cons_append], hp⟩
    · exact ⟨ls, [], rfl, hp⟩

/-- there is a run of legal steps to a state with the property -/
def Leads (step : σ → ℓ → σ) (L : σ → ℓ → Prop) (P : σ → Prop) (s : σ) : Prop :=
  ∃ ls, Along step L s ls ∧ P (run step s ls)

theorem Leads.here {L : σ → ℓ → Prop} {P : σ → Prop} {s : σ} (h : P s) : Leads step L P s := ⟨[], trivial, h⟩

theorem Leads.of_step {L : σ → ℓ → Prop} {P : σ → Prop} {s : σ} {l : ℓ} (hl : L s l) (h : Leads step L P (step s l)) :
    Leads step L P s := by
  obtain ⟨ls, hls, hp⟩ := h
  exact ⟨l :: ls, ⟨hl, hls⟩, hp⟩

theorem Leads.imp {L : σ → ℓ → Prop} {P P' : σ → Prop} (hP : ∀ s, P s → P' s) {s : σ} (h : Leads step L P s) :
    Leads step L P' s := by
  obtain ⟨ls, hls, hp⟩ := h
  exact ⟨ls, hls, hP _ hp⟩

theorem Leads.trans {L : σ → ℓ → Prop} {P Q : σ → Prop} {s : σ} (h : Leads step L P s)
    (hQ : ∀ t, P t → Leads step L Q t) : Leads step L Q s := by
  obtain ⟨ls, hls, hp⟩ := h
  induction ls generalizing s with
  | nil => exact hQ s hp
  | cons l ls ih => exact .of_step hls.1 (ih hls.2 hp)

/-- what a component comes to, the system comes to whose steps are those of the component -/
theorem Leads.map {σ' ℓ' : Type*} {step' : σ' → ℓ' → σ'} {L : σ → ℓ → Prop} {L' : σ' → ℓ' → Prop} {P : σ → Prop}
    {P' : σ' → Prop} (f : ℓ → ℓ') (g : σ → σ') (hstep : ∀ s l, step' (g s) (f l) = g (step s l))
    (hL : ∀ s l, L s l → L' (g s) (f l)) (hP : ∀ s, P s → P' (g s)) {s : σ} (h : Leads step L P s) :
    Leads step' L' P' (g s) := by
  obtain ⟨ls, hls, hp⟩ := h
  induction ls generalizing s with
  | nil => exact .here (hP s hp)
  | cons l ls ih => exact .of_step (hL s l hls.1) (hstep s l ▸ ih hls.2 hp)

/-- **Exact condition**: in a run whose steps are all legal and under the invariant `I`, steps that meet `C` keep it and a
step that does not breaks `P` -/
theorem along_iff_of_along {L : σ → ℓ → Prop} {I P : σ → Prop} {C : σ → ℓ → Prop} (hholds : ∀ s, I s → P s)
    (hkeep : ∀ s l, L s l → I s → C s l → I (step s l)) (hbreak : ∀ s l, L s l → I s → ¬ C s l → ¬ P (step s l)) {s : σ}
    (hs : I s) {ls : List ℓ} (hls : Along step L s ls) : (∀ n, P (run step s (ls.take n))) ↔ Along step C s ls := by
  induction ls generalizing s with
  | nil =>
    refine ⟨fun _ => trivial, ?_⟩
    intro _ n
    rw [List.take_nil]
    exact hholds s hs
  | cons l ls ih =>
    obtain ⟨hl, hls⟩ := hls
    constructor
    · intro hp
      have hc : C s l := by
        by_contra hc
        exact hbreak s l hl hs hc (hp 1)
      exact ⟨hc, (ih (hkeep s l hl hs hc) hls).1 fun n => hp (n + 1)⟩
    · intro ⟨hc, halong⟩ n
      cases n with
      | zero => exact hholds s hs
      | succ n => exact (ih (hkeep s l hl hs hc) hls).2 halong n

/-- **Exact condition**, for a legality of the labels alone -/
theorem along_iff {L : ℓ → Prop} {I P : σ → Prop} {C : σ → ℓ → Prop} (hholds : ∀ s, I s → P s)
    (hkeep : ∀ s l, L l → I s → C s l → I (step s l)) (hbreak : ∀ s l, L l → I s → ¬ C s l → ¬ P (step s l)) {s : σ}
    (hs : I s) {ls : List ℓ} (hls : ∀ l ∈ ls, L l) : (∀ n, P (run step s (ls.take n))) ↔ Along step C s ls :=
  along_iff_of_along (L := fun _ l => L l) hholds hkeep hbreak hs (along_of_mem hls s)

/-! ## Steps without a label -/

/-- what a step preserves and the `N`-th step brings about holds from that step on -/
theorem iterate_iff {f : σ → σ} {P : σ → Prop} (hP : ∀ s, P s → P (f s)) {s : σ} {N : ℕ} (hno : ¬ P (f^[N] s))
    (hyes : P (f^[N + 1] s)) (n : ℕ) : P (f^[n] s) ↔ N + 1 ≤ n := by
  have hmono : ∀ {n m : ℕ}, n ≤ m → P (f^[n] s) → P (f^[m] s) := by
    intro n m hnm hn
    obtain ⟨d, rfl⟩ := Nat.exists_eq_add_of_le hnm
    rw [Nat.add_comm, Function.iterate_add_apply]
    exact Function.Iterate.rec P hn hP d
  constructor
  · intro hn
    by_contra hlt
    exact hno (hmono (by omega) hn)
  · exact fun hle => hmono hle hyes

/-! ## Steps that need fuel -/

/-- steps whose outcome no longer changes once there is enough fuel: so does the outcome of a run -/
theorem run_settles {step : ℕ → σ → ℓ → σ} {P : σ → ℓ → Prop} {I : σ → Prop}
    (hstep : ∀ s l, P s l → I s → ∃ N s', I s' ∧ ∀ fuel, N ≤ fuel → step fuel s l = s') {s : σ} (hs : I s)
    (ls : List ℓ) :
    ∃ N s', ∀ fuel, N ≤ fuel → Along (step fuel) P s ls → I s' ∧ run (step fuel) s ls = s' := by
  induction ls generalizing s with
  | nil => exact ⟨0, s, fun fuel _ _ => ⟨hs, rfl⟩⟩
  | cons l ls ih =>
    by_cases hl : P s l
    · obtain ⟨N, s', hs', hnext⟩ := hstep s l hl hs
      obtain ⟨N', t, hrest⟩ := ih hs'
      refine ⟨max N N', t, ?_⟩
      intro fuel hfuel halong
      have hone := hnext fuel (le_trans (le_max_left N N') hfuel)
      rw [along_cons, hone] at halong
      rw [run_cons, hone]
      exact hrest fuel (le_trans (le_max_right N N') hfuel) halong.2
    · exact ⟨0, s, fun fuel _ halong => absurd halong.1 hl⟩

/-- **Invariant rule**, for such steps: there is enough fuel for the whole run -/
theorem inv_run_fuel {step : ℕ → σ → ℓ → σ} {P : σ → ℓ → Prop} {I : σ → Prop}
    (hstep : ∀ s l, P s l → I s → ∃ N s', I s' ∧ ∀ fuel, N ≤ fuel → step fuel s l = s') {s : σ} (hs : I s)
    (ls : List ℓ) : ∃ N, ∀ fuel, N ≤ fuel → Along (step fuel) P s ls → I (run (step fuel) s ls) := by
  obtain ⟨N, s', h⟩ := run_settles hstep hs ls
  refine ⟨N, ?_⟩
  intro fuel hfuel halong
  obtain ⟨hs', hrun⟩ := h fuel hfuel halong
  rwa [hrun]

end MCoroRpc.Machine
