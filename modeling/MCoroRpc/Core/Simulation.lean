/-
Components and their abstract models: a call either fails or gives a new state and an answer.

- `run`: a sequence of calls, with the answers in order.
- `Legal`: each call of the sequence meets the caller's obligation in the state it is made in.
- `views`: what the calls mean to the abstract model; a call may read its argument from the state it is made in.
- `run_refines`: if every legal call is answered as the abstract model answers it, so is every legal sequence.
-/
import MCoroRpc.Core.Result

namespace MCoroRpc.Simulation

open Result

variable {σ τ ι κ ο ε : Type} {call : σ → ι → Except ε (σ × ο)} {legal : σ → ι → Prop}

def run (call : σ → ι → Except ε (σ × ο)) : σ → List ι → Except ε (σ × List ο)
  | s, [] => .ok (s, [])
  | s, i :: is => do
    let (s', o) ← call s i
    let (t, os) ← run call s' is
    return (t, o :: os)

/-- every call of the sequence that is reached meets `legal` -/
def Legal (call : σ → ι → Except ε (σ × ο)) (legal : σ → ι → Prop) : σ → List ι → Prop
  | _, [] => True
  | s, i :: is => legal s i ∧
    match call s i with
    | .ok (s', _) => Legal call legal s' is
    | .error _ => True

instance [∀ s i, Decidable (legal s i)] (s : σ) (is : List ι) : Decidable (Legal call legal s is) := by
  induction is generalizing s with
  | nil => exact isTrue trivial
  | cons i is ih =>
    unfold Legal
    cases call s i with
    | ok p => exact instDecidableAnd
    | error => exact instDecidableAnd

/-- the sequence as the abstract model sees it -/
def views (call : σ → ι → Except ε (σ × ο)) (view : σ → ι → κ) : σ → List ι → List κ
  | _, [] => []
  | s, i :: is =>
    match call s i with
    | .ok (s', _) => view s i :: views call view s' is
    | .error _ => []

/-- a sequence of calls of the abstract model, which never fails -/
def specRun (spec : τ → κ → τ × ο) : τ → List κ → τ × List ο
  | t, [] => (t, [])
  | t, k :: ks => ((specRun spec (spec t k).1 ks).1, (spec t k).2 :: (specRun spec (spec t k).1 ks).2)

theorem run_cons_ok {s s' t : σ} {i : ι} {is : List ι} {o : ο} {os : List ο} (h : call s i = .ok (s', o))
    (ht : run call s' is = .ok (t, os)) : run call s (i :: is) = .ok (t, o :: os) := by
  simp only [run, h, ok_bind, ht, pure_ok]

/-- **Forward simulation** -/
theorem run_refines {spec : τ → κ → τ × ο} {view : σ → ι → κ} {abs : σ → τ} {I : σ → Prop}
    (hcall : ∀ s i, I s → legal s i →
      ∃ s' o, call s i = .ok (s', o) ∧ I s' ∧ spec (abs s) (view s i) = (abs s', o))
    {s : σ} (hs : I s) {is : List ι} (hl : Legal call legal s is) :
    ∃ t os, run call s is = .ok (t, os) ∧ I t ∧ specRun spec (abs s) (views call view s is) = (abs t, os) := by
  induction is generalizing s with
  | nil => exact ⟨s, [], rfl, hs, rfl⟩
  | cons i is ih =>
    obtain ⟨hi, his⟩ := hl
    obtain ⟨s', o, h1, h2, h3⟩ := hcall s i hs hi
    rw [h1] at his
    obtain ⟨t, os, h4, h5, h6⟩ := ih h2 his
    refine ⟨t, o :: os, run_cons_ok h1 h4, h5, ?_⟩
    simp only [views, h1, specRun, h3, h6]

end MCoroRpc.Simulation
