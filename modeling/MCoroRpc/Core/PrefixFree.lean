/-
Encodings that show where they end.

`PrefixFree P R enc`: whatever stands behind the encoding of a value of `P`, it can be split off, and it determines the
value up to `R`.
- `prefixFree_of_length`: encodings of one length.
- `PrefixFree.field`: a length, then a string of that length.
- `PrefixFree.flatten`: a list of values is determined by the encodings put behind each other.
-/
import Mathlib.Tactic

namespace MCoroRpc

variable {α β : Type*} {P : α → Prop} {R : α → α → Prop} {enc : α → List β}

def PrefixFree (P : α → Prop) (R : α → α → Prop) (enc : α → List β) : Prop :=
  ∀ a b, P a → P b → ∀ x y, enc a ++ x = enc b ++ y → R a b ∧ x = y

/-- encodings of one length -/
theorem prefixFree_of_length {n : ℕ} (hlen : ∀ a, (enc a).length = n)
    (hinj : ∀ a b, P a → P b → enc a = enc b → R a b) : PrefixFree P R enc := by
  intro a b ha hb x y h
  obtain ⟨h1, h2⟩ := List.append_inj h ((hlen a).trans (hlen b).symm)
  exact ⟨hinj a b ha hb h1, h2⟩

/-- a string behind its length -/
theorem PrefixFree.field {P : ℕ → Prop} {len : ℕ → List β} (h : PrefixFree P Eq len) :
    PrefixFree (fun s : List β => P s.length) Eq (fun s => len s.length ++ s) := by
  intro s t hs ht x y he
  rw [List.append_assoc, List.append_assoc] at he
  obtain ⟨hlength, hrest⟩ := h _ _ hs ht _ _ he
  exact List.append_inj hrest hlength

/-- **Lists**: encodings that are not empty, one behind the other -/
theorem PrefixFree.flatten (h : PrefixFree P R enc) (hne : ∀ a, P a → enc a ≠ []) {as bs : List α}
    (has : ∀ a ∈ as, P a) (hbs : ∀ b ∈ bs, P b) (he : (as.map enc).flatten = (bs.map enc).flatten) :
    List.Forall₂ R as bs := by
  induction as generalizing bs with
  | nil =>
    cases bs with
    | nil => exact .nil
    | cons b bs =>
      have hnil := (List.append_eq_nil_iff.1 he.symm).1
      exact absurd hnil (hne b (hbs b List.mem_cons_self))
  | cons a as ih =>
    cases bs with
    | nil =>
      have hnil := (List.append_eq_nil_iff.1 he).1
      exact absurd hnil (hne a (has a List.mem_cons_self))
    | cons b bs =>
      obtain ⟨hR, hrest⟩ := h a b (has a List.mem_cons_self) (hbs b List.mem_cons_self) _ _ he
      exact .cons hR (ih (fun a' h' => has a' (List.mem_cons_of_mem a h'))
        (fun b' h' => hbs b' (List.mem_cons_of_mem b h')) hrest)

end MCoroRpc
