/-
Texts with delimiters: `find`, `std::getline` on a string stream, and the loop that reads all of it.

- `idxOf?_append_cons`: the first delimiter.
- `getline`: one line, up to the delimiter; a stream at its end gives none, and neither does a delimiter that ends it.
- `getlines`: `while (std::getline(ss, line, delim))`.
- `filter_getlines_intercalate`: what has been joined with the delimiter is read back, less the empty pieces.
-/
import Mathlib.Data.List.TakeWhile
import Mathlib.Tactic

namespace MCoroRpc.Getline

variable {α : Type*} [DecidableEq α] {delim : α} {line rest text : List α}

/-- the first delimiter is the one behind a line without any -/
theorem idxOf?_append_cons (hline : delim ∉ line) : (line ++ delim :: rest).idxOf? delim = some line.length := by
  induction line with
  | nil => rw [List.nil_append, List.idxOf?_cons, beq_self_eq_true, if_pos rfl, List.length_nil]
  | cons c line ih =>
    have hc : (c == delim) = false := beq_eq_false_iff_ne.2 fun he => hline (he ▸ List.mem_cons_self)
    rw [List.cons_append, List.idxOf?_cons, hc, ih fun h => hline (List.mem_cons_of_mem c h)]
    rfl

/-- the characters in front of the next delimiter, and what is behind it -/
def getline (delim : α) : List α → Option (List α × List α)
  | [] => none
  | c :: text => some ((c :: text).takeWhile (· ≠ delim), ((c :: text).dropWhile (· ≠ delim)).drop 1)

theorem getline_length_lt (h : getline delim text = some (line, rest)) : rest.length < text.length := by
  cases text with
  | nil => cases h
  | cons c text =>
    simp only [getline, Option.some.injEq, Prod.mk.injEq] at h
    obtain ⟨-, rfl⟩ := h
    have hlen := (List.dropWhile_suffix (l := c :: text) (· ≠ delim)).length_le
    simp only [List.length_drop, List.length_cons] at hlen ⊢
    omega

/-- the lines, one after another -/
def getlines (delim : α) (text : List α) : List (List α) :=
  match _h : getline delim text with
  | none => []
  | some (line, rest) => line :: getlines delim rest
termination_by text.length
decreasing_by exact getline_length_lt _h

theorem getlines_nil : getlines delim [] = [] := by
  rw [getlines]
  rfl

theorem getlines_of_getline (h : getline delim text = some (line, rest)) :
    getlines delim text = line :: getlines delim rest := by
  rw [getlines]
  split
  · next hnone => rw [h] at hnone; cases hnone
  · next line' rest' hsome =>
    rw [h] at hsome
    cases hsome
    rfl

/-- a line that a delimiter ends -/
theorem getlines_append (hline : delim ∉ line) : getlines delim (line ++ delim :: rest) = line :: getlines delim rest := by
  apply getlines_of_getline
  have hne : ∀ c ∈ line, (decide (c ≠ delim)) = true := fun c hc => decide_eq_true fun he => hline (he ▸ hc)
  have hcut : getline delim (line ++ delim :: rest) = some ((line ++ delim :: rest).takeWhile (· ≠ delim),
      ((line ++ delim :: rest).dropWhile (· ≠ delim)).drop 1) := by
    cases line <;> rfl
  rw [hcut, List.takeWhile_append_of_pos hne, List.dropWhile_append_of_pos hne]
  simp

/-- the last line, which the end of the stream ends -/
theorem getlines_of_notMem (hline : delim ∉ line) (hne : line ≠ []) : getlines delim line = [line] := by
  have hne' : ∀ c ∈ line, (decide (c ≠ delim)) = true := fun c hc => decide_eq_true fun he => hline (he ▸ hc)
  have hcut : getline delim line = some (line, []) := by
    cases line with
    | nil => exact absurd rfl hne
    | cons c line =>
      simp only [getline, List.takeWhile_eq_self_iff.2 hne', List.dropWhile_eq_nil_iff.2 hne',
        List.drop_nil]
  rw [getlines_of_getline hcut, getlines_nil]

/-- **Join and split**: the pieces come back in their order and number, except for the empty ones -/
theorem filter_getlines_intercalate {pieces : List (List α)} (h : ∀ piece ∈ pieces, delim ∉ piece) :
    (getlines delim ([delim].intercalate pieces)).filter (· ≠ []) = pieces.filter (· ≠ []) := by
  induction pieces with
  | nil => rw [List.intercalate_nil, getlines_nil]
  | cons piece pieces ih =>
    have hpiece : delim ∉ piece := h piece List.mem_cons_self
    cases pieces with
    | nil =>
      rw [List.intercalate_singleton]
      by_cases hne : piece = []
      · rw [hne, getlines_nil]
        rfl
      · rw [getlines_of_notMem hpiece hne]
    | cons next pieces =>
      have ih := ih fun p hp => h p (List.mem_cons_of_mem piece hp)
      rw [List.intercalate_cons_cons, List.append_assoc, List.singleton_append, getlines_append hpiece,
        List.filter_cons, List.filter_cons, ih]

end MCoroRpc.Getline
