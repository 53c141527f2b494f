/-
What one turn of decode does, read off the bytes.

`Passes b i` and `FrameAt b i j n` say what the scan finds at position `i`: nothing, or a frame of declared length `n`
that ends at `j`. `Frame₁` is the first frame of the buffer.

Main results, for both ways of checking a read:
- `decodeTurn_returns`: decode returns exactly if the scan passes over every position between the indices.
- `decodeTurn_turns`: it goes round exactly if there is a first frame that can be skipped and read.
- `decodeTurn_refines`: a turn that keeps to the readable bytes is a turn of the machine.
-/
import MCoroRpc.Coder.TinyPB

namespace MCoroRpc.TinyPB

open CInt TcpBuffer Result

/-- the length declared by a frame that starts at `i` -/
def lengthAt (b : TcpBuffer) (i : ℤ) : ℤ := ofNet (b.bytes (i + 1) 4)

/-- the scan goes on behind `i` -/
structure Passes (mode : Mode) (b : TcpBuffer) (i : ℤ) : Prop where
  inside : Inside mode b i 1
  next : IsInt (i + 1)
  length : b.bytes i 1 = [PB_START] → i + 1 < b.writeIndex →
    Inside mode b (i + 1) 4 ∧ IsInt (i + lengthAt b i) ∧ IsInt (i + lengthAt b i - 1)
  last : b.bytes i 1 = [PB_START] → i + 1 < b.writeIndex → i + lengthAt b i - 1 ≤ b.writeIndex →
    Inside mode b (i + lengthAt b i - 1) 1 ∧ b.bytes (i + lengthAt b i - 1) 1 ≠ [PB_END]

/-- the scan stops at `i`, with a frame that ends at `j` -/
structure FrameAt (mode : Mode) (b : TcpBuffer) (i j n : ℤ) : Prop where
  inside : Inside mode b i 1
  start : b.bytes i 1 = [PB_START]
  next : IsInt (i + 1) ∧ i + 1 < b.writeIndex
  length : Inside mode b (i + 1) 4 ∧ lengthAt b i = n
  ints : IsInt (i + n) ∧ IsInt (i + n - 1)
  last : j = i + n - 1
  before : j ≤ b.writeIndex
  insideEnd : Inside mode b j 1
  stop : b.bytes j 1 = [PB_END]

section
variable {mode : Mode} {b b' : TcpBuffer} {i j n : ℤ}

/-- the reads and the sums of `probe`, in their order -/
theorem probe_eq : probe mode b i =
    if Inside mode b i 1 then
      if b.bytes i 1 = [PB_START] then
        if IsInt (i + 1) then
          if i + 1 < b.writeIndex then
            if Inside mode b (i + 1) 4 then
              if IsInt (i + lengthAt b i) then
                if IsInt (i + lengthAt b i - 1) then
                  if b.writeIndex < i + lengthAt b i - 1 then .ok none
                  else if Inside mode b (i + lengthAt b i - 1) 1 then
                    if b.bytes (i + lengthAt b i - 1) 1 = [PB_END] then
                      .ok (some (i + lengthAt b i - 1, lengthAt b i))
                    else .ok none
                  else .error .outOfBounds
                else .error .overflow
              else .error .overflow
            else .error .outOfBounds
          else .ok none
        else .error .overflow
      else .ok none
    else .error .outOfBounds := by
  simp only [probe, load_one, loadInt_eq, addInt, ite_bind, pure_ok, sub_eq_add_neg, lengthAt]

/-- a test of `probe` that fails ends it without a frame -/
theorem ite_none_eq_none {p : Prop} [Decidable p] {x : Except Fault (Option (ℤ × ℤ))} :
    (if p then x else .ok none) = .ok none ↔ (p → x = .ok none) := by
  split_ifs with h
  · exact ⟨fun hx _ => hx, fun hx => hx h⟩
  · exact iff_of_true rfl fun hp => absurd hp h

theorem ite_none_eq_some {p : Prop} [Decidable p] {x : Except Fault (Option (ℤ × ℤ))} {f : ℤ × ℤ} :
    (if p then x else .ok none) = .ok (some f) ↔ p ∧ x = .ok (some f) := by
  split_ifs with h
  · exact (and_iff_right h).symm
  · exact iff_of_false (by nofun) fun hp => h hp.1

theorem passes_iff : Passes mode b i ↔ probe mode b i = .ok none ∧ IsInt (i + 1) := by
  rw [probe_eq]
  -- the one test that goes on if it fails
  simp only [← ite_not (b.writeIndex < i + lengthAt b i - 1), not_lt]
  simp only [ite_error_eq_ok, ite_none_eq_none, Except.ok.injEq, reduceCtorEq, imp_false]
  constructor
  · intro ⟨hinside, hnext, hlength, hlast⟩
    refine ⟨⟨hinside, fun hstart => ⟨hnext, fun hbefore => ?_⟩⟩, hnext⟩
    obtain ⟨h4, hint, hint'⟩ := hlength hstart hbefore
    exact ⟨h4, hint, hint', hlast hstart hbefore⟩
  · intro ⟨⟨hinside, hprobe⟩, hnext⟩
    refine ⟨hinside, hnext, fun hstart hbefore => ?_, fun hstart hbefore => ?_⟩
    · obtain ⟨h4, hint, hint', -⟩ := (hprobe hstart).2 hbefore
      exact ⟨h4, hint, hint'⟩
    · obtain ⟨-, -, -, hlast⟩ := (hprobe hstart).2 hbefore
      exact hlast

theorem frameAt_iff : FrameAt mode b i j n ↔ probe mode b i = .ok (some (j, n)) := by
  rw [probe_eq]
  simp only [← ite_not (b.writeIndex < i + lengthAt b i - 1), not_lt]
  simp only [ite_error_eq_ok, ite_none_eq_some, Except.ok.injEq, Option.some.injEq, Prod.mk.injEq]
  constructor
  · rintro ⟨hinside, hstart, ⟨hnext, hbefore⟩, ⟨h4, rfl⟩, ⟨hint, hint'⟩, rfl, hle, hend, hstop⟩
    exact ⟨hinside, hstart, hnext, hbefore, h4, hint, hint', hle, hend, hstop, rfl, rfl⟩
  · rintro ⟨hinside, hstart, hnext, hbefore, h4, hint, hint', hle, hend, hstop, rfl, rfl⟩
    exact ⟨hinside, hstart, ⟨hnext, hbefore⟩, ⟨h4, rfl⟩, ⟨hint, hint'⟩, rfl, hle, hend, hstop⟩

/-! ## The scan -/

/-- the scan passes over the positions from `i` on, up to `i'` -/
def PassesTo (mode : Mode) (b : TcpBuffer) (i i' : ℤ) : Prop := ∀ k, i ≤ k → k < i' → Passes mode b k

theorem scan_none (m : ℕ) : scan mode b m i = .ok none ↔ PassesTo mode b i (i + m) := by
  induction m generalizing i with
  | zero =>
    simp only [scan, true_iff]
    intro k h1 h2
    simp at h2; omega
  | succ m ih =>
    have hsplit : PassesTo mode b i (i + (m + 1 : ℕ)) ↔ Passes mode b i ∧ PassesTo mode b (i + 1) (i + 1 + m) := by
      constructor
      · intro h
        exact ⟨h i le_rfl (by push_cast; omega), fun k h1 h2 => h k (by omega) (by push_cast; omega)⟩
      · intro ⟨h1, h2⟩ k hk hk'
        push_cast at hk'
        rcases eq_or_lt_of_le hk with rfl | hlt
        · exact h1
        · exact h2 k (by omega) (by omega)
    rw [hsplit, ← ih, passes_iff]
    cases hp : probe mode b i with
    | error e => simp only [scan, hp, error_bind, reduceCtorEq, false_and]
    | ok o =>
      cases o with
      | some jn => simp only [scan, hp, ok_bind, pure_ok, Except.ok.injEq, reduceCtorEq, false_and]
      | none =>
        by_cases hi : IsInt (i + 1)
        · simp only [scan, hp, ok_bind, addInt_ok hi, hi, true_and, and_self]
        · simp only [scan, hp, ok_bind, addInt, hi, if_false, error_bind, reduceCtorEq, and_false, false_and]

/-- the first frame from `i₀` on starts at `i` -/
structure FirstFrom (mode : Mode) (b : TcpBuffer) (i₀ i j n : ℤ) : Prop where
  from_le : i₀ ≤ i
  passes : PassesTo mode b i₀ i
  frame : FrameAt mode b i j n

/-- the first frame is here, or behind a position that the scan passes over -/
theorem FirstFrom.here_or_later {k : ℤ} (h : FirstFrom mode b i k j n) :
    k = i ∧ FrameAt mode b i j n ∨ Passes mode b i ∧ FirstFrom mode b (i + 1) k j n := by
  obtain ⟨hle, hpasses, hframe⟩ := h
  rcases eq_or_lt_of_le hle with rfl | hlt
  · exact .inl ⟨rfl, hframe⟩
  · exact .inr ⟨hpasses i le_rfl hlt, by omega, fun k' hk hk' => hpasses k' (by omega) hk', hframe⟩

theorem FirstFrom.later {k : ℤ} (hp : Passes mode b i) (h : FirstFrom mode b (i + 1) k j n) :
    FirstFrom mode b i k j n := by
  obtain ⟨hle, hpasses, hframe⟩ := h
  refine ⟨by omega, ?_, hframe⟩
  intro k' hk hk'
  rcases eq_or_lt_of_le hk with rfl | hlt
  · exact hp
  · exact hpasses k' (by omega) hk'

theorem scan_some (m : ℕ) {k : ℤ} : scan mode b m i = .ok (some (k, j, n)) ↔ k < i + m ∧ FirstFrom mode b i k j n := by
  induction m generalizing i with
  | zero =>
    simp only [scan, Except.ok.injEq, reduceCtorEq, false_iff]
    intro ⟨h1, h2⟩
    have := h2.from_le
    simp at h1; omega
  | succ m ih =>
    cases hp : probe mode b i with
    | error e =>
      simp only [scan, hp, error_bind, reduceCtorEq, false_iff]
      intro ⟨_, h⟩
      rcases h.here_or_later with ⟨-, hf⟩ | ⟨hpass, -⟩
      · cases hp.symm.trans (frameAt_iff.1 hf)
      · cases hp.symm.trans (passes_iff.1 hpass).1
    | ok o =>
      cases o with
      | some jn =>
        obtain ⟨j', n'⟩ := jn
        simp only [scan, hp, ok_bind, pure_ok, Except.ok.injEq, Option.some.injEq, Prod.mk.injEq]
        constructor
        · rintro ⟨rfl, rfl, rfl⟩
          exact ⟨by push_cast; omega, le_rfl, fun k h1 h2 => by omega, frameAt_iff.2 hp⟩
        · intro ⟨_, h⟩
          rcases h.here_or_later with ⟨rfl, hf⟩ | ⟨hpass, -⟩
          · simpa using hp.symm.trans (frameAt_iff.1 hf)
          · cases hp.symm.trans (passes_iff.1 hpass).1
      | none =>
        by_cases hi : IsInt (i + 1)
        · simp only [scan, hp, ok_bind, addInt_ok hi, ih]
          constructor
          · intro ⟨h1, h⟩
            exact ⟨by push_cast; omega, h.later (passes_iff.2 ⟨hp, hi⟩)⟩
          · intro ⟨h1, h⟩
            push_cast at h1
            rcases h.here_or_later with ⟨-, hf⟩ | ⟨-, hlater⟩
            · cases hp.symm.trans (frameAt_iff.1 hf)
            · exact ⟨by omega, hlater⟩
        · simp only [scan, hp, ok_bind, addInt, hi, if_false, error_bind, reduceCtorEq, false_iff]
          intro ⟨_, h⟩
          rcases h.here_or_later with ⟨-, hf⟩ | ⟨hpass, -⟩
          · cases hp.symm.trans (frameAt_iff.1 hf)
          · exact hi hpass.next

end

/-! ## The turn -/

/-- the first frame of the buffer -/
def First (mode : Mode) (b : TcpBuffer) (i j n : ℤ) : Prop :=
  i < b.writeIndex ∧ FirstFrom mode b (toInt b.readIndex) i j n

/-- no frame in the buffer -/
def Quiet (mode : Mode) (b : TcpBuffer) : Prop := PassesTo mode b (toInt b.readIndex) b.writeIndex

section
variable {mode : Mode} {b b' : TcpBuffer} {i j n : ℤ} {out out' : List TinyPBProtocol}

theorem scan_quiet : scan mode b (b.writeIndex - toInt b.readIndex).toNat (toInt b.readIndex) = .ok none ↔
    Quiet mode b := by
  rw [scan_none, Quiet]
  by_cases h : toInt b.readIndex ≤ b.writeIndex
  · rw [show toInt b.readIndex + ((b.writeIndex - toInt b.readIndex).toNat : ℤ) = b.writeIndex by omega]
  · constructor <;> intro _ k h1 h2 <;> omega

theorem scan_first : scan mode b (b.writeIndex - toInt b.readIndex).toNat (toInt b.readIndex) = .ok (some (i, j, n)) ↔
    First mode b i j n := by
  rw [scan_some, First]
  constructor
  · intro ⟨h1, h2⟩
    have := h2.from_le
    exact ⟨by omega, h2⟩
  · intro ⟨h1, h2⟩
    have := h2.from_le
    exact ⟨by omega, h2⟩

theorem First.unique {i' j' n' : ℤ} (h : First mode b i j n) (h' : First mode b i' j' n') : i = i' ∧ j = j' ∧ n = n' := by
  have e := (scan_first.2 h).symm.trans (scan_first.2 h')
  simpa using e

theorem Quiet.not_first (h : Quiet mode b) : ¬ First mode b i j n := by
  intro hf
  have e := (scan_quiet.2 h).symm.trans (scan_first.2 hf)
  simp at e

/-- decode returns if there is no frame -/
theorem decodeTurn_returns {r : List TinyPBProtocol × TcpBuffer} :
    decodeTurn mode (out, b) = .ok (.inr r) ↔ Quiet mode b ∧ r = (out, b) := by
  rw [← scan_quiet]
  simp only [decodeTurn, bind_eq_ok]
  constructor
  · intro ⟨o, h1, h2⟩
    cases o with
    | none => simp only [pure_ok, Except.ok.injEq, Sum.inr.injEq] at h2; exact ⟨h1, h2.symm⟩
    | some f =>
      obtain ⟨i, j, n⟩ := f
      simp only [bind_eq_ok, pure_ok, Except.ok.injEq, reduceCtorEq, and_false, exists_false] at h2
  · rintro ⟨h1, rfl⟩
    exact ⟨none, h1, by rw [pure_ok]⟩

theorem decode_quiet (h : Quiet .storage b) {fuel : ℕ} (hfuel : 1 ≤ fuel) :
    decode fuel out b = some (.ok (out, b)) :=
  Loop.run_mono (n := 1) (by simp only [Loop.run, decodeTurn_returns.2 ⟨h, rfl⟩]) hfuel

/-- a decode that has returned has left no frame behind -/
theorem quiet_of_decodes (h : Decodes out b (.ok (out', b'))) : Quiet .storage b' := by
  obtain ⟨⟨out1, b1⟩, -, -, hno, hend⟩ := Loop.ends_inv (I := fun _ => True) (fun _ _ _ _ => trivial) h trivial
  obtain ⟨hquiet, hret⟩ := decodeTurn_returns.1 (Loop.returns_of_ends hno hend)
  rw [(Prod.mk.inj hret).2]
  exact hquiet

theorem Quiet.not_turn (h : Quiet mode b) {t : List TinyPBProtocol × TcpBuffer} :
    ¬ Loop.Turn (decodeTurn mode) (out, b) t := by
  intro ht
  have e := (decodeTurn_returns.2 ⟨h, rfl⟩).symm.trans ht
  simp at e

/-- decode goes round with the first frame: it is skipped, from the read index on, and read -/
theorem decodeTurn_turns : Loop.Turn (decodeTurn mode) (out, b) (out', b') ↔
    ∃ i j n o, First mode b i j n ∧ b.moveReadIndex n = .ok b' ∧ parse mode b i j n = .ok o ∧
      out' = out ++ o.toList := by
  have hlast : ∀ i j n, First mode b i j n → j - i + 1 = n := fun i j n h => by have := h.2.frame.last; omega
  simp only [Loop.Turn, decodeTurn, bind_eq_ok]
  constructor
  · intro ⟨o, h1, h2⟩
    cases o with
    | none => simp only [pure_ok, Except.ok.injEq, reduceCtorEq] at h2
    | some f =>
      obtain ⟨i, j, n⟩ := f
      have hf := scan_first.1 h1
      simp only [bind_eq_ok, pure_ok, Except.ok.injEq, Sum.inl.injEq, Prod.mk.injEq, hlast i j n hf] at h2
      obtain ⟨b1, h3, o, h4, h5, rfl⟩ := h2
      exact ⟨i, j, n, o, hf, h3, h4, h5.symm⟩
  · rintro ⟨i, j, n, o, h1, h2, h3, rfl⟩
    refine ⟨some (i, j, n), scan_first.2 h1, ?_⟩
    simp only [hlast i j n h1, h2, ok_bind, h3, pure_ok]

/-- a refused move is made again and again -/
theorem not_ends_of_refused (h : Loop.Turn (decodeTurn mode) (out, b) (out', b)) :
    ¬ ∃ r, Loop.Ends (decodeTurn mode) (out, b) r := by
  obtain ⟨i, j, n, o, hf, hmove, hparse, -⟩ := decodeTurn_turns.1 h
  refine Loop.not_ends_of_closed (I := fun s => s.2 = b) ?_ rfl
  rintro ⟨out1, b1⟩ rfl
  exact ⟨(out1 ++ o.toList, b1), decodeTurn_turns.2 ⟨i, j, n, o, hf, hmove, hparse, rfl⟩, rfl⟩

/-- bytes without a START, the last one apart, are no frame -/
theorem quiet_of_not_mem {pre c post : List UInt8} (h : Layout b pre c post) (hw : b.writeIndex < 2147483648)
    (hc : PB_START ∉ c.dropLast) : Quiet mode b := by
  have hr := h.read
  have hwr := h.write
  have hs := h.size_eq
  have hstart : toInt b.readIndex = b.readIndex := toInt_of_isInt ⟨by omega, by omega⟩
  intro k hk hkw
  rw [hstart] at hk
  have hnone : b.bytes k 1 = [PB_START] → ¬ k + 1 < b.writeIndex := by
    intro hb hlt
    obtain ⟨m, rfl⟩ : ∃ m : ℕ, k = pre.length + m := ⟨(k - pre.length).toNat, by omega⟩
    have hm : m < c.dropLast.length := by rw [List.length_dropLast]; omega
    have hm' : m < c.length := by omega
    have hsplit : b.buffer = (pre ++ c.take m) ++ ([(c)[m]] ++ (c.drop (m + 1) ++ post)) := by
      have hd : c = c.take m ++ ([(c)[m]] ++ c.drop (m + 1)) := by
        rw [List.singleton_append, ← List.drop_eq_getElem_cons hm', List.take_append_drop]
      have hassoc : (pre ++ c.take m) ++ ([(c)[m]] ++ (c.drop (m + 1) ++ post)) =
          pre ++ ((c.take m ++ ([(c)[m]] ++ c.drop (m + 1))) ++ post) := by
        simp only [List.append_assoc]
      rw [h.buffer, hassoc, ← hd]
    have hbyte := Layout.bytes_of_append hsplit (i := pre.length + m) (n := 1) (by simp; omega) rfl
    rw [hb, List.cons.injEq] at hbyte
    exact hc (List.mem_of_getElem? (List.getElem?_eq_some_iff.2 ⟨hm, by rw [List.getElem_dropLast, ← hbyte.1]⟩))
  have hin : Inside mode b k 1 := by
    cases mode <;> simp only [Inside] <;> omega
  exact ⟨hin, ⟨by omega, by omega⟩, fun hb hlt => absurd hlt (hnone hb), fun hb hlt => absurd hlt (hnone hb)⟩

end

end MCoroRpc.TinyPB
