/-
When the `while (true)` of decode ends.

The number of bytes that a turn takes is the length which the frame declares, and nothing makes it positive. A frame of
length zero is found again by every later turn; one of negative length moves the read index back, or is refused and
found again.

Main results:
- `decode_ends`: decode ends if every frame that it comes to declares a positive length.
- `decode_ends_iff`: for reads that stay inside the readable bytes and lengths that do not move the read index back,
  only if.
- `decode_hangs`: six bytes on which it does not end.
-/
import MCoroRpc.Coder.Bounds

namespace MCoroRpc.TinyPB

open CInt TcpBuffer Result

/-- the first frame, if there is one, moves the read index forward -/
def Advances (b : TcpBuffer) : Prop := ∀ i j n, First .storage b i j n → 0 < n ∧ b.readIndex + n ≤ b.size

/-- a first frame of negative length is refused -/
def NeverBack (b : TcpBuffer) : Prop := ∀ i j n, First .storage b i j n → n < 0 → b.readIndex + n < 0

/-- `P` holds of every buffer that decode comes to -/
def Throughout (P : TcpBuffer → Prop) (out : List TinyPBProtocol) (b : TcpBuffer) : Prop :=
  ∀ t, Loop.Reach (decodeTurn .storage) (out, b) t → P t.2

/-- decode returns or stops -/
def Terminates (out : List TinyPBProtocol) (b : TcpBuffer) : Prop := ∃ r, Decodes out b r

section
variable {mode : Mode} {b b' : TcpBuffer} {i j n d : ℤ} {out out' : List TinyPBProtocol}

theorem throughout_iff {P : TcpBuffer → Prop} : Throughout P out b ↔
    P b ∧ ∀ t, Loop.Turn (decodeTurn .storage) (out, b) t → Throughout P t.1 t.2 := by
  constructor
  · intro h
    exact ⟨h _ (Loop.Reach.refl _), fun t ht u hu => h u (Loop.Reach.head ht hu)⟩
  · intro ⟨hb, h⟩ t ht
    rcases ht.cases_head with rfl | ⟨u, hu, hut⟩
    · exact hb
    · exact h u hu t hut

/-- decode ends: a turn that moves the read index forward lowers the number of readable bytes -/
theorem decode_ends (hb : b.WF) (h : Throughout Advances out b) : Terminates out b := by
  have hrange : ∀ t, Loop.Reach (decodeTurn .storage) (out, b) t → t.2.Ranged := by
    refine fun t ht => Loop.inv_reach (I := fun s => s.2.Ranged) (?_) ht hb.ranged
    intro u v hu huv
    obtain ⟨i, j, n, o, -, hmove, -⟩ := decodeTurn_turns.1 huv
    exact (moveReadIndex_ranged hu hmove).1
  apply Loop.ends_of_measure (fun t => (t.2.size + t.2.readAble).toNat)
  intro t u ht htu
  obtain ⟨i, j, n, o, hf, hmove, -⟩ := decodeTurn_turns.1 htu
  obtain ⟨hpos, hle⟩ := h t ht i j n hf
  have hr := hrange t ht
  obtain ⟨hr', hsize⟩ := moveReadIndex_ranged hr hmove
  have h1 := hr.read
  have h2 := hr'.read
  have h3 := hr'.write
  rcases moveReadIndex_readAble hmove with ⟨-, hrefused⟩ | hlt
  · omega
  · simp only [readAble] at *
    omega

/-! ## Turns that take nothing -/

/-- a move that is refused, or that takes nothing from a buffer that needs no compaction, changes nothing -/
theorem moveReadIndex_stays (h : b.readIndex + n < 0 ∨ n = 0 ∧ 0 ≤ b.readIndex ∧ b.readIndex < b.size / 3) :
    b.moveReadIndex n = .ok b := by
  simp only [moveReadIndex]
  rcases h with h | ⟨rfl, h0, h⟩
  · rw [if_pos (.inl h)]
  · rw [if_neg (by omega), add_zero]
    exact adjustBuffer_of_lt h

/-- `b'` holds the content of `b`, moved `d` positions to the front -/
structure Shifted (b b' : TcpBuffer) (d : ℤ) : Prop where
  nonneg : 0 ≤ d ∧ d ≤ b.readIndex
  read : b'.readIndex = b.readIndex - d
  write : b'.writeIndex = b.writeIndex - d
  bytes : ∀ k n, 0 ≤ n → b.readIndex ≤ k → k + n ≤ b.writeIndex → b'.bytes (k - d) n = b.bytes k n

theorem Shifted.inside (h : Shifted b b' d) : Inside .readable b' (i - d) n ↔ Inside .readable b i n := by
  have h1 := h.read
  have h2 := h.write
  simp only [Inside]
  omega

theorem Shifted.byte (h : Shifted b b' d) (hi : Inside .readable b i 1) : b'.bytes (i - d) 1 = b.bytes i 1 :=
  h.bytes i 1 (by omega) hi.1 hi.2

theorem Shifted.lengthAt (h : Shifted b b' d) (hi : Inside .readable b (i + 1) 4) :
    lengthAt b' (i - d) = lengthAt b i := by
  have hk : i - d + 1 = i + 1 - d := by ring
  rw [TinyPB.lengthAt, TinyPB.lengthAt, hk, h.bytes _ 4 (by omega) hi.1 hi.2]

theorem passes_shift (h : Shifted b b' d) (hp : Passes .readable b i) : Passes .readable b' (i - d) := by
  have hw := h.write
  have hd := h.nonneg
  have hi := hp.inside
  have hb := h.byte hi
  have hnext : i - d + 1 < b'.writeIndex ↔ i + 1 < b.writeIndex := by omega
  have hlen : b.bytes i 1 = [PB_START] → i + 1 < b.writeIndex → lengthAt b' (i - d) = lengthAt b i :=
    fun hs hlt => h.lengthAt (hp.length hs hlt).1
  -- the last byte of a frame is behind the readable bytes, or one of them
  have hlast : b.bytes i 1 = [PB_START] → i + 1 < b.writeIndex →
      b.writeIndex < i + lengthAt b i - 1 ∨ b.readIndex ≤ i + lengthAt b i - 1 := by
    intro hs hlt
    by_cases hle : i + lengthAt b i - 1 ≤ b.writeIndex
    · exact .inr (hp.last hs hlt hle).1.1
    · exact .inl (not_le.1 hle)
  refine ⟨h.inside.2 hi, ?_, ?_, ?_⟩
  · have h1 := hp.next
    have h2 := hi.1
    simp only [IsInt] at *
    omega
  · intro hs hlt
    rw [hb] at hs
    have h1 := hlast hs (hnext.1 hlt)
    obtain ⟨h2, h3, h4⟩ := hp.length hs (hnext.1 hlt)
    have h5 := hi.1
    have h6 := hi.2
    rw [hlen hs (hnext.1 hlt)]
    refine ⟨by rw [show i - d + 1 = i + 1 - d by ring]; exact h.inside.2 h2, ?_⟩
    simp only [IsInt] at *
    omega
  · intro hs hlt hle
    rw [hb] at hs
    rw [hlen hs (hnext.1 hlt)] at hle ⊢
    obtain ⟨h1, h2⟩ := hp.last hs (hnext.1 hlt) (by omega)
    rw [show i - d + TinyPB.lengthAt b i - 1 = i + TinyPB.lengthAt b i - 1 - d by ring]
    exact ⟨h.inside.2 h1, by rw [h.byte h1]; exact h2⟩

theorem frameAt_shift (h : Shifted b b' d) (hf : FrameAt .readable b i j n) : FrameAt .readable b' (i - d) (j - d) n := by
  have hw := h.write
  have hd := h.nonneg
  have h1 := hf.inside
  have h2 := hf.insideEnd
  have h3 := hf.last
  have h4 := hf.next
  have h5 := hf.ints
  refine ⟨h.inside.2 h1, by rw [h.byte h1]; exact hf.start, ?_, ?_, ?_, by omega, by have := hf.before; omega,
    h.inside.2 h2, by rw [h.byte h2]; exact hf.stop⟩
  · simp only [IsInt, Inside] at *
    omega
  · rw [show i - d + 1 = i + 1 - d by ring]
    exact ⟨h.inside.2 hf.length.1, by rw [h.lengthAt hf.length.1]; exact hf.length.2⟩
  · simp only [IsInt, Inside] at *
    omega

/-- a checked scan that meets anything starts on the read index itself -/
theorem First.toInt_read (hb : b.WF) (hf : First .readable b i j n) : toInt b.readIndex = b.readIndex := by
  obtain ⟨-, hle, hp, hfr⟩ := hf
  have hr := hb.read
  have hin : b.readIndex ≤ toInt b.readIndex := by
    rcases eq_or_lt_of_le hle with heq | hlt
    · rw [heq]; exact hfr.inside.1
    · exact (hp _ le_rfl hlt).inside.1
  have h1 := isInt_toInt b.readIndex
  exact toInt_of_isInt ⟨by omega, by have := h1.2; omega⟩

theorem first_shift (hb : b.WF) (h : Shifted b b' d) (hf : First .readable b i j n) :
    First .readable b' (i - d) (j - d) n := by
  have hstart := hf.toInt_read hb
  obtain ⟨hlt, hle, hp, hfr⟩ := hf
  rw [hstart] at hle hp
  have hd := h.nonneg
  have hi := hfr.inside
  have hnext := hfr.next.1
  have hstart' : toInt b'.readIndex = b.readIndex - d := by
    rw [h.read]
    apply toInt_of_isInt
    simp only [IsInt, Inside] at *
    omega
  refine ⟨by have := h.write; omega, by omega, ?_, frameAt_shift h hfr⟩
  intro k h1 h2
  have := passes_shift h (hp (k + d) (by omega) (by omega))
  rwa [add_sub_cancel_right] at this

theorem shifted_of_layout {pre c post post' : List UInt8} (h : Layout b pre c post) (h' : Layout b' [] c post') :
    Shifted b b' b.readIndex := by
  have h1 := h.read
  have h2 := h.write
  refine ⟨⟨by omega, le_rfl⟩, by rw [h'.read]; simp, by rw [h'.write, h2, h1]; simp, ?_⟩
  intro k n h0 hk hn
  obtain ⟨m, rfl⟩ : ∃ m : ℕ, k = pre.length + m := ⟨(k - pre.length).toNat, by omega⟩
  have e1 : (pre.length + m : ℤ).toNat = pre.length + m := by omega
  have e2 : (pre.length + m - b.readIndex : ℤ).toNat = m := by omega
  have e3 : n.toNat ≤ (c.drop m).length := by rw [List.length_drop]; omega
  have e4 : m ≤ c.length := by omega
  simp only [bytes, e1, e2, h.buffer, h'.buffer, List.nil_append]
  rw [← List.drop_drop, List.drop_left, List.drop_append_of_le_length e4, List.drop_append_of_le_length e4,
    List.take_append_of_le_length e3, List.take_append_of_le_length e3]

/-- a frame that ends before its fields start is skipped without a read -/
theorem turn_short (out : List TinyPBProtocol) (hb : b.WF) (hf : First .readable b i j n) (h5 : IsInt (i + 5))
    (hn : n ≤ 0) (hmove : b.moveReadIndex n = .ok b') : ∃ out', Loop.Turn (decodeTurn .storage) (out, b) (out', b') := by
  obtain ⟨hi, hj, -⟩ := hf.bounds hb
  have hlast := hf.2.frame.last
  have hfit : FieldsFit b i j n := ⟨h5, fun hlt => by omega⟩
  obtain ⟨o, hp⟩ := (parse_succeeds hb.read hj hi hf.2.frame.ints.1).2 hfit
  exact ⟨_, decodeTurn_refines hb _ (decodeTurn_turns.2 ⟨i, j, n, o, hf, hmove, hp, rfl⟩)⟩

/-- a frame of negative length that is refused is found again -/
theorem not_terminates_of_refused (hb : b.WF) (hf : First .readable b i j n) (h5 : IsInt (i + 5)) (hn : n < 0)
    (hrefused : b.readIndex + n < 0) : ¬ Terminates out b := by
  have hmove : b.moveReadIndex n = .ok b := moveReadIndex_stays (.inl hrefused)
  obtain ⟨out', hturn⟩ := turn_short out hb hf h5 hn.le hmove
  exact not_ends_of_refused hturn

/-- a frame of length zero is found again, behind a compaction too -/
theorem not_terminates_of_zero (hb : b.WF) (hf : First .readable b i j 0) (h5 : IsInt (i + 5)) : ¬ Terminates out b := by
  have key : ∀ {b : TcpBuffer} {i j : ℤ} {out}, b.WF → First .readable b i j 0 → IsInt (i + 5) →
      b.readIndex < b.size / 3 → ¬ Terminates out b := by
    intro b i j out hb hf h5 hlt
    have hmove : b.moveReadIndex 0 = .ok b := moveReadIndex_stays (.inr ⟨rfl, hb.read, hlt⟩)
    obtain ⟨out', hturn⟩ := turn_short out hb hf h5 le_rfl hmove
    exact not_ends_of_refused hturn
  by_cases hlt : b.readIndex < b.size / 3
  · exact key hb hf h5 hlt
  · -- the content moves to the front once, and the frame with it
    have hlay := hb.layout
    obtain ⟨b', post', hadj, hlay', hsize⟩ := adjustBuffer_of_le hlay (not_lt.1 hlt)
    have hr := hb.read
    have hsz := hb.write
    have hord := hb.order
    have hmove : b.moveReadIndex 0 = .ok b' := by
      simp only [moveReadIndex, add_zero]
      rw [if_neg (by omega)]
      exact hadj
    have hshift := shifted_of_layout hlay hlay'
    have hf' := first_shift hb hshift hf
    have h5' : IsInt (i - b.readIndex + 5) := by
      have hin := hf'.2.frame.inside
      have h1 := h5.2
      have h2 := hlay'.read
      simp only [IsInt, Inside, List.length_nil] at *
      omega
    have hread : b'.readIndex = 0 := by simpa using hlay'.read
    have hlt' : b'.readIndex < b'.size / 3 := by
      have h1 := hf'.2.frame.inside.1
      have h2 := hf'.2.frame.length.1.2
      have h3 := hlay'.wf.write
      omega
    obtain ⟨out', hturn⟩ := turn_short out hb hf h5 le_rfl hmove
    rintro ⟨r, hr⟩
    exact key hlay'.wf hf' h5' hlt' ⟨r, (Loop.ends_turn hturn).1 hr⟩

/-! ## When decode ends -/

/-- without a fault the checked loop and the machine's go through the same buffers -/
theorem reach_checked (hb : b.WF) (hin : StaysInside out b) {t : List TinyPBProtocol × TcpBuffer}
    (ht : Loop.Reach (decodeTurn .storage) (out, b) t) : t.2.WF ∧ Loop.Reach (decodeTurn .readable) (out, b) t := by
  induction ht with
  | refl => exact ⟨hb, Loop.Reach.refl _⟩
  | @tail t u _ htu ih =>
    obtain ⟨hwf, hreach⟩ := ih
    obtain ⟨o, ho⟩ := (decodeTurn_succeeds t.1 hwf).2 ((decode_in_bounds hb).1 hin t hreach)
    have hturn : Loop.Turn (decodeTurn .readable) t u := by
      rw [Loop.Turn, ho, ← decodeTurn_refines hwf _ ho]
      exact htu
    exact ⟨turn_wf hwf hturn, hreach.snoc hturn⟩

theorem first_checked (hb : b.WF) (hin : InBounds b) (hf : First .storage b i j n) :
    First .readable b i j n ∧ IsInt (i + 5) := by
  rcases hin with hq | ⟨i', j', n', hf', hfit⟩
  · have := scan_refines hb _ _ (scan_quiet.2 hq)
    rw [scan_first.2 hf] at this
    cases this
  · have := scan_refines hb _ _ (scan_first.2 hf')
    rw [scan_first.2 hf] at this
    simp only [Except.ok.injEq, Option.some.injEq, Prod.mk.injEq] at this
    obtain ⟨rfl, rfl, rfl⟩ := this
    exact ⟨hf', hfit.1⟩

theorem advances_of_ends (hb : b.WF) (hin : StaysInside out b) (hback : Throughout NeverBack out b)
    (ht : Terminates out b) : Throughout Advances out b := by
  intro t hreach i j n hf
  obtain ⟨hwf, hchecked⟩ := reach_checked hb hin hreach
  obtain ⟨hf', h5⟩ := first_checked hwf ((decode_in_bounds hb).1 hin t hchecked) hf
  have hend : Terminates t.1 t.2 := by
    obtain ⟨r, hr⟩ := ht
    exact ⟨r, (Loop.ends_reach hreach).1 hr⟩
  have hle := (hf'.bounds hwf).2.2
  have hw := hwf.write
  refine ⟨?_, by simp only [readAble] at hle; omega⟩
  rcases lt_trichotomy n 0 with hneg | rfl | hpos
  · exact absurd hend (not_terminates_of_refused hwf hf' h5 hneg (hback t hreach i j n hf hneg))
  · exact absurd hend (not_terminates_of_zero hwf hf' h5)
  · exact hpos

/-- **Termination**: decode ends if every frame that it comes to moves the read index forward; with reads inside the
readable bytes and no move backwards, only if -/
theorem decode_ends_iff (hb : b.WF) :
    (Throughout Advances out b → Terminates out b) ∧
      (StaysInside out b → Throughout NeverBack out b → Terminates out b → Throughout Advances out b) :=
  ⟨decode_ends hb, advances_of_ends hb⟩

end

/-- a frame too short for its fields -/
theorem decode_ends_short : Terminates [] ⟨[2, 0, 0, 0, 6, 3], 0, 6⟩ := by
  have hf : First .storage ⟨[2, 0, 0, 0, 6, 3], 0, 6⟩ 0 5 6 := scan_first.1 (by decide +kernel)
  have hturn : Loop.Turn (decodeTurn .storage) ([], ⟨[2, 0, 0, 0, 6, 3], 0, 6⟩) ([], ⟨[2, 0, 0, 0, 6, 3], 0, 0⟩) := by
    unfold Loop.Turn
    decide +kernel
  have hq : Quiet .storage ⟨[2, 0, 0, 0, 6, 3], 0, 0⟩ := scan_quiet.1 (by decide +kernel)
  refine (decode_ends_iff ⟨by decide, by decide, by decide⟩).1 (throughout_iff.2 ⟨?_, ?_⟩)
  · intro i j n h
    obtain ⟨-, -, rfl⟩ := h.unique hf
    decide
  · intro t ht
    rw [ht.unique hturn]
    exact throughout_iff.2 ⟨fun i j n h => absurd h hq.not_first, fun u hu => absurd hu hq.not_turn⟩

/-- START behind an END, with a length of zero: all reads are inside, and no turn takes anything -/
theorem decode_hangs : WF ⟨[3, 2, 0, 0, 0, 0], 0, 6⟩ ∧ StaysInside [] ⟨[3, 2, 0, 0, 0, 0], 0, 6⟩ ∧
    ¬ Terminates [] ⟨[3, 2, 0, 0, 0, 0], 0, 6⟩ := by
  have hturn : ∀ mode, Loop.Turn (decodeTurn mode) ([], ⟨[3, 2, 0, 0, 0, 0], 0, 6⟩) ([], ⟨[3, 2, 0, 0, 0, 0], 0, 6⟩) := by
    intro mode
    unfold Loop.Turn
    cases mode <;> decide +kernel
  exact ⟨⟨by decide, by decide, by decide⟩, fun e he => Loop.not_ends_of_fixed (hturn .readable) ⟨_, he⟩,
    Loop.not_ends_of_fixed (hturn .storage)⟩

end MCoroRpc.TinyPB
