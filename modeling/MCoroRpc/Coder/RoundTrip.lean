/-
Encode, then decode: messages within the codec's limits come back in order and equal in every field.

Positions are `int` in decode while the indices of the buffer are 64 bits wide, so that this holds up to the positions
that an `int` can hold:
- `round_trip`: encode and decode are inverse exactly if the buffer has to grow for the frames or all positions fit.
- `round_trip_fails`: a buffer whose indices stand at 2^31.
-/
import MCoroRpc.Coder.Frame

namespace MCoroRpc.TinyPB

open CInt TcpBuffer Result

/-! ## Encoding -/

section
variable {b : TcpBuffer} {pre c post : List UInt8} {m : TinyPBProtocol} {ms : List TinyPBProtocol}
  (out : List TinyPBProtocol)

theorem encoderTinyPB_eq (h : frameLen (withId m) < 2147483648) :
    encoderTinyPB m = .ok (frame (withId m), sent m) := by
  have hL : frameLen (withId m) = 26 + (withId m).msgId.length + (withId m).methodName.length +
    (withId m).errInfo.length + (withId m).pbData.length := rfl
  have hint : ∀ n : ℕ, n ≤ frameLen (withId m) → toInt n = n := fun n hn => toInt_of_isInt ⟨by omega, by omega⟩
  simp only [encoderTinyPB, hint _ le_rfl, if_true, sent]
  rw [hint _ (by omega), hint _ (by omega), hint _ (by omega)]

/-- **encode** appends the frames: in place if there is room for all of them, at the front of a larger storage
otherwise -/
theorem encode_layout (h : Layout b pre c post) (htotal : (wire ms).length < 2147483648) :
    ∃ b' pre' post', encode ms b = .ok (ms.map sent, b') ∧ Layout b' pre' (c ++ wire ms) post' ∧
      (((wire ms).length : ℤ) ≤ b.writeAble → pre' = pre ∧ b'.size = b.size) ∧
      (b.writeAble < (wire ms).length → pre' = []) := by
  induction ms generalizing b pre c post with
  | nil =>
    have hwr : 0 ≤ b.writeAble := by
      simp only [writeAble, h.size_eq, h.write]; omega
    refine ⟨b, pre, post, rfl, by simpa using h, fun _ => ⟨rfl, rfl⟩, ?_⟩
    intro hlt
    simp at hlt; omega
  | cons m ms ih =>
    simp only [wire_cons, List.length_append, frame_length] at htotal
    have h26 := frameLen_ge (withId m)
    obtain ⟨b1, pre1, post1, hw, hl, hfit, hgrow⟩ := writeToBuffer_layout h (frame (withId m))
    obtain ⟨b', pre', post', he, hl', hfit', hgrow'⟩ := ih hl (by omega)
    have hne : (frame (withId m)).length ≠ 0 := by rw [frame_length]; omega
    simp only [frame_length] at hfit hgrow
    have hlen : ((wire (m :: ms)).length : ℤ) = frameLen (withId m) + (wire ms).length := by simp
    -- what is left of the room after the first frame
    have hroom : (frameLen (withId m) : ℤ) ≤ b.writeAble → b1.writeAble = b.writeAble - frameLen (withId m) := by
      intro hle
      obtain ⟨rfl, hs⟩ := hfit hle
      simp only [writeAble, hs, hl.write, h.write, List.length_append, frame_length]
      push_cast; ring
    refine ⟨b', pre', post', ?_, by simpa using hl', ?_, ?_⟩
    · simp only [encode, encoderTinyPB_eq (show frameLen (withId m) < 2147483648 by omega), ok_bind, hne, ne_eq,
        not_false_eq_true, if_true, hw, he, pure_ok, List.map_cons]
    · intro hle
      rw [hlen] at hle
      have hle1 : (frameLen (withId m) : ℤ) ≤ b.writeAble := by omega
      obtain ⟨e1, e2⟩ := hfit' (by rw [hroom hle1]; omega)
      obtain ⟨e3, e4⟩ := hfit hle1
      exact ⟨e1.trans e3, e2.trans e4⟩
    · intro hlt
      rw [hlen] at hlt
      by_cases hle1 : (frameLen (withId m) : ℤ) ≤ b.writeAble
      · exact hgrow' (by rw [hroom hle1]; omega)
      · have hnil := hgrow (not_le.1 hle1)
        by_cases hle2 : ((wire ms).length : ℤ) ≤ b1.writeAble
        · exact (hfit' hle2).1.trans hnil
        · exact hgrow' (not_le.1 hle2)

/-! ## Round trip -/

/-- encode, then decode: one decoded message per original, in order, equal in every field, and nothing left to read -/
def RoundTrips (out ms : List TinyPBProtocol) (b : TcpBuffer) : Prop :=
  ∃ ms' b1 b2, encode ms b = .ok (ms', b1) ∧ Decodes out b1 (.ok (out ++ ms', b2)) ∧ b2.readAble = 0 ∧
    ms' = ms.map sent

/-- the buffer has to grow, which brings its content to the front, or every position fits as it is -/
def FitsInt (ms : List TinyPBProtocol) (b : TcpBuffer) : Prop :=
  b.writeAble < (wire ms).length ∨ PositionsFit b.size b.readIndex (lens ms)

theorem decodes_wire (hm : ∀ m ∈ ms, WithinLimits m) (h : Layout b pre (wire ms) post)
    (hfit : PositionsFit b.size pre.length (lens ms)) :
    ∃ b' pre' post', Decodes out b (.ok (out ++ ms.map sent, b')) ∧ Layout b' pre' [] post' ∧ b'.size = b.size := by
  have h' : Layout b pre (wire ms ++ []) post := by simpa using h
  obtain ⟨b', pre', post', h1, -, h3, h4, h5⟩ := reach_wire out .storage hm h' hfit
  exact ⟨b', pre', post', (Loop.ends_reach h1).2 (Loop.ends_of_return (decodeTurn_nil _ .storage h3 h4)), h3, h5⟩

/-- a read index beyond `int` is narrowed to a negative one -/
theorem decodeTurn_narrowed (h : Layout b pre c post) (h1 : 2147483648 ≤ (pre.length : ℤ))
    (h2 : (pre.length : ℤ) < 4294967296) : decodeTurn .storage (out, b) = .error .outOfBounds := by
  have hstart : toInt b.readIndex = pre.length - 4294967296 := by rw [h.read]; exact toInt_neg h1 h2
  obtain ⟨n, hn⟩ : ∃ n, (b.writeIndex - (pre.length - 4294967296)).toNat = n + 1 :=
    ⟨(b.writeIndex - (pre.length - 4294967296)).toNat - 1, by rw [h.write]; omega⟩
  have hload : load .storage b (pre.length - 4294967296) 1 = .error .outOfBounds := by
    have hout : ¬ Inside .storage b (pre.length - 4294967296) 1 := by simp only [Inside]; omega
    simp only [load, hout, or_false, one_ne_zero, if_false]
  simp only [decodeTurn, hstart, hn, scan, probe, hload, error_bind]

/-- the end of a frame beyond `int` overflows -/
theorem decodeTurn_overflow (h : Layout b pre (frame m ++ c) post) (h1 : (pre.length : ℤ) < 2147483648)
    (hlen : frameLen m < 2147483648) (h2 : 2147483648 ≤ (pre.length + frameLen m : ℤ)) :
    decodeTurn .storage (out, b) = .error .overflow := by
  have h26 := frameLen_ge m
  have hw := h.write
  simp only [List.length_append, frame_length] at hw
  have hstart : toInt b.readIndex = pre.length := by rw [h.read]; exact toInt_of_isInt ⟨by omega, by omega⟩
  obtain ⟨n, hn⟩ : ∃ n, (b.writeIndex - pre.length).toNat = n + 1 :=
    ⟨(b.writeIndex - pre.length).toNat - 1, by omega⟩
  have h0 : load .storage b pre.length 1 = .ok [PB_START] := load_part .storage h 0 rfl (by simp) (by simp)
  have hp : probe .storage b pre.length = .error .overflow := by
    by_cases hi : IsInt (pre.length + 1)
    · have hlt : (pre.length : ℤ) + 1 < b.writeIndex := by omega
      have hl : loadInt .storage b (pre.length + 1) = .ok (frameLen m : ℤ) :=
        loadInt_part .storage h 1 ⟨by omega, by omega⟩ rfl (by simp [parts])
      have hadd : addInt pre.length (frameLen m) = .error .overflow := by
        simp only [addInt]
        rw [if_neg (by unfold IsInt; omega)]
      simp only [probe, h0, ok_bind, if_true, addInt_ok hi, hlt, hl, hadd, error_bind]
    · have hadd : addInt pre.length 1 = .error .overflow := by simp only [addInt, hi, if_false]
      simp only [probe, h0, ok_bind, if_true, hadd, error_bind]
  simp only [decodeTurn, hstart, hn, scan, hp, error_bind]

/-- a position that does not fit stops decode in a fault -/
theorem decode_faults (hm : ∀ m ∈ ms, WithinLimits m) (h : Layout b pre (wire ms ++ c) post)
    (hlens : ∀ n ∈ lens ms, n < 2147483648) (hpre : (pre.length : ℤ) < 4294967296)
    (hfit : ¬ PositionsFit b.size pre.length (lens ms)) : ∃ e, Decodes out b (.error e) := by
  induction ms generalizing b pre post out with
  | nil => exact ⟨_, Loop.ends_of_error (decodeTurn_narrowed out h (by simpa [PositionsFit] using hfit) hpre)⟩
  | cons m ms ih =>
    have hl : Layout b pre (frame (withId m) ++ (wire ms ++ c)) post := by simpa using h
    have hlen : frameLen (withId m) < 2147483648 := hlens _ List.mem_cons_self
    have hms : ∀ m' ∈ ms, WithinLimits m' := fun m' h' => hm m' (List.mem_cons_of_mem m h')
    have hlens' : ∀ n ∈ lens ms, n < 2147483648 := fun n hn => hlens n (List.mem_cons_of_mem _ hn)
    by_cases hbig : 2147483648 ≤ (pre.length : ℤ)
    · exact ⟨_, Loop.ends_of_error (decodeTurn_narrowed out h hbig hpre)⟩
    by_cases hend : 2147483648 ≤ (pre.length + frameLen (withId m) : ℤ)
    · exact ⟨_, Loop.ends_of_error (decodeTurn_overflow out hl (not_le.1 hbig) hlen hend)⟩
    · have hrest : ¬ PositionsFit b.size
          (if (pre.length + frameLen (withId m) : ℤ) < b.size / 3 then pre.length + frameLen (withId m) else 0)
          (lens ms) := fun hr => hfit ⟨not_le.1 hend, hr⟩
      rcases moveReadIndex_cases hl with ⟨hlt, b1, h1, h2, h3⟩ | ⟨hge, b1, post1, h1, h2, h3⟩
      · have hpre1 : ((pre ++ frame (withId m)).length : ℤ) = pre.length + frameLen (withId m) := by simp
        rw [frame_length] at h1 hlt
        rw [if_pos hlt] at hrest
        have hturn := decodeTurn_frame out .storage hl (hm m List.mem_cons_self) (not_le.1 hend) h1
        obtain ⟨e, he⟩ := ih (out ++ [sent m]) hms h2 hlens' (by omega) (by rw [h3, hpre1]; exact hrest)
        exact ⟨e, (Loop.ends_turn hturn).2 he⟩
      · rw [frame_length] at h1 hge
        rw [if_neg (not_lt.2 hge)] at hrest
        have hturn := decodeTurn_frame out .storage hl (hm m List.mem_cons_self) (not_le.1 hend) h1
        obtain ⟨e, he⟩ := ih (out ++ [sent m]) hms h2 hlens' (by simp) (by rw [h3]; exact hrest)
        exact ⟨e, (Loop.ends_turn hturn).2 he⟩

theorem lens_lt (htotal : (wire ms).length < 2147483648) : ∀ n ∈ lens ms, n < 2147483648 := by
  intro n hn
  have := List.le_sum_of_mem hn
  rw [wire_length] at htotal
  omega

/-- encode leaves the frames behind the read index of an empty buffer, or at the front of a grown one -/
theorem encode_empty (hb : b.WF) (h0 : b.readAble = 0) (htotal : (wire ms).length < 2147483648) :
    ∃ b1 pre post, encode ms b = .ok (ms.map sent, b1) ∧ Layout b1 pre (wire ms) post ∧
      (((wire ms).length : ℤ) ≤ b.writeAble → (pre.length : ℤ) = b.readIndex ∧ b1.size = b.size) ∧
      (b.writeAble < (wire ms).length → pre = []) := by
  have hlay := hb.layout
  have hnil : b.content = [] := by
    have := hlay.readAble_eq; rw [h0] at this; exact List.length_eq_zero_iff.1 (by omega)
  rw [hnil] at hlay
  obtain ⟨b1, pre, post, h1, h2, h3, h4⟩ := encode_layout hlay htotal
  exact ⟨b1, pre, post, h1, h2, fun hle => ⟨by rw [(h3 hle).1, hlay.read], (h3 hle).2⟩, h4⟩

theorem round_trip_of_fits (hm : ∀ m ∈ ms, WithinLimits m) (htotal : (wire ms).length < 2147483648) (hb : b.WF)
    (h0 : b.readAble = 0) (hfit : FitsInt ms b) : RoundTrips out ms b := by
  obtain ⟨b1, pre, post, h1, h2, h3, h4⟩ := encode_empty hb h0 htotal
  have hpos : PositionsFit b1.size pre.length (lens ms) := by
    by_cases hle : ((wire ms).length : ℤ) ≤ b.writeAble
    · rw [(h3 hle).1, (h3 hle).2]
      exact hfit.resolve_left (not_lt.2 hle)
    · rw [h4 (not_le.1 hle)]
      exact positionsFit_of_sum (by simp) (by rw [← wire_length]; simp; omega)
  obtain ⟨b2, pre2, post2, hd, hl, -⟩ := decodes_wire out hm h2 hpos
  exact ⟨ms.map sent, b1, b2, h1, hd, by simpa using hl.readAble_eq, rfl⟩

theorem fits_of_round_trip (hm : ∀ m ∈ ms, WithinLimits m) (htotal : (wire ms).length < 2147483648) (hb : b.WF)
    (h0 : b.readAble = 0) (hk : b.readIndex < 4294967296) (hr : RoundTrips out ms b) : FitsInt ms b := by
  by_contra hfit
  simp only [FitsInt, not_or, not_lt] at hfit
  obtain ⟨hle, hpos⟩ := hfit
  obtain ⟨b1, pre, post, h1, h2, h3, -⟩ := encode_empty hb h0 htotal
  obtain ⟨e1, e2⟩ := h3 hle
  have h2' : Layout b1 pre (wire ms ++ []) post := by simpa using h2
  obtain ⟨e, he⟩ := decode_faults out hm h2' (lens_lt htotal) (by omega) (by rwa [e1, e2])
  obtain ⟨ms', b1', b2, h4, h5, -⟩ := hr
  rw [h1] at h4
  simp only [Except.ok.injEq, Prod.mk.injEq] at h4
  rw [← h4.2] at h5
  exact absurd (Loop.Ends.unique he h5) (by simp)

/-- **Round trip**: encode and decode give the messages back exactly if every position fits an `int`, for every read
index that narrows to a negative one or to itself -/
theorem round_trip (hm : ∀ m ∈ ms, WithinLimits m) (htotal : (wire ms).length < 2147483648) (hb : b.WF)
    (h0 : b.readAble = 0) :
    (FitsInt ms b → RoundTrips out ms b) ∧ (b.readIndex < 4294967296 → RoundTrips out ms b → FitsInt ms b) :=
  ⟨round_trip_of_fits out hm htotal hb h0, fits_of_round_trip out hm htotal hb h0⟩

/-- two messages, the second with an error -/
theorem round_trip_small : WF (make 100) ∧
    RoundTrips [] [{ methodName := [97], pbData := [2, 3, 0] }, { methodName := [98], errCode := 7, errInfo := [101] }]
      (make 100) := by
  have hwf : WF (make 100) := (make_layout 100).wf
  refine ⟨hwf, (round_trip [] ?_ ?_ hwf rfl).1 (.inr ?_)⟩
  · intro m hm
    rcases List.mem_cons.1 hm with rfl | hm
    · exact ⟨by decide, by decide, by decide, by decide, by decide, by decide, by decide⟩
    · rw [List.mem_singleton.1 hm]
      exact ⟨by decide, by decide, by decide, by decide, by decide, by decide, by decide⟩
  · decide
  · exact positionsFit_of_sum (by decide) (by decide)

/-- a buffer whose indices stand at 2^31: the frame is written and never read back -/
theorem round_trip_fails :
    ¬ RoundTrips [] [{}] ⟨List.replicate 6442450947 0, 2147483648, 2147483648⟩ := by
  have key : ∀ n : ℕ, 6442450947 = n → ¬ RoundTrips [] [{}] ⟨List.replicate n 0, 2147483648, 2147483648⟩ := by
    intro n hn hr
    have hsize : size ⟨List.replicate n 0, 2147483648, 2147483648⟩ = n := by simp [size]
    have hwf : WF ⟨List.replicate n 0, 2147483648, 2147483648⟩ := ⟨by simp, le_rfl, by rw [hsize]; simp; omega⟩
    have hm : ∀ m ∈ [({} : TinyPBProtocol)], WithinLimits m := by
      intro m hm
      rw [List.mem_singleton.1 hm]
      exact ⟨by decide, by decide, by decide, by decide, by decide, by decide, by decide⟩
    have hlen : (wire [({} : TinyPBProtocol)]).length = 35 := by decide
    rcases fits_of_round_trip [] hm (by omega) hwf rfl (by simp) hr with h | h
    · simp only [writeAble, hsize, hlen] at h; omega
    · have := h.1
      simp only at this
      omega
  exact key _ rfl

end

end MCoroRpc.TinyPB
