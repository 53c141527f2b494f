/-
Junk in front of the frames: bytes without a START, which the scan passes over.

The scan finds the first frame behind the junk, but the read index moves by the length of the frame only, from where it
stood. So the last bytes of the frame stay readable, as many as there was junk, and the next turn scans them again: they
are left behind the last message, or delivered once more.

A turn that delivers a message takes as many bytes as the message says (`turn_delivers`), so that without a frame that
decode drops the junk stays in the count to the end (`ends_delivers`).

Main results:
- `resync`: decode delivers the messages and leaves none of their bytes exactly if there is no junk, or no message.
- `delivered_twice`: as much junk as a frame is long, and its message is delivered twice.
-/
import MCoroRpc.Coder.Parsed

namespace MCoroRpc.TinyPB

open CInt TcpBuffer Result

/-- decode delivers the messages in order, and no byte of a frame is left to be read; the frames stand at the end of the
content -/
def Resyncs (out ms : List TinyPBProtocol) (b : TcpBuffer) : Prop :=
  ∃ b', Decodes out b (.ok (out ++ ms.map sent, b')) ∧ (ms = [] ∨ b'.readAble = 0)

/-- no junk, or nothing but junk; the positions are `int` -/
def Clean (junk : List UInt8) (ms : List TinyPBProtocol) (b : TcpBuffer) : Prop :=
  junk = [] ∧ PositionsFit b.size b.readIndex (lens ms) ∨ ms = [] ∧ b.writeIndex < 2147483648

/-- decode delivers every frame that it takes -/
def DropsNone (s : List TinyPBProtocol × TcpBuffer) : Prop :=
  ∀ t, Loop.Reach (decodeTurn .storage) s t → ∀ i j n, First .storage t.2 i j n → parse .storage t.2 i j n ≠ .ok none

/-- the lengths of the messages -/
def lengths (ms : List TinyPBProtocol) : ℤ := (ms.map (·.pkLen)).sum

section
variable {b b' : TcpBuffer} {junk : List UInt8} {m : TinyPBProtocol} {ms out out' : List TinyPBProtocol}

theorem lengths_sent (ms : List TinyPBProtocol) : lengths (ms.map sent) = (wire ms).length := by
  induction ms with
  | nil => rfl
  | cons m ms ih =>
    have hone : (sent m).pkLen = frameLen (withId m) := rfl
    simp only [lengths, List.map_cons, List.sum_cons, wire_cons, List.length_append, frame_length, hone] at ih ⊢
    rw [ih]
    push_cast
    rfl

/-- a turn delivers a message and takes its length, or is refused and changes nothing -/
theorem turn_delivers (hnone : ∀ i j n, First .storage b i j n → parse .storage b i j n ≠ .ok none)
    (h : Loop.Turn (decodeTurn .storage) (out, b) (out', b')) :
    b' = b ∨ ∃ m, out' = out ++ [m] ∧ b'.readAble = b.readAble - m.pkLen ∧ 26 ≤ m.pkLen := by
  obtain ⟨i, j, n, o, hf, hmove, hparse, rfl⟩ := decodeTurn_turns.1 h
  cases o with
  | none => exact absurd hparse (hnone i j n hf)
  | some m =>
    obtain ⟨r, -, rfl, rfl⟩ := parse_some hf.2.frame hparse
    rcases moveReadIndex_readAble hmove with ⟨hsame, -⟩ | hmoved
    · exact .inl hsame
    · have h26 := frameLen_ge r
      refine .inr ⟨received r, rfl, hmoved, ?_⟩
      simp only [received]
      omega

/-- **The count**: what decode has taken when it returns are the lengths of the messages that it has delivered -/
theorem ends_delivers (hnone : DropsNone (out, b)) (h : Decodes out b (.ok (out', b'))) :
    ∃ ms, out' = out ++ ms ∧ b'.readAble = b.readAble - lengths ms ∧ (ms = [] → Quiet .storage b) := by
  obtain ⟨k, hk⟩ := h
  induction k generalizing out b with
  | zero => simp [Loop.run] at hk
  | succ k ih =>
    by_cases hturn : ∃ s, Loop.Turn (decodeTurn .storage) (out, b) s
    · obtain ⟨⟨out1, b1⟩, hturn⟩ := hturn
      have hrest := (Loop.run_turn hturn k).symm.trans hk
      rcases turn_delivers (hnone _ (Loop.Reach.refl _)) hturn with rfl | ⟨m, rfl, htaken, h26⟩
      · exact absurd ⟨_, k + 1, hk⟩ (not_ends_of_refused hturn)
      · obtain ⟨ms, rfl, hcount, -⟩ := ih (fun t ht => hnone t (Loop.Reach.head hturn ht)) hrest
        refine ⟨m :: ms, by simp, ?_, fun hnil => by cases hnil⟩
        have hsplit : lengths (m :: ms) = m.pkLen + lengths ms := rfl
        rw [hcount, htaken, hsplit]
        ring
    · have hret := Loop.returns_of_ends (fun s hs => hturn ⟨s, hs⟩) ⟨k + 1, hk⟩
      obtain ⟨hquiet, heq⟩ := decodeTurn_returns.1 hret
      obtain ⟨rfl, rfl⟩ := Prod.mk.inj heq
      exact ⟨[], by simp, by simp [lengths], fun _ => hquiet⟩

theorem resyncs_of_clean (out : List TinyPBProtocol) (hm : ∀ m ∈ ms, WithinLimits m) (hb : b.WF)
    (hc : b.content = junk ++ wire ms) (hj : PB_START ∉ junk) (h : Clean junk ms b) : Resyncs out ms b := by
  rcases h with ⟨rfl, hfit⟩ | ⟨rfl, hw⟩
  · have hl : Layout b b.consumed (wire ms) b.rest := by
      have hl := hb.layout
      rwa [hc, List.nil_append] at hl
    rw [hl.read] at hfit
    obtain ⟨b', pre', post', hd, hl', -⟩ := decodes_wire out hm hl hfit
    exact ⟨b', hd, .inr (by simpa using hl'.readAble_eq)⟩
  · have hl : Layout b b.consumed junk b.rest := by
      have hl := hb.layout
      rwa [hc, wire_nil, List.append_nil] at hl
    have hquiet : Quiet .storage b := quiet_of_not_mem hl hw fun hmem => hj (List.dropLast_subset _ hmem)
    refine ⟨b, ?_, .inl rfl⟩
    rw [List.map_nil, List.append_nil]
    exact Loop.ends_of_return (decodeTurn_returns.2 ⟨hquiet, rfl⟩)

/-- the scan of bytes at the last position of `int` does not come to an end -/
theorem write_lt_of_quiet (hb : b.WF) (hne : b.readIndex < b.writeIndex) (hk : b.readIndex < 4294967296)
    (h : Quiet .storage b) : b.writeIndex < 2147483648 := by
  have hr := hb.read
  have hle : toInt b.readIndex ≤ b.writeIndex - 1 := by
    by_cases hint : b.readIndex < 2147483648
    · rw [toInt_of_isInt ⟨by omega, hint⟩]
      omega
    · rw [toInt_neg (not_lt.1 hint) hk]
      omega
  have hlast := (h _ hle (by omega)).next.2
  omega

theorem clean_of_resyncs (hm : ∀ m ∈ ms, WithinLimits m) (hb : b.WF) (hc : b.content = junk ++ wire ms)
    (hlens : ∀ n ∈ lens ms, n < 2147483648) (hk : b.readIndex < 4294967296) (hnone : DropsNone (out, b))
    (h : Resyncs out ms b) : Clean junk ms b := by
  obtain ⟨b', hd, hleft⟩ := h
  have hra : b.readAble = junk.length + (wire ms).length := by
    rw [hb.layout.readAble_eq, hc, List.length_append]
    push_cast
    rfl
  obtain ⟨ms', hout, hcount, hquiet⟩ := ends_delivers hnone hd
  obtain rfl := List.append_cancel_left hout
  rw [lengths_sent, hra] at hcount
  by_cases hjunk : junk = []
  · subst hjunk
    by_cases hfit : PositionsFit b.size b.readIndex (lens ms)
    · exact .inl ⟨rfl, hfit⟩
    · have hl : Layout b b.consumed (wire ms ++ []) b.rest := by
        have hl := hb.layout
        rwa [hc, List.nil_append, ← List.append_nil (wire ms)] at hl
      rw [hl.read] at hfit hk
      obtain ⟨e, he⟩ := decode_faults out hm hl hlens hk hfit
      cases he.unique hd
  · have hpos := List.length_pos_iff.2 hjunk
    rcases hleft with rfl | hleft
    · refine .inr ⟨rfl, write_lt_of_quiet hb ?_ hk (hquiet rfl)⟩
      simp only [readAble, wire_nil, List.length_nil] at hra
      omega
    · omega

/-- **Resynchronisation**: behind junk decode delivers the messages and leaves no byte of their frames exactly if there is
no junk, or no message; for the converse the lengths and the read index are such as an index of 32 bits can tell apart, and
decode drops none of the frames that it takes -/
theorem resync (hm : ∀ m ∈ ms, WithinLimits m) (hb : b.WF) (hc : b.content = junk ++ wire ms) (hj : PB_START ∉ junk) :
    (Clean junk ms b → Resyncs out ms b) ∧
      ((∀ n ∈ lens ms, n < 2147483648) → b.readIndex < 4294967296 → DropsNone (out, b) → Resyncs out ms b →
        Clean junk ms b) :=
  ⟨resyncs_of_clean out hm hb hc hj, clean_of_resyncs hm hb hc⟩

end

/-- junk, and behind it one frame -/
def behindJunk (k : ℕ) : TcpBuffer := ⟨List.replicate k 7 ++ frame (withId {}), 0, k + 35⟩

theorem behindJunk_layout (k : ℕ) : Layout (behindJunk k) [] (List.replicate k 7 ++ wire [{}]) [] := by
  have hlen : (frame (withId {})).length = 35 := by decide
  refine ⟨by simp [behindJunk], rfl, ?_⟩
  simp only [behindJunk, wire_cons, wire_nil, List.append_nil, List.length_append, List.length_replicate, hlen,
    List.length_nil]
  push_cast
  ring

theorem resync_clean : Resyncs [] [{}] (behindJunk 0) := by
  have hl := behindJunk_layout 0
  have hc : (behindJunk 0).content = ([] : List UInt8) ++ wire [{}] := hl.content_eq
  have hlimits : ∀ m ∈ ([{}] : List TinyPBProtocol), WithinLimits m := by
    intro m hm
    rw [List.mem_singleton.1 hm]
    exact ⟨by decide, by decide, by decide, by decide, by decide, by decide, by decide⟩
  exact (resync hlimits hl.wf hc (by simp)).1 (.inl ⟨rfl, positionsFit_of_sum (by decide) (by decide)⟩)

/-- one byte of junk, and the END of the frame is left -/
theorem decodes_one : Decodes [] (behindJunk 1) (.ok ([sent {}], ⟨PB_END :: frame (withId {}), 0, 1⟩)) := by
  have h1 : Loop.Turn (decodeTurn .storage) ([], behindJunk 1) ([sent {}], ⟨PB_END :: frame (withId {}), 0, 1⟩) := by
    unfold Loop.Turn; decide +kernel
  have h2 : Quiet .storage ⟨PB_END :: frame (withId {}), 0, 1⟩ := scan_quiet.1 (by decide)
  exact (Loop.ends_turn h1).2 (Loop.ends_of_return (decodeTurn_returns.2 ⟨h2, rfl⟩))

/-- as much junk as the frame is long, and the whole frame is left -/
theorem decodes_two :
    Decodes [] (behindJunk 35) (.ok ([sent {}, sent {}], ⟨frame (withId {}) ++ frame (withId {}), 0, 0⟩)) := by
  have h1 : Loop.Turn (decodeTurn .storage) ([], behindJunk 35)
      ([sent {}], ⟨frame (withId {}) ++ frame (withId {}), 0, 35⟩) := by
    unfold Loop.Turn; decide +kernel
  have h2 : Loop.Turn (decodeTurn .storage) ([sent {}], ⟨frame (withId {}) ++ frame (withId {}), 0, 35⟩)
      ([sent {}, sent {}], ⟨frame (withId {}) ++ frame (withId {}), 0, 0⟩) := by
    unfold Loop.Turn; decide +kernel
  have h3 : Quiet .storage ⟨frame (withId {}) ++ frame (withId {}), 0, 0⟩ := scan_quiet.1 (by decide)
  exact (Loop.ends_turn h1).2 ((Loop.ends_turn h2).2 (Loop.ends_of_return (decodeTurn_returns.2 ⟨h3, rfl⟩)))

/-- one byte of junk in front of a frame, and its END stays readable; as many bytes as the frame has, and its message is
delivered twice -/
theorem delivered_twice :
    (∀ k, WF (behindJunk k) ∧ (behindJunk k).content = List.replicate k 7 ++ wire [{}]) ∧
      ¬ Resyncs [] [{}] (behindJunk 1) ∧ ¬ Resyncs [] [{}] (behindJunk 35) := by
  refine ⟨fun k => ⟨(behindJunk_layout k).wf, (behindJunk_layout k).content_eq⟩, ?_, ?_⟩
  · rintro ⟨b', hd, hleft⟩
    obtain ⟨-, rfl⟩ := Prod.mk.inj (Except.ok.inj (hd.unique decodes_one))
    rcases hleft with hnil | hleft
    · cases hnil
    · exact absurd hleft (by decide)
  · rintro ⟨b', hd, -⟩
    obtain ⟨hout, -⟩ := Prod.mk.inj (Except.ok.inj (hd.unique decodes_two))
    cases hout

end MCoroRpc.TinyPB
