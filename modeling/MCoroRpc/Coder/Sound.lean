/-
Soundness of decode: what stands behind a message that it delivers.

`Takes` is a run of decode that returns, with the place of every frame that it delivers: how many bytes were readable from
its START on, which is its distance from the end of the readable bytes, however the buffer has been compacted since
(`Slices`).

The inner lengths are consistent for every frame that is delivered (`parse_some`), so that two things are left that can
go wrong: the encoder would not write these strings, for a NUL in one of them or for want of an id (`backed_iff`); and the
frame starts inside of one that has been delivered, whose last bytes stay readable when junk has been skipped before it.
How many stay is the `overhang`, which the junk and the lengths of the dropped frames determine turn by turn.

Main results:
- `decode_sound`: the messages are backed by their regions, in order and apart, exactly if each turn meets its condition
  (`Clears`): a frame that is delivered has an id and no NUL in its texts, and the junk before it takes up the overhang.
- `Takes.ordered`: without junk and negative lengths the second does not happen.
- `cut_at_nul`: a frame that the encoder would not write, for any message that is delivered of it.
-/
import MCoroRpc.Coder.Partial
import MCoroRpc.Coder.Resync

namespace MCoroRpc.TinyPB

open CInt TcpBuffer Result

/-- a frame that is delivered: the readable bytes from its START on, and the message -/
structure Delivery where
  left : ℤ
  message : TinyPBProtocol

/-- decode returns, leaves the second buffer and has delivered these frames -/
inductive Takes : TcpBuffer → List Delivery → TcpBuffer → Prop
  | done {b : TcpBuffer} (h : Quiet .storage b) : Takes b [] b
  | drop {b b' b'' : TcpBuffer} {i j n : ℤ} {ts : List Delivery} (hf : First .storage b i j n)
      (hmove : b.moveReadIndex n = .ok b') (hparse : parse .storage b i j n = .ok none) (h : Takes b' ts b'') :
      Takes b ts b''
  | deliver {b b' b'' : TcpBuffer} {i j n : ℤ} {m : TinyPBProtocol} {ts : List Delivery} (hf : First .storage b i j n)
      (hmove : b.moveReadIndex n = .ok b') (hparse : parse .storage b i j n = .ok (some m)) (h : Takes b' ts b'') :
      Takes b (⟨b.writeIndex - i, m⟩ :: ts) b''

/-- the bytes of the frame, by its distance from the end of the content `c` -/
def region (c : List UInt8) (τ : Delivery) : List UInt8 :=
  (c.drop (c.length - τ.left).toNat).take τ.message.pkLen.toNat

/-- decode has found the frame within the readable bytes -/
structure Within (c : List UInt8) (τ : Delivery) : Prop where
  fits : τ.message.pkLen ≤ τ.left
  inside : τ.left ≤ c.length

/-- the second frame starts behind the end of the first -/
def Behind (τ τ' : Delivery) : Prop := τ'.left ≤ τ.left - τ.message.pkLen

/-- equal but for the four bytes before the last one -/
def SameButChecksum (x y : List UInt8) : Prop :=
  ∃ p check check' e, x = p ++ (check ++ [e]) ∧ y = p ++ (check' ++ [e]) ∧ check.length = 4 ∧ check'.length = 4

/-- the bytes are a frame of the message, as the encoder writes it but for the checksum -/
structure IsBacked (bytes : List UInt8) (m : TinyPBProtocol) : Prop where
  start : bytes.head? = some PB_START
  stop : bytes.getLast? = some PB_END
  length : (bytes.length : ℤ) = m.pkLen
  encoded : ∃ bs m', encoderTinyPB m = .ok (bs, m') ∧ SameButChecksum bytes bs

/-- every message is backed by its region, and the regions are apart and in the order of the messages -/
structure SoundIn (c : List UInt8) (ts : List Delivery) : Prop where
  backed : ∀ τ ∈ ts, IsBacked (region c τ) τ.message
  ordered : ts.Pairwise Behind

/-- a frame with an id, and without NUL in its three texts -/
def Unaltered (bytes : List UInt8) : Prop :=
  ∃ r, FrameOf bytes r ∧ r.msgId ≠ [] ∧ 0 ∉ r.msgId ∧ 0 ∉ r.methodName ∧ 0 ∉ r.errInfo

/-! ## One frame -/

section
variable {bytes : List UInt8} {r : TinyPBProtocol}

theorem frame_frameOf (h : frameLen r < 2147483648) (hcode : IsInt r.errCode) : FrameOf (frame r) r :=
  ⟨toNet 1, frameWith_one, rfl, hcode, h⟩

theorem not_mem_takeWhile (s : List UInt8) : 0 ∉ s.takeWhile (· ≠ 0) := by
  intro hmem
  have h := List.all_eq_true.1 (List.all_takeWhile (p := (· ≠ 0)) (l := s)) 0 hmem
  simp at h

/-- strings without NUL come through as they are -/
theorem received_same (h1 : 0 ∉ r.msgId) (h2 : 0 ∉ r.methodName) (h3 : 0 ∉ r.errInfo) :
    SameFields (received r) r where
  msgId := takeWhile_ne_zero h1
  methodName := takeWhile_ne_zero h2
  errCode := rfl
  errInfo := takeWhile_ne_zero h3
  pbData := rfl

theorem SameFields.frame_eq {m m' : TinyPBProtocol} (h : SameFields m m') : frame m = frame m' := by
  simp only [frame, parts, frameLen, h.msgId, h.methodName, h.errCode, h.errInfo, h.pbData]

theorem encoderTinyPB_ok {m m' : TinyPBProtocol} (h : encoderTinyPB m = .ok (bytes, m')) :
    bytes = frame (withId m) ∧ frameLen (withId m) < 2147483648 := by
  simp only [encoderTinyPB] at h
  split_ifs at h with hint
  obtain ⟨rfl, -⟩ := Prod.mk.inj (Except.ok.inj h)
  have hrange := (isInt_toInt (frameLen (withId m))).2
  rw [hint] at hrange
  exact ⟨rfl, by exact_mod_cast hrange⟩

/-- the checksum does not make the frame -/
theorem SameButChecksum.frameOf (h : SameButChecksum bytes (frame r)) (hcode : IsInt r.errCode)
    (hlt : frameLen r < 2147483648) : FrameOf bytes r := by
  obtain ⟨p, check1, check2, e, hx, hy, h1, h2⟩ := h
  have hsplit : frame r = (PB_START :: body r) ++ (toNet 1 ++ [PB_END]) := by
    rw [frame_eq]
    rfl
  rw [hsplit] at hy
  obtain ⟨hp, hend⟩ := List.append_inj' hy (by simp [h2])
  obtain ⟨-, he⟩ := List.append_inj' hend rfl
  obtain rfl : PB_END = e := (List.cons.inj he).1
  refine ⟨check1, ?_, h1, hcode, hlt⟩
  rw [hx, ← hp]
  rfl

/-- a message that has been received has no NUL in its texts, and the encoder gives it an id if it has none -/
theorem received_unaltered (r : TinyPBProtocol) : (withId (received r)).msgId ≠ [] ∧
    0 ∉ (withId (received r)).msgId ∧ 0 ∉ (withId (received r)).methodName ∧ 0 ∉ (withId (received r)).errInfo := by
  unfold withId
  split_ifs with hnil
  · exact ⟨by simp [defaultMsgId], by simp [defaultMsgId], not_mem_takeWhile _, not_mem_takeWhile _⟩
  · exact ⟨hnil, not_mem_takeWhile _, not_mem_takeWhile _, not_mem_takeWhile _⟩

/-- what the encoder writes of the message that decode makes of a frame -/
theorem encoded_iff (hr : FrameOf bytes r) :
    (∃ bs m', encoderTinyPB (received r) = .ok (bs, m') ∧ SameButChecksum bytes bs) ↔ Unaltered bytes := by
  obtain ⟨check, hbytes, hcheck, hcode, hlt⟩ := id hr
  constructor
  · rintro ⟨bs, m', henc, hsame⟩
    obtain ⟨rfl, hfit⟩ := encoderTinyPB_ok henc
    have hint : IsInt (withId (received r)).errCode := by
      unfold withId
      split_ifs <;> exact hcode
    exact ⟨withId (received r), hsame.frameOf hint hfit, received_unaltered r⟩
  · rintro ⟨r', hr', hne, h1, h2, h3⟩
    have hsame := hr'.unique hr
    rw [hsame.msgId] at hne h1
    rw [hsame.methodName] at h2
    rw [hsame.errInfo] at h3
    have hreceived := received_same h1 h2 h3
    have hid : withId (received r) = received r := withId_of_ne (by rw [hreceived.msgId]; exact hne)
    have hframe : frame (withId (received r)) = frame r := by rw [hid, hreceived.frame_eq]
    have hlen : frameLen (withId (received r)) < 2147483648 := by
      rw [← frame_length, hframe, frame_length]
      exact hlt
    refine ⟨_, _, encoderTinyPB_eq hlen, PB_START :: body r, check, toNet 1, PB_END, hbytes, ?_, hcheck, rfl⟩
    rw [hframe, frame_eq]
    rfl

/-- **A frame that is delivered** backs its message exactly if it has an id and no NUL in its texts -/
theorem backed_iff (hr : FrameOf bytes r) : IsBacked bytes (received r) ↔ Unaltered bytes := by
  refine ⟨fun h => (encoded_iff hr).1 h.encoded, fun h => ⟨?_, ?_, ?_, (encoded_iff hr).2 h⟩⟩
  all_goals obtain ⟨check, rfl, hcheck, -, -⟩ := hr
  · rfl
  · rw [frameWith, ← List.cons_append, ← List.append_assoc]
    exact List.getLast?_concat
  · rw [frameWith_length hcheck]
    rfl

end

/-! ## The bytes of a frame in the content -/

/-- wherever the bytes before the write index have been moved to, they are the last ones of the content -/
def Slices (c : List UInt8) (b : TcpBuffer) : Prop :=
  ∀ i, 0 ≤ i → b.writeIndex - c.length ≤ i → i ≤ b.writeIndex →
    b.bytes i (b.writeIndex - i) = c.drop (c.length - (b.writeIndex - i)).toNat

section
variable {b b' : TcpBuffer} {c : List UInt8} {n : ℤ}

theorem content_slices (hb : b.WF) : Slices b.content b := by
  intro i h0 hlow hhigh
  have hlen := hb.layout.readAble_eq
  have hr := hb.read
  simp only [readAble] at hlen
  have hdrop : ((b.content.length : ℤ) - (b.writeIndex - i)).toNat = i.toNat - b.readIndex.toNat := by omega
  have htake : (b.writeIndex - i).toNat = (b.writeIndex - b.readIndex).toNat - (i.toNat - b.readIndex.toNat) := by omega
  have hpos : b.readIndex.toNat + (i.toNat - b.readIndex.toNat) = i.toNat := by omega
  rw [hdrop]
  simp only [content, bytes, readAble, List.drop_take, List.drop_drop]
  rw [hpos, htake]

theorem adjustBuffer_slices (hb : b.Ranged) (h : Slices c b) (hadj : b.adjustBuffer = .ok b') : Slices c b' := by
  obtain ⟨⟨hr, hr'⟩, hw, hw'⟩ := hb
  simp only [adjustBuffer] at hadj
  split_ifs at hadj with h1 h2 h3
  · obtain rfl := Except.ok.inj hadj
    exact h
  · obtain rfl := Except.ok.inj hadj
    intro i h0 _ hhigh
    obtain rfl : i = 0 := le_antisymm hhigh h0
    simp [bytes]
  · obtain rfl := Except.ok.inj hadj
    intro i h0 hlow hhigh
    dsimp only at hlow hhigh ⊢
    simp only [readAble] at *
    -- the position before the move
    have hold := h (b.readIndex + i) (by omega) (by omega) (by omega)
    rw [show b.writeIndex - (b.readIndex + i) = b.writeIndex - b.readIndex - i by ring] at hold
    rw [← hold]
    have hcount : (b.bytes b.readIndex (b.writeIndex - b.readIndex)).length = (b.writeIndex - b.readIndex).toNat := by
      have hs : b.size = b.buffer.length := rfl
      simp only [bytes, List.length_take, List.length_drop]
      omega
    have hle : i.toNat ≤ (b.bytes b.readIndex (b.writeIndex - b.readIndex)).length := by omega
    simp only [bytes] at hle hcount ⊢
    rw [List.drop_append_of_le_length hle, List.take_append_of_le_length (by rw [List.length_drop]; omega), List.drop_take,
      List.drop_drop, List.take_take]
    congr 1
    · omega
    · congr 1
      omega

theorem moveReadIndex_slices (hb : b.Ranged) (h : Slices c b) (hmove : b.moveReadIndex n = .ok b') : Slices c b' := by
  simp only [moveReadIndex] at hmove
  split_ifs at hmove with hrefused
  · obtain rfl := Except.ok.inj hmove
    exact h
  · have hindex : 0 ≤ b.readIndex + n ∧ b.readIndex + n ≤ b.size := by omega
    have hranged : Ranged { b with readIndex := b.readIndex + n } := ⟨hindex, hb.write⟩
    exact adjustBuffer_slices hranged h hmove

/-- the bytes of a frame that is found within the content -/
theorem Slices.region {i : ℤ} {m : TinyPBProtocol} (h : Slices c b) (h0 : 0 ≤ i)
    (hin : Within c ⟨b.writeIndex - i, m⟩) (hpos : 0 ≤ m.pkLen) :
    TinyPB.region c ⟨b.writeIndex - i, m⟩ = b.bytes i m.pkLen := by
  obtain ⟨hfits, hinside⟩ := hin
  dsimp only at hfits hinside
  have hsuffix := h i h0 (by omega) (by omega)
  simp only [TinyPB.region, ← hsuffix, bytes, List.take_take]
  congr 1
  omega

end

/-! ## The run -/

section
variable {b b' b'' : TcpBuffer} {c : List UInt8} {ts ts' : List Delivery} {out out' : List TinyPBProtocol}

/-- a decode that returns has taken its messages somewhere -/
theorem takes_of_decodes (hd : Decodes out b (.ok (out', b'))) :
    ∃ ts, Takes b ts b' ∧ out' = out ++ ts.map (·.message) := by
  obtain ⟨k, hk⟩ := hd
  induction k generalizing out b with
  | zero => simp [Loop.run] at hk
  | succ k ih =>
    by_cases hturn : ∃ s, Loop.Turn (decodeTurn .storage) (out, b) s
    · obtain ⟨⟨out1, b1⟩, hturn⟩ := hturn
      obtain ⟨ts, hts, rfl⟩ := ih ((Loop.run_turn hturn k).symm.trans hk)
      obtain ⟨i, j, n, o, hf, hmove, hparse, rfl⟩ := decodeTurn_turns.1 hturn
      cases o with
      | none => exact ⟨ts, .drop hf hmove hparse hts, by simp⟩
      | some m => exact ⟨_, .deliver hf hmove hparse hts, by simp⟩
    · have hret := Loop.returns_of_ends (fun s hs => hturn ⟨s, hs⟩) ⟨k + 1, hk⟩
      obtain ⟨hquiet, heq⟩ := decodeTurn_returns.1 hret
      obtain ⟨rfl, rfl⟩ := Prod.mk.inj heq
      exact ⟨[], .done hquiet, by simp⟩

/-- and only there -/
theorem Takes.unique (h : Takes b ts b') (h' : Takes b ts' b'') : ts = ts' ∧ b' = b'' := by
  induction h generalizing ts' with
  | done hq =>
    cases h' with
    | done _ => exact ⟨rfl, rfl⟩
    | drop hf _ _ _ => exact absurd hf hq.not_first
    | deliver hf _ _ _ => exact absurd hf hq.not_first
  | drop hf hmove hparse _ ih =>
    cases h' with
    | done hq => exact absurd hf hq.not_first
    | drop hf' hmove' _ h' =>
      obtain ⟨rfl, rfl, rfl⟩ := hf.unique hf'
      obtain rfl := Except.ok.inj (hmove.symm.trans hmove')
      exact ih h'
    | deliver hf' _ hparse' _ =>
      obtain ⟨rfl, rfl, rfl⟩ := hf.unique hf'
      cases hparse.symm.trans hparse'
  | deliver hf hmove hparse _ ih =>
    cases h' with
    | done hq => exact absurd hf hq.not_first
    | drop hf' _ hparse' _ =>
      obtain ⟨rfl, rfl, rfl⟩ := hf.unique hf'
      cases hparse.symm.trans hparse'
    | deliver hf' hmove' hparse' h' =>
      obtain ⟨rfl, rfl, rfl⟩ := hf.unique hf'
      obtain rfl := Except.ok.inj (hmove.symm.trans hmove')
      obtain rfl := Option.some.inj (Except.ok.inj (hparse.symm.trans hparse'))
      obtain ⟨rfl, rfl⟩ := ih h'
      exact ⟨rfl, rfl⟩

/-- every message is what decode makes of the frame in its region -/
theorem Takes.frames (h : Takes b ts b') (hb : b.Ranged) (hs : Slices c b) :
    ∀ τ ∈ ts, Within c τ → ∃ r, FrameOf (region c τ) r ∧ τ.message = received r := by
  induction h with
  | done _ => exact fun τ hτ => by cases hτ
  | drop _ hmove _ _ ih => exact ih (moveReadIndex_ranged hb hmove).1 (moveReadIndex_slices hb hs hmove)
  | deliver hf hmove hparse _ ih =>
    intro τ hτ hin
    rcases List.mem_cons.1 hτ with rfl | hτ
    · obtain ⟨r, hr, hlen, rfl⟩ := parse_some hf.2.frame hparse
      have hpk : (received r).pkLen = frameLen r := rfl
      refine ⟨r, ?_, rfl⟩
      rw [hs.region hf.2.frame.inside.1 hin (by omega), hpk, ← hlen]
      exact hr
    · exact ih (moveReadIndex_ranged hb hmove).1 (moveReadIndex_slices hb hs hmove) τ hτ hin

/-- a run that keeps to the readable bytes, and takes no frame that declares a negative length -/
theorem takes_within (hb : b.WF) (hd : Loop.Ends (decodeTurn .readable) (out, b) (.ok (out', b')))
    (hpos : PositiveFrames .readable (out, b)) (hc : b.readAble ≤ c.length) :
    ∃ ts, Takes b ts b' ∧ out' = out ++ ts.map (·.message) ∧ ∀ τ ∈ ts, Within c τ := by
  obtain ⟨k, hk⟩ := hd
  induction k generalizing out b with
  | zero => simp [Loop.run] at hk
  | succ k ih =>
    by_cases hturn : ∃ s, Loop.Turn (decodeTurn .readable) (out, b) s
    · obtain ⟨⟨out1, b1⟩, hturn⟩ := hturn
      have hb1 : b1.WF := turn_wf (s := (out, b)) hb hturn
      have hless : b1.readAble ≤ b.readAble := by
        rcases turn_readAble (hpos _ (Loop.Reach.refl _)) hturn with rfl | hlt
        · exact le_rfl
        · exact hlt.le
      obtain ⟨ts, hts, rfl, hin⟩ := ih hb1 (fun t ht => hpos t (Loop.Reach.head hturn ht)) (hless.trans hc)
        ((Loop.run_turn hturn k).symm.trans hk)
      obtain ⟨i, j, n, o, hf, hmove, hparse, rfl⟩ := decodeTurn_turns.1 hturn
      have hf' : First .storage b i j n := scan_first.1 (scan_refines hb _ _ (scan_first.2 hf))
      have hparse' := parse_refines hb _ hparse
      cases o with
      | none => exact ⟨ts, .drop hf' hmove hparse' hts, by simp, hin⟩
      | some m =>
        refine ⟨_, .deliver hf' hmove hparse' hts, by simp, ?_⟩
        intro τ hτ
        rcases List.mem_cons.1 hτ with rfl | hτ
        · obtain ⟨r, -, hlen, rfl⟩ := parse_some hf'.2.frame hparse'
          have hpk : (received r).pkLen = n := hlen.symm
          have hstart := hf.2.frame.inside.1
          have hend := hf.2.frame.insideEnd.2
          have hj := hf.2.frame.last
          simp only [readAble] at hc
          exact ⟨by dsimp only; omega, by dsimp only; omega⟩
        · exact hin τ hτ
    · have hret := Loop.returns_of_ends (fun s hs => hturn ⟨s, hs⟩) ⟨k + 1, hk⟩
      obtain ⟨hquiet, heq⟩ := decodeTurn_returns.1 hret
      obtain ⟨rfl, rfl⟩ := Prod.mk.inj heq
      have hquiet' : Quiet .storage b' := scan_quiet.1 (scan_refines hb _ _ (scan_quiet.2 hquiet))
      exact ⟨[], .done hquiet', by simp, fun τ hτ => by cases hτ⟩

/-- every frame that decode takes stands at the read index, with no junk before it, and does not move it back -/
def Adjacent (s : List TinyPBProtocol × TcpBuffer) : Prop :=
  ∀ t, Loop.Reach (decodeTurn .storage) s t → ∀ i j n, First .storage t.2 i j n → i = t.2.readIndex ∧ 0 ≤ n

/-- then the frames are apart and in order -/
theorem Takes.ordered (h : Takes b ts b') (hadj : Adjacent (out, b)) :
    ts.Pairwise Behind ∧ ∀ τ ∈ ts, τ.left ≤ b.readAble := by
  have hmoves : ∀ {b b1 : TcpBuffer} {i j n : ℤ} {out : List TinyPBProtocol}, Adjacent (out, b) →
      First .storage b i j n → b.moveReadIndex n = .ok b1 → i = b.readIndex ∧ b1.readAble = b.readAble - n ∧ 0 ≤ n := by
    intro b b1 i j n out hadj hf hmove
    obtain ⟨hi, hn⟩ := hadj _ (Loop.Reach.refl _) i j n hf
    have hstart := hf.2.frame.inside.1
    have hend := hf.2.frame.insideEnd.2
    have hlast := hf.2.frame.last
    dsimp only at hi
    rcases moveReadIndex_readAble hmove with ⟨-, hrefused⟩ | hmoved
    · omega
    · exact ⟨hi, hmoved, hn⟩
  induction h generalizing out with
  | done _ => exact ⟨.nil, fun τ hτ => by cases hτ⟩
  | drop hf hmove hparse _ ih =>
    have hturn : Loop.Turn (decodeTurn .storage) (out, _) (_, _) :=
      decodeTurn_turns.2 ⟨_, _, _, _, hf, hmove, hparse, rfl⟩
    obtain ⟨-, hmoved, hn⟩ := hmoves hadj hf hmove
    obtain ⟨hpair, hleft⟩ := ih fun t ht => hadj t (Loop.Reach.head hturn ht)
    exact ⟨hpair, fun τ hτ => (hleft τ hτ).trans (by omega)⟩
  | deliver hf hmove hparse _ ih =>
    have hturn : Loop.Turn (decodeTurn .storage) (out, _) (_, _) :=
      decodeTurn_turns.2 ⟨_, _, _, _, hf, hmove, hparse, rfl⟩
    obtain ⟨hi, hmoved, hn⟩ := hmoves hadj hf hmove
    obtain ⟨hpair, hleft⟩ := ih fun t ht => hadj t (Loop.Reach.head hturn ht)
    obtain ⟨r, -, hlen, rfl⟩ := parse_some hf.2.frame hparse
    have hpk : (received r).pkLen = frameLen r := rfl
    simp only [readAble] at hmoved hleft ⊢
    refine ⟨List.pairwise_cons.2 ⟨fun τ hτ => ?_, hpair⟩, ?_⟩
    · have hle := hleft τ hτ
      simp only [Behind, hpk]
      omega
    · intro τ hτ
      rcases List.mem_cons.1 hτ with rfl | hτ
      · dsimp only
        omega
      · exact (hleft τ hτ).trans (by omega)

/-! ## The condition on the turns -/

/-- how many of the readable bytes belong to the frames delivered so far, when the turn has taken a frame of length `n` at
`i`: behind a delivery as many as there was junk before the frame; a dropped frame takes its length off, or adds to them if
that is negative -/
def overhang (o : ℤ) (b : TcpBuffer) (i n : ℤ) : Option TinyPBProtocol → ℤ
  | some _ => i - b.readIndex
  | none => o - n

/-- decode comes from the first buffer, with that overhang, to the second one -/
inductive Visits : ℤ → TcpBuffer → ℤ → TcpBuffer → Prop
  | here (o : ℤ) (b : TcpBuffer) : Visits o b o b
  | turn {o o' i j n : ℤ} {b b' b'' : TcpBuffer} {message : Option TinyPBProtocol} (hf : First .storage b i j n)
      (hmove : b.moveReadIndex n = .ok b') (hparse : parse .storage b i j n = .ok message)
      (h : Visits (overhang o b i n message) b' o' b'') : Visits o b o' b''

/-- if the next turn delivers a frame, this has an id and no NUL in its texts, and the junk before it takes up the
overhang -/
def Clears (o : ℤ) (b : TcpBuffer) : Prop :=
  ∀ i j n m, First .storage b i j n → parse .storage b i j n = .ok (some m) →
    Unaltered (b.bytes i n) ∧ o ≤ i - b.readIndex

/-- a turn of a decode that returns moves the read index -/
theorem Takes.moves {i j n : ℤ} (h : Takes b ts b'') (hf : First .storage b i j n) : b.moveReadIndex n ≠ .ok b := by
  intro hsame
  induction h with
  | done hq => exact hq.not_first hf
  | drop hf' hmove' _ _ ih | deliver hf' hmove' _ _ ih =>
    obtain ⟨rfl, rfl, rfl⟩ := hf'.unique hf
    obtain rfl := Except.ok.inj (hsame.symm.trans hmove')
    exact ih hf hsame

theorem Takes.readAble {i j n : ℤ} (h : Takes b ts b'') (hf : First .storage b i j n) (hmove : b.moveReadIndex n = .ok b') :
    b'.readAble = b.readAble - n := by
  rcases moveReadIndex_readAble hmove with ⟨rfl, -⟩ | hmoved
  · exact absurd hmove (h.moves hf)
  · exact hmoved

/-- what holds wherever decode comes to, holds here and wherever the next turn leads -/
theorem forall_visits {P : ℤ → TcpBuffer → Prop} {o i j n : ℤ} {message : Option TinyPBProtocol}
    (hf : First .storage b i j n) (hmove : b.moveReadIndex n = .ok b') (hparse : parse .storage b i j n = .ok message) :
    (∀ o' b'', Visits o b o' b'' → P o' b'') ↔
      P o b ∧ ∀ o' b'', Visits (overhang o b i n message) b' o' b'' → P o' b'' := by
  constructor
  · exact fun h => ⟨h o b (.here o b), fun o' b'' hv => h o' b'' (.turn hf hmove hparse hv)⟩
  · intro ⟨hhere, hnext⟩ o' b'' hv
    cases hv with
    | here => exact hhere
    | turn hf' hmove' hparse' hv =>
      obtain ⟨rfl, rfl, rfl⟩ := hf.unique hf'
      obtain rfl := Except.ok.inj (hmove.symm.trans hmove')
      obtain rfl := Except.ok.inj (hparse.symm.trans hparse')
      exact hnext o' b'' hv

theorem clears_of_dropped {o i j n : ℤ} (hf : First .storage b i j n) (hparse : parse .storage b i j n = .ok none) :
    Clears o b := by
  intro i' j' n' m hf' hparse'
  obtain ⟨rfl, rfl, rfl⟩ := hf.unique hf'
  cases hparse.symm.trans hparse'

/-- decode returns here -/
theorem clears_of_quiet {o : ℤ} (hq : Quiet .storage b) : ∀ o' b'', Visits o b o' b'' → Clears o' b'' := by
  intro o' b'' hv
  cases hv with
  | here => exact fun i j n m hf _ => absurd hf hq.not_first
  | turn hf => exact absurd hf hq.not_first

theorem clears_iff {o i j n : ℤ} {m : TinyPBProtocol} (hf : First .storage b i j n)
    (hparse : parse .storage b i j n = .ok (some m)) : Clears o b ↔ Unaltered (b.bytes i n) ∧ o ≤ i - b.readIndex := by
  refine ⟨fun h => h i j n m hf hparse, ?_⟩
  intro h i' j' n' m' hf' _
  obtain ⟨rfl, rfl, rfl⟩ := hf.unique hf'
  exact h

/-- **The turns and the frames**: every turn is as it should be exactly if the frames that are delivered are unaltered, apart
and in order, and start behind what the overhang leaves. The induction is on the run; where the last frame ended, as a
distance from the end of the readable bytes, is `b.readAble - o`. -/
theorem Takes.clears_iff (h : Takes b ts b') (hb : b.Ranged) (hs : Slices c b) (hin : ∀ τ ∈ ts, Within c τ) (o : ℤ) :
    (∀ o' b'', Visits o b o' b'' → Clears o' b'') ↔
      (∀ τ ∈ ts, Unaltered (region c τ)) ∧ ts.Pairwise Behind ∧ ∀ τ ∈ ts, τ.left ≤ b.readAble - o := by
  induction h generalizing o with
  | done hq => exact iff_of_true (clears_of_quiet hq) ⟨by simp, .nil, by simp⟩
  | drop hf hmove hparse hrest ih =>
    have htakes := Takes.drop hf hmove hparse hrest
    have hleft := htakes.readAble hf hmove
    rw [forall_visits hf hmove hparse, and_iff_right (clears_of_dropped hf hparse),
      ih (moveReadIndex_ranged hb hmove).1 (moveReadIndex_slices hb hs hmove) hin, hleft]
    simp only [overhang, sub_sub, add_sub_cancel]
  | deliver hf hmove hparse hrest ih =>
    have htakes := Takes.deliver hf hmove hparse hrest
    have hleft := htakes.readAble hf hmove
    obtain ⟨r, -, hlen, rfl⟩ := parse_some hf.2.frame hparse
    have hpk : (received r).pkLen = frameLen r := rfl
    have hregion := hs.region hf.2.frame.inside.1 (hin _ List.mem_cons_self) (by omega)
    rw [hpk, ← hlen] at hregion
    rw [forall_visits hf hmove hparse, TinyPB.clears_iff hf hparse,
      ih (moveReadIndex_ranged hb hmove).1 (moveReadIndex_slices hb hs hmove)
        (fun τ hτ => hin τ (List.mem_cons_of_mem _ hτ)), hleft, List.forall_mem_cons, List.pairwise_cons,
      List.forall_mem_cons, hregion]
    simp only [overhang, Behind, hpk, TcpBuffer.readAble]
    constructor
    · rintro ⟨⟨hfirst, ho⟩, hrest, hpair, hbehind⟩
      refine ⟨⟨hfirst, hrest⟩, ⟨fun τ hτ => ?_, hpair⟩, by omega, fun τ hτ => ?_⟩
      · have := hbehind τ hτ
        omega
      · have := hbehind τ hτ
        omega
    · rintro ⟨⟨hfirst, hrest⟩, ⟨hbehind, hpair⟩, ho, -⟩
      refine ⟨⟨hfirst, by omega⟩, hrest, hpair, fun τ hτ => ?_⟩
      have := hbehind τ hτ
      omega

/-- **Soundness**: a decode that returns has taken every message from a frame; as far as these lie in the readable bytes,
each backs its message, and they are in order and apart, exactly if each turn that delivers a frame finds it with an id and
no NUL in its texts, behind at least as much junk as the turns before have left readable of frames that were delivered -/
theorem decode_sound (hb : b.WF) (hd : Decodes out b (.ok (out', b'))) :
    ∃ ts, Takes b ts b' ∧ out' = out ++ ts.map (·.message) ∧
      ((∀ τ ∈ ts, Within b.content τ) →
        (SoundIn b.content ts ↔ ∀ o b'', Visits 0 b o b'' → Clears o b'')) := by
  obtain ⟨ts, hts, hout⟩ := takes_of_decodes hd
  refine ⟨ts, hts, hout, fun hin => ?_⟩
  have hframes := hts.frames hb.ranged (content_slices hb)
  have hone : ∀ τ ∈ ts, IsBacked (region b.content τ) τ.message ↔ Unaltered (region b.content τ) := by
    intro τ hτ
    obtain ⟨r, hr, hm⟩ := hframes τ hτ (hin τ hτ)
    rw [hm]
    exact backed_iff hr
  have hinside : ∀ τ ∈ ts, τ.left ≤ b.readAble - 0 := by
    intro τ hτ
    rw [sub_zero, hb.layout.readAble_eq]
    exact (hin τ hτ).inside
  rw [hts.clears_iff hb.ranged (content_slices hb) hin]
  constructor
  · exact fun h => ⟨fun τ hτ => (hone τ hτ).1 (h.backed τ hτ), h.ordered, hinside⟩
  · exact fun h => ⟨fun τ hτ => (hone τ hτ).2 (h.1 τ hτ), h.2.1⟩

end

/-- one frame, and nothing else -/
def oneFrame (m : TinyPBProtocol) : TcpBuffer := ⟨frame m, 0, frameLen m⟩

theorem oneFrame_layout (m : TinyPBProtocol) : Layout (oneFrame m) [] (frame m) [] :=
  ⟨by simp [oneFrame], rfl, by simp [oneFrame]⟩

theorem decode_sound_one : ∃ ts, Takes (oneFrame (sent {})) ts { oneFrame (sent {}) with writeIndex := 0 } ∧
    ts.map (·.message) = [sent {}] ∧ SoundIn (oneFrame (sent {})).content ts := by
  have hl := oneFrame_layout (sent {})
  have hfirst : First .storage (oneFrame (sent {})) 0 34 35 := scan_first.1 (by decide +kernel)
  have hmove : (oneFrame (sent {})).moveReadIndex 35 = .ok { oneFrame (sent {}) with writeIndex := 0 } := by decide
  have hparse : parse .storage (oneFrame (sent {})) 0 34 35 = .ok (some (sent {})) := by decide +kernel
  have hquiet : Quiet .storage { oneFrame (sent {}) with writeIndex := 0 } := scan_quiet.1 (by decide)
  have htakes : Takes (oneFrame (sent {})) [⟨35, sent {}⟩] { oneFrame (sent {}) with writeIndex := 0 } :=
    .deliver hfirst hmove hparse (.done hquiet)
  have hturn : Loop.Turn (decodeTurn .storage) ([], oneFrame (sent {}))
      ([sent {}], { oneFrame (sent {}) with writeIndex := 0 }) :=
    decodeTurn_turns.2 ⟨0, 34, 35, _, hfirst, hmove, hparse, rfl⟩
  have hd : Decodes [] (oneFrame (sent {})) (.ok ([sent {}], { oneFrame (sent {}) with writeIndex := 0 })) :=
    (Loop.ends_turn hturn).2 (Loop.ends_of_return (decodeTurn_returns.2 ⟨hquiet, rfl⟩))
  obtain ⟨ts, hts, hout, hiff⟩ := decode_sound hl.wf hd
  refine ⟨ts, hts, hout.symm, ?_⟩
  obtain ⟨rfl, -⟩ := hts.unique htakes
  have hc : (oneFrame (sent {})).content = frame (sent {}) := hl.content_eq
  refine (hiff ?_).2 ((forall_visits hfirst hmove hparse).2 ⟨(clears_iff hfirst hparse).2 ⟨?_, le_rfl⟩,
    clears_of_quiet hquiet⟩)
  · intro τ hτ
    obtain rfl := List.mem_singleton.1 hτ
    exact ⟨le_rfl, by rw [hc, frame_length]; decide⟩
  · have hbytes : (oneFrame (sent {})).bytes 0 35 = frame (sent {}) := by decide
    rw [hbytes]
    exact ⟨sent {}, frame_frameOf (by decide) (by decide), by decide, by decide, by decide, by decide⟩

theorem SameButChecksum.length_eq {x y : List UInt8} (h : SameButChecksum x y) : x.length = y.length := by
  obtain ⟨p, check, check', e, rfl, rfl, h1, h2⟩ := h
  simp only [List.length_append, h1, h2]

/-- an id with a NUL in it: the message that is delivered has the id "a", and its frame would be two bytes shorter; no
bytes at all back it -/
theorem cut_at_nul :
    let b := oneFrame { msgId := [97, 0, 98] }
    let m := received { msgId := [97, 0, 98] }
    (∃ b', Loop.Ends (decodeTurn .readable) ([], b) (.ok ([m], b')) ∧ Decodes [] b (.ok ([m], b'))) ∧
      ∀ bytes, ¬ IsBacked bytes m := by
  intro b m
  have hends : ∀ mode, Loop.Ends (decodeTurn mode) ([], b) (.ok ([m], { b with writeIndex := 0 })) := by
    intro mode
    have h1 : Loop.Turn (decodeTurn mode) ([], b) ([m], { b with writeIndex := 0 }) := by
      unfold Loop.Turn
      cases mode <;> decide +kernel
    have h2 : Quiet mode { b with writeIndex := 0 } := by
      apply scan_quiet.1
      cases mode <;> decide
    exact (Loop.ends_turn h1).2 (Loop.ends_of_return (decodeTurn_returns.2 ⟨h2, rfl⟩))
  refine ⟨⟨_, hends .readable, hends .storage⟩, ?_⟩
  intro bytes h
  obtain ⟨bs, m', henc, hsame⟩ := h.encoded
  have hbs : bs.length = 27 := by
    have heq : encoderTinyPB m = .ok (frame (withId m), sent m) := encoderTinyPB_eq (by decide)
    rw [heq] at henc
    obtain ⟨rfl, -⟩ := Prod.mk.inj (Except.ok.inj henc)
    decide
  have hpk : (bytes.length : ℤ) = 29 := h.length.trans (by decide)
  rw [hsame.length_eq, hbs] at hpk
  omega

end MCoroRpc.TinyPB
