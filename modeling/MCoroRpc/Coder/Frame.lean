/-
Frames in a buffer: what decode does where the content starts with a whole frame.

- `load_part`: the pieces of a frame are found at their places, whatever they contain.
- `probe_frame`, `scan_frame`, `parse_frame`: the scan stops at the frame and its fields are read back.
- `decodeTurn_frame`, `reach_wire`: one turn takes one frame, a run takes a list of them.

`PositionsFit` is the condition under which no position leaves `int` on the way.
-/
import MCoroRpc.Coder.TinyPB

namespace MCoroRpc.TinyPB

open CInt TcpBuffer Result

/-! ## One frame -/

@[simp] theorem frame_length (m : TinyPBProtocol) : (frame m).length = frameLen m := by
  simp [frame, parts, frameLen]; omega

/-- the fields of a message that the codec carries through -/
structure WithinLimits (m : TinyPBProtocol) : Prop where
  msgId : m.msgId.length < 100
  methodName : m.methodName.length < 512
  errInfo : m.errInfo.length < 512
  msgIdNul : 0 ∉ m.msgId
  methodNameNul : 0 ∉ m.methodName
  errInfoNul : 0 ∉ m.errInfo
  errCode : IsInt m.errCode

section
variable {b : TcpBuffer} {pre c post : List UInt8} {m : TinyPBProtocol}

theorem load_content (mode : Mode) (h : Layout b pre c post) {x y z : List UInt8} (hc : c = x ++ (y ++ z)) {i n : ℤ}
    (hi : i = pre.length + x.length) (hn : n = y.length) : load mode b i n = .ok y := by
  have hb : b.buffer = (pre ++ x) ++ (y ++ (z ++ post)) := by rw [h.buffer, hc]; simp
  have hin : Inside mode b i n := by
    have hs := h.size_eq
    have hl : c.length = x.length + (y.length + z.length) := by rw [hc]; simp
    cases mode <;> simp only [Inside] <;> [skip; rw [h.read, h.write]] <;> omega
  simp only [load, hin, or_true, if_true]
  rw [Layout.bytes_of_append hb (by rw [hi]; simp) hn]

theorem load_part (mode : Mode) (h : Layout b pre (frame m ++ c) post) (k : ℕ) {p : List UInt8}
    (hk : (parts m)[k]? = some p) {i n : ℤ} (hi : i = pre.length + ((parts m).take k).flatten.length)
    (hn : n = p.length) : load mode b i n = .ok p := by
  obtain ⟨hlt, hp⟩ := List.getElem?_eq_some_iff.1 hk
  refine load_content mode h (x := ((parts m).take k).flatten) (z := ((parts m).drop (k + 1)).flatten ++ c) ?_ hi hn
  have hsplit : parts m = (parts m).take k ++ (p :: (parts m).drop (k + 1)) := by
    rw [← hp, ← List.drop_eq_getElem_cons hlt, List.take_append_drop]
  conv_lhs => rw [frame, hsplit]
  simp

theorem loadInt_part (mode : Mode) (h : Layout b pre (frame m ++ c) post) (k : ℕ) {x : ℤ} (hx : IsInt x)
    (hk : (parts m)[k]? = some (toNet x)) {i : ℤ} (hi : i = pre.length + ((parts m).take k).flatten.length) :
    loadInt mode b i = .ok x := by
  simp only [loadInt, load_part mode h k hk hi (by simp : (4 : ℤ) = ((toNet x).length : ℤ)), ok_bind, pure_ok,
    ofNet_toNet hx]

theorem frameLen_ge (m : TinyPBProtocol) : 26 ≤ frameLen m := by unfold frameLen; omega

/-- the scan meets the frame at once -/
theorem probe_frame (mode : Mode) (h : Layout b pre (frame m ++ c) post)
    (hfit : (pre.length + frameLen m : ℤ) < 2147483648) :
    probe mode b pre.length = .ok (some (pre.length + frameLen m - 1, frameLen m)) := by
  have h26 := frameLen_ge m
  have hw := h.write
  simp only [List.length_append, frame_length] at hw
  have h0 : load mode b pre.length 1 = .ok [PB_START] := load_part mode h 0 rfl (by simp) (by simp)
  have h1 : addInt pre.length 1 = .ok (pre.length + 1) := addInt_ok ⟨by omega, by omega⟩
  have h2 : loadInt mode b (pre.length + 1) = .ok (frameLen m : ℤ) :=
    loadInt_part mode h 1 ⟨by omega, by omega⟩ rfl (by simp [parts])
  have h3 : addInt pre.length (frameLen m) = .ok (pre.length + frameLen m) := addInt_ok ⟨by omega, by omega⟩
  have h4 : addInt (pre.length + frameLen m) (-1) = .ok (pre.length + frameLen m - 1) := by
    rw [sub_eq_add_neg]
    exact addInt_ok ⟨by omega, by omega⟩
  have h5 : load mode b (pre.length + frameLen m - 1) 1 = .ok [PB_END] := by
    refine load_part mode h 11 rfl ?_ (by simp)
    simp [parts, frameLen]; omega
  have hlt : (pre.length : ℤ) + 1 < b.writeIndex := by omega
  have hle : ¬ b.writeIndex < (pre.length : ℤ) + frameLen m - 1 := by omega
  simp only [probe, h0, ok_bind, if_true, h1, hlt, h2, h3, h4, hle, if_false, h5, pure_ok]

/-- the message as the encoder leaves it and the decoder delivers it -/
def sent (m : TinyPBProtocol) : TinyPBProtocol :=
  { withId m with
    pkLen := frameLen (withId m), msgIdLen := (withId m).msgId.length, methodNameLen := (withId m).methodName.length,
    errInfoLen := (withId m).errInfo.length, parseSuccess := true }

/-- equal in what the caller sees: the five fields that are sent -/
structure SameFields (m m' : TinyPBProtocol) : Prop where
  msgId : m.msgId = m'.msgId
  methodName : m.methodName = m'.methodName
  errCode : m.errCode = m'.errCode
  errInfo : m.errInfo = m'.errInfo
  pbData : m.pbData = m'.pbData

theorem withId_of_ne {m : TinyPBProtocol} (h : m.msgId ≠ []) : withId m = m := by
  simp only [withId, h, if_false]

/-- what the receiver of an answer looks at -/
theorem sent_payload (m : TinyPBProtocol) : (sent m).errCode = m.errCode ∧ (sent m).pbData = m.pbData := by
  simp only [sent, withId]
  split_ifs <;> exact ⟨rfl, rfl⟩

theorem takeWhile_ne_zero {bs : List UInt8} (h : 0 ∉ bs) : bs.takeWhile (· ≠ 0) = bs := by
  induction bs with
  | nil => rfl
  | cons x bs ih =>
    simp only [List.mem_cons, not_or] at h
    rw [List.takeWhile_cons, if_pos (by simpa using Ne.symm h.1), ih h.2]

/-- a fixed field takes a string that leaves room for its terminating NUL and holds none itself -/
theorem copyField_part (mode : Mode) (h : Layout b pre (frame m ++ c) post) (k : ℕ) {p : List UInt8} {cap : ℤ}
    (hcap : (p.length : ℤ) < cap) (hnul : 0 ∉ p) (hk : (parts m)[k]? = some p) {i : ℤ}
    (hi : i = pre.length + ((parts m).take k).flatten.length) : copyField mode b cap i p.length = .ok p := by
  have h1 : ¬ ((p.length : ℤ) < 0 ∨ cap < p.length + room mode) := by
    cases mode <;> simp only [room] <;> omega
  have h2 : ¬ ((p.length : ℤ) = cap ∧ 0 ∉ p) := by omega
  simp only [copyField, h1, if_false, load_part mode h k hk hi rfl, ok_bind, h2, pure_ok, takeWhile_ne_zero hnul]

/-- a length and the string of that length -/
theorem lenField_part (mode : Mode) (h : Layout b pre (frame m ++ c) post) (k : ℕ) {p : List UInt8} {cap i : ℤ}
    (hcap : (p.length : ℤ) < cap) (hsmall : cap ≤ 512) (hnul : 0 ∉ p) (hlen : (parts m)[k]? = some (toNet p.length))
    (hk : (parts m)[k + 1]? = some p) (hi : i = pre.length + ((parts m).take k).flatten.length)
    (hi' : i + 4 = pre.length + ((parts m).take (k + 1)).flatten.length) (hfit : IsInt (i + 4 + p.length)) :
    lenField mode b cap i = .ok (p.length, p, i + 4 + p.length) := by
  have hint : IsInt (i + 4) := ⟨by omega, by have := hfit.2; omega⟩
  have h1 : loadInt mode b i = .ok (p.length : ℤ) := loadInt_part mode h k ⟨by omega, by omega⟩ hlen hi
  have h2 : copyField mode b cap (i + 4) p.length = .ok p := copyField_part mode h (k + 1) hcap hnul hk hi'
  simp only [lenField, h1, ok_bind, toInt_of_isInt hint, h2, addInt_ok hfit, pure_ok]

/-- a fixed field is overrun by a string without NUL that fills it -/
theorem copyField_overrun (mode : Mode) (h : Layout b pre (frame m ++ c) post) (k : ℕ) {p : List UInt8} {cap : ℤ}
    (hcap : cap ≤ p.length) (hnul : 0 ∉ p) (hk : (parts m)[k]? = some p) {i : ℤ}
    (hi : i = pre.length + ((parts m).take k).flatten.length) : copyField mode b cap i p.length = .error .overrun := by
  by_cases h1 : (p.length : ℤ) < 0 ∨ cap < p.length + room mode
  · simp only [copyField, h1, if_true, throw_error, error_bind]
  · -- what is left is the string of exactly `cap` bytes: it is copied, and no NUL ends it
    have h2 : (p.length : ℤ) = cap ∧ 0 ∉ p := by
      refine ⟨?_, hnul⟩
      cases mode <;> simp only [room] at h1 <;> omega
    simp only [copyField, h1, if_false, load_part mode h k hk hi rfl, ok_bind]
    rw [if_pos h2, throw_error, error_bind]

/-- where the length of the error text stands -/
def errInfoLenIndex (start : ℤ) (m : TinyPBProtocol) : ℤ := start + 17 + m.msgId.length + m.methodName.length

/-- the fields before the error text are read back -/
theorem parse_head (mode : Mode) (h : Layout b pre (frame m ++ c) post) (hid : m.msgId.length < 100)
    (hidNul : 0 ∉ m.msgId) (hname : m.methodName.length < 512) (hnameNul : 0 ∉ m.methodName) (hcode : IsInt m.errCode)
    (hfit : (pre.length + frameLen m : ℤ) < 2147483648) :
    parse mode b pre.length (pre.length + frameLen m - 1) (frameLen m) = (do
      let (errInfoLen, errInfo, pbDataIndex) ← lenField mode b 512 (errInfoLenIndex pre.length m)
      let pbDataLen := frameLen m - errInfoLen - m.msgId.length - m.methodName.length - 26
      if pbDataLen < 0 then throw .lengthError
      let pbData ← load mode b pbDataIndex pbDataLen
      return some ⟨m.msgId, frameLen m, m.msgId.length, m.methodName.length, m.methodName, m.errCode, errInfoLen,
        errInfo, pbData, true⟩) := by
  have hL : frameLen m = 26 + m.msgId.length + m.methodName.length + m.errInfo.length + m.pbData.length := rfl
  -- the positions behind the fields, all of them before the end of the frame
  set k1 : ℤ := pre.length + 5 + 4 + m.msgId.length with hk1
  set k2 : ℤ := k1 + 4 + m.methodName.length with hk2
  have e0 : ¬ (pre.length + frameLen m - 1 : ℤ) ≤ pre.length + 5 := by omega
  have e1 : ¬ (pre.length + frameLen m - 1 : ℤ) ≤ k1 := by omega
  have e2 : ¬ (pre.length + frameLen m - 1 : ℤ) ≤ k2 := by omega
  have e3 : ¬ (pre.length + frameLen m - 1 : ℤ) ≤ k2 + 4 := by omega
  have hint : ∀ k : ℤ, 0 ≤ k → k ≤ k2 + 4 → IsInt k := fun k h0 hk => ⟨by omega, by omega⟩
  have p0 : toInt (pre.length + 5 : ℤ) = pre.length + 5 := toInt_of_isInt (hint _ (by omega) (by omega))
  have f1 : lenField mode b 100 (pre.length + 5) = .ok (m.msgId.length, m.msgId, k1) :=
    lenField_part mode h 2 (by exact_mod_cast hid) (by omega) hidNul rfl rfl (by simp [parts])
      (by simp [parts]; ring) (hint _ (by omega) (by omega))
  have f2 : lenField mode b 512 k1 = .ok (m.methodName.length, m.methodName, k2) :=
    lenField_part mode h 4 (by exact_mod_cast hname) le_rfl hnameNul rfl rfl
      (by simp [parts, hk1]; ring) (by simp [parts, hk1]; ring) (hint _ (by omega) (by omega))
  have l3 : loadInt mode b k2 = .ok m.errCode :=
    loadInt_part mode h 6 hcode rfl (by simp [parts, hk2, hk1]; ring)
  have p3 : toInt (k2 + 4) = k2 + 4 := toInt_of_isInt (hint _ (by omega) (by omega))
  have hat : errInfoLenIndex pre.length m = k2 + 4 := by
    simp only [errInfoLenIndex, hk2, hk1]
    ring
  simp only [parse, p0, e0, if_false, f1, ok_bind, e1, f2, e2, l3, p3, e3, hat]

/-- the fields of a frame are read back -/
theorem parse_frame (mode : Mode) (h : Layout b pre (frame m ++ c) post) (hm : WithinLimits m)
    (hfit : (pre.length + frameLen m : ℤ) < 2147483648) :
    parse mode b pre.length (pre.length + frameLen m - 1) (frameLen m) =
      .ok (some ⟨m.msgId, frameLen m, m.msgId.length, m.methodName.length, m.methodName, m.errCode, m.errInfo.length,
        m.errInfo, m.pbData, true⟩) := by
  have hL : frameLen m = 26 + m.msgId.length + m.methodName.length + m.errInfo.length + m.pbData.length := rfl
  have hpb : (frameLen m : ℤ) - m.errInfo.length - m.msgId.length - m.methodName.length - 26 = m.pbData.length := by
    omega
  set k3 : ℤ := errInfoLenIndex pre.length m + 4 + m.errInfo.length with hk3
  have e4 : ¬ (m.pbData.length : ℤ) < 0 := by omega
  have f4 : lenField mode b 512 (errInfoLenIndex pre.length m) = .ok (m.errInfo.length, m.errInfo, k3) :=
    lenField_part mode h 7 (by exact_mod_cast hm.errInfo) le_rfl hm.errInfoNul rfl rfl
      (by simp [parts, errInfoLenIndex]; ring) (by simp [parts, errInfoLenIndex]; ring)
      ⟨by simp only [errInfoLenIndex]; omega, by simp only [errInfoLenIndex]; omega⟩
  have l5 : load mode b k3 m.pbData.length = .ok m.pbData :=
    load_part mode h 9 rfl (by simp [parts, hk3, errInfoLenIndex]; ring) rfl
  rw [parse_head mode h hm.msgId hm.msgIdNul hm.methodName hm.methodNameNul hm.errCode hfit, f4]
  simp only [ok_bind, hpb, e4, if_false, l5, pure_ok]

/-- an error text that fills its field overruns it -/
theorem parse_overrun (mode : Mode) (h : Layout b pre (frame m ++ c) post) (hid : m.msgId.length < 100)
    (hidNul : 0 ∉ m.msgId) (hname : m.methodName.length < 512) (hnameNul : 0 ∉ m.methodName) (hcode : IsInt m.errCode)
    (hinfo : 512 ≤ m.errInfo.length) (hinfoNul : 0 ∉ m.errInfo) (hfit : (pre.length + frameLen m : ℤ) < 2147483648) :
    parse mode b pre.length (pre.length + frameLen m - 1) (frameLen m) = .error .overrun := by
  have hL : frameLen m = 26 + m.msgId.length + m.methodName.length + m.errInfo.length + m.pbData.length := rfl
  have hlen : loadInt mode b (errInfoLenIndex pre.length m) = .ok (m.errInfo.length : ℤ) :=
    loadInt_part mode h 7 ⟨by omega, by omega⟩ rfl (by simp [parts, errInfoLenIndex]; ring)
  have hint : toInt (errInfoLenIndex pre.length m + 4) = errInfoLenIndex pre.length m + 4 :=
    toInt_of_isInt ⟨by simp only [errInfoLenIndex]; omega, by simp only [errInfoLenIndex]; omega⟩
  have hcopy : copyField mode b 512 (errInfoLenIndex pre.length m + 4) m.errInfo.length = .error .overrun :=
    copyField_overrun mode h 8 (by exact_mod_cast hinfo) hinfoNul rfl (by simp [parts, errInfoLenIndex]; ring)
  rw [parse_head mode h hid hidNul hname hnameNul hcode hfit, lenField, hlen]
  simp only [ok_bind, hint, hcopy, error_bind]

/-- the scan stops at the frame it starts on -/
theorem scan_frame (mode : Mode) (h : Layout b pre (frame m ++ c) post)
    (hfit : (pre.length + frameLen m : ℤ) < 2147483648) :
    scan mode b (b.writeIndex - pre.length).toNat pre.length =
      .ok (some (pre.length, pre.length + frameLen m - 1, frameLen m)) := by
  have h26 := frameLen_ge m
  have hw := h.write
  simp only [List.length_append, frame_length] at hw
  obtain ⟨n, hn⟩ : ∃ n, (b.writeIndex - pre.length).toNat = n + 1 :=
    ⟨(b.writeIndex - pre.length).toNat - 1, by omega⟩
  simp only [hn, scan, probe_frame mode h hfit, ok_bind, pure_ok]

end

/-! ## Runs of decode over whole frames -/

/-- the bytes of a list of messages -/
def wire (ms : List TinyPBProtocol) : List UInt8 := (ms.map fun m => frame (withId m)).flatten

/-- the lengths of their frames -/
def lens (ms : List TinyPBProtocol) : List ℕ := ms.map fun m => frameLen (withId m)

@[simp] theorem wire_nil : wire [] = [] := rfl

@[simp] theorem wire_cons (m : TinyPBProtocol) (ms : List TinyPBProtocol) :
    wire (m :: ms) = frame (withId m) ++ wire ms := rfl

@[simp] theorem lens_nil : lens [] = [] := rfl

@[simp] theorem lens_cons (m : TinyPBProtocol) (ms : List TinyPBProtocol) :
    lens (m :: ms) = frameLen (withId m) :: lens ms := rfl

theorem wire_length (ms : List TinyPBProtocol) : (wire ms).length = (lens ms).sum := by
  induction ms with
  | nil => rfl
  | cons m ms ih => simp [ih]

theorem WithinLimits.withId {m : TinyPBProtocol} (h : WithinLimits m) : WithinLimits (withId m) := by
  unfold TinyPB.withId
  split_ifs with hid
  · exact ⟨by simp [defaultMsgId], h.methodName, h.errInfo, by simp [defaultMsgId], h.methodNameNul, h.errInfoNul,
      h.errCode⟩
  · exact h

/-- the read index moved over one frame after the other -/
def skip : List ℕ → TcpBuffer → Except Fault TcpBuffer
  | [], b => .ok b
  | n :: ns, b => do skip ns (← b.moveReadIndex n)

/-- the positions that decode computes on frames of these lengths, from the read index `k` on, are `int`; behind a frame
that ends in the first third the read index stays, behind any other the buffer is compacted -/
def PositionsFit (size : ℤ) : ℤ → List ℕ → Prop
  | k, [] => k < 2147483648
  | k, n :: ns => k + n < 2147483648 ∧ PositionsFit size (if k + n < size / 3 then k + n else 0) ns

theorem positionsFit_of_sum {size k : ℤ} {ns : List ℕ} (hk : 0 ≤ k) (h : k + ns.sum < 2147483648) :
    PositionsFit size k ns := by
  induction ns generalizing k with
  | nil => simpa [PositionsFit] using h
  | cons n ns ih =>
    simp only [List.sum_cons, Nat.cast_add] at h
    refine ⟨by omega, ?_⟩
    split_ifs
    · exact ih (by omega) (by omega)
    · exact ih le_rfl (by omega)

section
variable {b : TcpBuffer} {pre c post : List UInt8} {m : TinyPBProtocol} {ms : List TinyPBProtocol}
  (out : List TinyPBProtocol)

/-- the positions of the frames of a buffer that is smaller than `int` -/
theorem positionsFit_of_layout (h : Layout b pre (wire ms) post) (hsize : b.size < 2147483648) :
    PositionsFit b.size pre.length (lens ms) := by
  have hs := h.size_eq
  rw [wire_length] at hs
  exact positionsFit_of_sum (by omega) (by omega)

/-- **one turn** takes one frame and delivers its message -/
theorem decodeTurn_frame (mode : Mode) (h : Layout b pre (frame (withId m) ++ c) post) (hm : WithinLimits m)
    (hfit : (pre.length + frameLen (withId m) : ℤ) < 2147483648) {b' : TcpBuffer}
    (hb : b.moveReadIndex (frameLen (withId m)) = .ok b') :
    Loop.Turn (decodeTurn mode) (out, b) (out ++ [sent m], b') := by
  have hstart : toInt b.readIndex = pre.length := by rw [h.read]; exact toInt_of_isInt ⟨by omega, by omega⟩
  have hmove : (pre.length + frameLen (withId m) - 1 - pre.length + 1 : ℤ) = frameLen (withId m) := by ring
  simp only [Loop.Turn, decodeTurn, hstart, scan_frame mode h hfit, ok_bind, hmove, hb,
    parse_frame mode h hm.withId hfit, pure_ok, Option.toList]
  rfl

/-- a buffer without content ends the loop -/
theorem decodeTurn_nil (mode : Mode) (h : Layout b pre [] post) (hfit : (pre.length : ℤ) < 2147483648) :
    decodeTurn mode (out, b) = .ok (.inr (out, b)) := by
  have hstart : toInt b.readIndex = pre.length := by rw [h.read]; exact toInt_of_isInt ⟨by omega, by omega⟩
  have hw : (b.writeIndex - pre.length).toNat = 0 := by rw [h.write]; simp
  simp only [decodeTurn, hstart, hw, scan, ok_bind, pure_ok]

/-- the read index moved over one frame: left where it is, or at the front after a compaction -/
theorem moveReadIndex_cases {x y : List UInt8} (h : Layout b pre (x ++ y) post) :
    ((pre.length + x.length : ℤ) < b.size / 3 ∧ ∃ b', b.moveReadIndex x.length = .ok b' ∧
        Layout b' (pre ++ x) y post ∧ b'.size = b.size) ∨
      (b.size / 3 ≤ (pre.length + x.length : ℤ) ∧ ∃ b' post', b.moveReadIndex x.length = .ok b' ∧
        Layout b' [] y post' ∧ b'.size = b.size) := by
  obtain ⟨h1, h2⟩ := moveReadIndex_eq h
  have hr : (({ b with readIndex := b.readIndex + x.length } : TcpBuffer)).readIndex = pre.length + x.length := by
    rw [h2.read]; simp
  have hs : (({ b with readIndex := b.readIndex + x.length } : TcpBuffer)).size = b.size := rfl
  rw [h1]
  by_cases hlt : (pre.length + x.length : ℤ) < b.size / 3
  · exact .inl ⟨hlt, _, adjustBuffer_of_lt (by rw [hr, hs]; exact hlt), h2, rfl⟩
  · obtain ⟨b', post', h3, h4, h5⟩ := adjustBuffer_of_le h2 (by rw [hr, hs]; exact not_lt.1 hlt)
    exact .inr ⟨not_lt.1 hlt, b', post', h3, h4, h5⟩

/-- **the run** over whole frames delivers their messages and leaves what stands behind them -/
theorem reach_wire (mode : Mode) (hm : ∀ m ∈ ms, WithinLimits m) (h : Layout b pre (wire ms ++ c) post)
    (hfit : PositionsFit b.size pre.length (lens ms)) :
    ∃ b' pre' post', Loop.Reach (decodeTurn mode) (out, b) (out ++ ms.map sent, b') ∧ skip (lens ms) b = .ok b' ∧
      Layout b' pre' c post' ∧ (pre'.length : ℤ) < 2147483648 ∧ b'.size = b.size := by
  induction ms generalizing b pre post out with
  | nil => exact ⟨b, pre, post, by simpa using Loop.Reach.refl _, rfl, by simpa using h, hfit, rfl⟩
  | cons m ms ih =>
    obtain ⟨hfit1, hfit2⟩ := hfit
    have hl : Layout b pre (frame (withId m) ++ (wire ms ++ c)) post := by simpa using h
    have hms : ∀ m' ∈ ms, WithinLimits m' := fun m' h' => hm m' (List.mem_cons_of_mem m h')
    have hstep : ∀ b1 pre1 post1, b.moveReadIndex (frameLen (withId m)) = .ok b1 → Layout b1 pre1 (wire ms ++ c) post1 →
        b1.size = b.size → PositionsFit b1.size pre1.length (lens ms) →
        ∃ b' pre' post', Loop.Reach (decodeTurn mode) (out, b) (out ++ (m :: ms).map sent, b') ∧
          skip (lens (m :: ms)) b = .ok b' ∧ Layout b' pre' c post' ∧ (pre'.length : ℤ) < 2147483648 ∧
          b'.size = b.size := by
      intro b1 pre1 post1 hmv hl1 hs1 hf1
      obtain ⟨b', pre', post', h1, h2, h3, h4, h5⟩ := ih (out ++ [sent m]) hms hl1 hf1
      refine ⟨b', pre', post', ?_, by simp only [lens_cons, skip, hmv, ok_bind, h2], h3, h4, h5.trans hs1⟩
      have hturn := decodeTurn_frame out mode hl (hm m List.mem_cons_self) hfit1 hmv
      simpa using Loop.Reach.head hturn h1
    rcases moveReadIndex_cases hl with ⟨hlt, b1, h1, h2, h3⟩ | ⟨hge, b1, post1, h1, h2, h3⟩
    · rw [frame_length] at h1 hlt
      rw [if_pos hlt] at hfit2
      apply hstep b1 _ post h1 h2 h3
      rw [h3, List.length_append, frame_length]
      push_cast
      exact hfit2
    · rw [frame_length] at h1 hge
      rw [if_neg (not_lt.2 hge)] at hfit2
      exact hstep b1 [] post1 h1 h2 h3 (by rw [h3]; exact hfit2)

end

end MCoroRpc.TinyPB
