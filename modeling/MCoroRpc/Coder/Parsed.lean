/-
What a frame is that decode delivers: it has the parts of an encoded frame, whatever its strings and its checksum are.

The lengths are read one after the other and the payload is what the declared length leaves. A frame is delivered only if
that is not negative, so that the parts fill the frame and every one of them lies in it (`parse_some`). Of each string
decode keeps what stands before its first NUL (`received`).
-/
import MCoroRpc.Coder.Bounds
import MCoroRpc.Coder.Unique

namespace MCoroRpc.TinyPB

open CInt TcpBuffer Result

/-- the frame of a message with any bytes for the checksum -/
def frameWith (check : List UInt8) (r : TinyPBProtocol) : List UInt8 := PB_START :: (body r ++ (check ++ [PB_END]))

/-- the bytes are a frame with the fields of `r` -/
def FrameOf (bytes : List UInt8) (r : TinyPBProtocol) : Prop :=
  ∃ check, bytes = frameWith check r ∧ check.length = 4 ∧ IsInt r.errCode ∧ frameLen r < 2147483648

/-- the message that decode makes of the fields -/
def received (r : TinyPBProtocol) : TinyPBProtocol where
  msgId := r.msgId.takeWhile (· ≠ 0)
  pkLen := frameLen r
  msgIdLen := r.msgId.length
  methodNameLen := r.methodName.length
  methodName := r.methodName.takeWhile (· ≠ 0)
  errCode := r.errCode
  errInfoLen := r.errInfo.length
  errInfo := r.errInfo.takeWhile (· ≠ 0)
  pbData := r.pbData
  parseSuccess := true

section
variable {b : TcpBuffer} {i j k n cap : ℤ} {m r r' : TinyPBProtocol} {bytes : List UInt8}

theorem frameWith_one : frame r = frameWith (toNet 1) r := frame_eq r

theorem frameWith_length {check : List UInt8} (h : check.length = 4) : (frameWith check r).length = frameLen r := by
  simp only [frameWith, body, field, List.length_cons, List.length_append, toNet_length, h, List.length_nil, frameLen]
  omega

/-- **The fields of a frame** are determined by its bytes -/
theorem FrameOf.unique (h : FrameOf bytes r) (h' : FrameOf bytes r') : SameFields r r' := by
  obtain ⟨check, rfl, -, hcode, hlt⟩ := h
  obtain ⟨check', he, -, hcode', hlt'⟩ := h'
  simp only [frameWith, List.cons.injEq, true_and] at he
  exact (body_prefixFree _ _ ⟨hcode, hlt⟩ ⟨hcode', hlt'⟩ _ _ he).1

/-! ## Reads of the storage -/

theorem bytes_add {x y : ℤ} (hi : 0 ≤ i) (hx : 0 ≤ x) (hy : 0 ≤ y) :
    b.bytes i (x + y) = b.bytes i x ++ b.bytes (i + x) y := by
  simp only [bytes, Int.toNat_add hx hy, Int.toNat_add hi hx, List.take_add, List.drop_drop]

/-- a part at the front of the bytes up to `k` -/
theorem bytes_cut {x : ℤ} (hi : 0 ≤ i) (hx : 0 ≤ x) (hk : i + x ≤ k) (hpart : b.bytes i x = bytes) :
    b.bytes i (k - i) = bytes ++ b.bytes (i + x) (k - (i + x)) := by
  rw [show k - i = x + (k - (i + x)) by ring, bytes_add hi hx (by omega), hpart]

theorem bytes_length (h : Inside .storage b i n) (hn : 0 ≤ n) : ((b.bytes i n).length : ℤ) = n := by
  have hs : b.size = b.buffer.length := rfl
  obtain ⟨h0, hle⟩ := h
  simp only [bytes, List.length_take, List.length_drop]
  omega

theorem load_some {bs : List UInt8} (h : load .storage b i n = .ok bs) :
    bs = b.bytes i n ∧ (n = 0 ∨ Inside .storage b i n) := by
  simp only [load] at h
  split_ifs at h with hin
  exact ⟨(Except.ok.inj h).symm, hin⟩

theorem loadInt_some {x : ℤ} (h : loadInt .storage b i = .ok x) : b.bytes i 4 = toNet x ∧ IsInt x := by
  obtain ⟨hin, rfl⟩ := loadInt_eq_ok.1 h
  have hlen : (b.bytes i 4).length = 4 := by
    have hcast := bytes_length hin (by omega)
    omega
  rw [lenAt]
  exact ⟨(toNet_ofNet hlen).symm, isInt_toInt _⟩

theorem lenField_nonneg {len next : ℤ} {s : List UInt8} (h : lenField .storage b cap k = .ok (len, s, next)) :
    0 ≤ len ∧ next = toInt (k + 4) + len := by
  simp only [lenField, bind_eq_ok, pure_ok, Except.ok.injEq, Prod.mk.injEq] at h
  obtain ⟨len', -, s', hcopy, next', hnext, rfl, rfl, rfl⟩ := h
  refine ⟨?_, (addInt_eq_ok.1 hnext).2⟩
  by_contra hneg
  have hthrow : len' < 0 ∨ cap < len' + room .storage := .inl (not_le.1 hneg)
  simp only [copyField, hthrow, if_true, throw_error, error_bind, reduceCtorEq] at hcopy

/-- what a field of decode is, if its string does not begin outside of `int` -/
theorem lenField_some {len next : ℤ} {s : List UInt8} (hk : IsInt (k + 4)) (h0 : 0 ≤ k)
    (h : lenField .storage b cap k = .ok (len, s, next)) :
    ∃ raw : List UInt8, len = raw.length ∧ s = raw.takeWhile (· ≠ 0) ∧ next = k + 4 + raw.length ∧
      b.bytes k (4 + raw.length) = field raw := by
  simp only [lenField, bind_eq_ok, pure_ok, Except.ok.injEq, Prod.mk.injEq, toInt_of_isInt hk] at h
  obtain ⟨len', hlen, s', hcopy, next', hnext, rfl, rfl, rfl⟩ := h
  obtain ⟨hbytes, -⟩ := loadInt_some hlen
  obtain ⟨-, rfl⟩ := addInt_eq_ok.1 hnext
  simp only [copyField] at hcopy
  by_cases hneg : len' < 0 ∨ cap < len' + room .storage
  · simp only [hneg, if_true, throw_error, error_bind, reduceCtorEq] at hcopy
  simp only [hneg, if_false, bind_eq_ok] at hcopy
  obtain ⟨raw, hload, hcopy⟩ := hcopy
  obtain ⟨rfl, hin⟩ := load_some hload
  have hpos : 0 ≤ len' := by omega
  have hraw : ((b.bytes (k + 4) len').length : ℤ) = len' := by
    rcases hin with rfl | hin
    · simp [bytes]
    · exact bytes_length hin hpos
  by_cases hfull : len' = cap ∧ 0 ∉ b.bytes (k + 4) len'
  · rw [if_pos hfull, throw_error, error_bind] at hcopy
    cases hcopy
  rw [if_neg hfull, pure_ok, Except.ok.injEq] at hcopy
  refine ⟨b.bytes (k + 4) len', hraw.symm, hcopy.symm, by rw [hraw], ?_⟩
  rw [hraw, bytes_add h0 (by omega) hpos, hbytes, field, hraw]

/-! ## The frame -/

/-- where the fields of a frame at `i` stand -/
structure Reads (b : TcpBuffer) (i n : ℤ) (r : TinyPBProtocol) : Prop where
  msgId : b.bytes (i + 5) (4 + r.msgId.length) = field r.msgId
  methodName : b.bytes (i + 9 + r.msgId.length) (4 + r.methodName.length) = field r.methodName
  errCode : b.bytes (i + 13 + r.msgId.length + r.methodName.length) 4 = toNet r.errCode
  int : IsInt r.errCode
  errInfo : b.bytes (i + 17 + r.msgId.length + r.methodName.length) (4 + r.errInfo.length) = field r.errInfo
  pbData : b.bytes (i + 21 + r.msgId.length + r.methodName.length + r.errInfo.length) r.pbData.length = r.pbData
  length : n = frameLen r

/-- what parse has read on its way to a message -/
theorem parse_steps (h : parse .storage b i j n = .ok (some m)) :
    ∃ len1 s1 k1 len2 s2 k2 code len4 s4 k4 pb, lenField .storage b 100 (toInt (i + 5)) = .ok (len1, s1, k1) ∧
      k1 < j ∧ lenField .storage b 512 k1 = .ok (len2, s2, k2) ∧ k2 < j ∧ loadInt .storage b k2 = .ok code ∧
      lenField .storage b 512 (toInt (k2 + 4)) = .ok (len4, s4, k4) ∧ 0 ≤ n - len4 - len1 - len2 - 26 ∧
      load .storage b k4 (n - len4 - len1 - len2 - 26) = .ok pb ∧
      m = ⟨s1, n, len1, len2, s2, code, len4, s4, pb, true⟩ := by
  simp only [parse] at h
  by_cases e0 : j ≤ toInt (i + 5)
  · simp only [e0, if_true, pure_ok, Except.ok.injEq, reduceCtorEq] at h
  simp only [e0, if_false, bind_eq_ok] at h
  obtain ⟨⟨len1, s1, k1⟩, f1, h⟩ := h
  by_cases e1 : j ≤ k1
  · simp only [e1, if_true, pure_ok, Except.ok.injEq, reduceCtorEq] at h
  simp only [e1, if_false, bind_eq_ok] at h
  obtain ⟨⟨len2, s2, k2⟩, f2, h⟩ := h
  by_cases e2 : j ≤ k2
  · simp only [e2, if_true, pure_ok, Except.ok.injEq, reduceCtorEq] at h
  simp only [e2, if_false, bind_eq_ok] at h
  obtain ⟨code, f3, h⟩ := h
  by_cases e3 : j ≤ toInt (k2 + 4)
  · simp only [e3, if_true, pure_ok, Except.ok.injEq, reduceCtorEq] at h
  simp only [e3, if_false, bind_eq_ok] at h
  obtain ⟨⟨len4, s4, k4⟩, f4, h⟩ := h
  by_cases e4 : n - len4 - len1 - len2 - 26 < 0
  · simp only [e4, if_true, throw_error, error_bind, reduceCtorEq] at h
  simp only [e4, if_false, bind_eq_ok, pure_ok, Except.ok.injEq, Option.some.injEq] at h
  obtain ⟨pb, f5, hm⟩ := h
  exact ⟨len1, s1, k1, len2, s2, k2, code, len4, s4, k4, pb, f1, not_le.1 e1, f2, not_le.1 e2, f3, f4, not_lt.1 e4, f5,
    hm.symm⟩

theorem parse_reads (hf : FrameAt .storage b i j n) (h : parse .storage b i j n = .ok (some m)) :
    ∃ r, Reads b i n r ∧ m = received r := by
  have h0 : 0 ≤ i := hf.inside.1
  have hlast : i + n < 2147483648 := hf.ints.1.2
  obtain ⟨len1, s1, k1, len2, s2, k2, code, len4, s4, k4, pb, f1, e1, f2, e2, f3, f4, e4, f5, rfl⟩ := parse_steps h
  -- the lengths are not negative, so that no position is narrowed
  obtain ⟨hlen1, hk1⟩ := lenField_nonneg f1
  obtain ⟨hlen2, hk2⟩ := lenField_nonneg f2
  obtain ⟨hlen4, hk4⟩ := lenField_nonneg f4
  have hint : ∀ k, 0 ≤ k → k ≤ i + n → IsInt k := fun k hk hle => ⟨by omega, by omega⟩
  have p0 : toInt (i + 5) = i + 5 := toInt_of_isInt (hint _ (by omega) (by omega))
  rw [p0] at f1 hk1
  rw [toInt_of_isInt (hint (i + 5 + 4) (by omega) (by omega))] at hk1
  rw [toInt_of_isInt (hint (k1 + 4) (by omega) (by omega))] at hk2
  have p3 : toInt (k2 + 4) = k2 + 4 := toInt_of_isInt (hint _ (by omega) (by omega))
  rw [p3] at f4 hk4
  rw [toInt_of_isInt (hint (k2 + 4 + 4) (by omega) (by omega))] at hk4
  obtain ⟨raw1, rfl, rfl, -, b1⟩ := lenField_some (hint _ (by omega) (by omega)) (by omega) f1
  obtain ⟨raw2, rfl, rfl, -, b2⟩ := lenField_some (hint _ (by omega) (by omega)) (by omega) f2
  obtain ⟨b3, hcode⟩ := loadInt_some f3
  obtain ⟨raw4, rfl, rfl, -, b4⟩ := lenField_some (hint _ (by omega) (by omega)) (by omega) f4
  obtain ⟨rfl, hin⟩ := load_some f5
  set pbLen : ℤ := n - raw4.length - raw1.length - raw2.length - 26 with hpbLen
  have hpb : ((b.bytes k4 pbLen).length : ℤ) = pbLen := by
    rcases hin with hz | hin
    · simp [bytes, hz]
    · exact bytes_length hin (by omega)
  have pos1 : k1 = i + 9 + raw1.length := by omega
  have pos2 : k2 = i + 13 + raw1.length + raw2.length := by omega
  have pos3 : k2 + 4 = i + 17 + raw1.length + raw2.length := by omega
  have pos4 : k4 = i + 21 + raw1.length + raw2.length + raw4.length := by omega
  refine ⟨{ msgId := raw1, methodName := raw2, errCode := code, errInfo := raw4, pbData := b.bytes k4 pbLen },
    ⟨b1, pos1 ▸ b2, pos2 ▸ b3, hcode, pos3 ▸ b4, ?_, ?_⟩, ?_⟩
  · dsimp only
    rw [← pos4, hpb]
  · simp only [frameLen]
    push_cast
    omega
  · simp only [received, frameLen, TinyPBProtocol.mk.injEq, true_and, and_true]
    push_cast
    omega

/-- the parts fill the frame -/
theorem Reads.frameOf (h : Reads b i n r) (hf : FrameAt .storage b i j n) : FrameOf (b.bytes i n) r := by
  obtain ⟨b1, b2, b3, hcode, b4, b5, hn⟩ := h
  have h0 : 0 ≤ i := hf.inside.1
  have hj : j = i + n - 1 := hf.last
  have hlast : i + n < 2147483648 := hf.ints.1.2
  have hL : frameLen r = 26 + r.msgId.length + r.methodName.length + r.errInfo.length + r.pbData.length := rfl
  have hlen : b.bytes (i + 1) 4 = toNet n := (loadInt_some (loadInt_eq_ok.2 hf.length)).1
  obtain ⟨k1, hk1⟩ : ∃ k1, k1 = i + 9 + r.msgId.length := ⟨_, rfl⟩
  obtain ⟨k2, hk2⟩ : ∃ k2, k2 = i + 13 + r.msgId.length + r.methodName.length := ⟨_, rfl⟩
  obtain ⟨k4, hk4⟩ : ∃ k4, k4 = i + 21 + r.msgId.length + r.methodName.length + r.errInfo.length := ⟨_, rfl⟩
  obtain ⟨k5, hk5⟩ : ∃ k5, k5 = k4 + r.pbData.length := ⟨_, rfl⟩
  rw [← hk1] at b2
  rw [← hk2] at b3
  rw [show i + 17 + (r.msgId.length : ℤ) + r.methodName.length = k2 + 4 by omega] at b4
  rw [← hk4] at b5
  have hend : b.bytes (k5 + 4) 1 = [PB_END] := by
    rw [show k5 + 4 = j by omega]
    exact hf.stop
  -- each part is cut off the front
  have c0 := bytes_cut h0 (by omega) (show i + 1 ≤ i + n by omega) hf.start
  have c1 := bytes_cut (by omega) (by omega) (show i + 1 + 4 ≤ i + n by omega) hlen
  have c2 := bytes_cut (by omega) (by omega) (show i + 5 + (4 + r.msgId.length) ≤ i + n by omega) b1
  have c3 := bytes_cut (by omega) (by omega) (show k1 + (4 + r.methodName.length) ≤ i + n by omega) b2
  have c4 := bytes_cut (by omega) (by omega) (show k2 + 4 ≤ i + n by omega) b3
  have c5 := bytes_cut (by omega) (by omega) (show k2 + 4 + (4 + r.errInfo.length) ≤ i + n by omega) b4
  have c6 := bytes_cut (by omega) (by omega) (show k4 + r.pbData.length ≤ i + n by omega) b5
  have c7 : b.bytes k5 (i + n - k5) = b.bytes k5 4 ++ [PB_END] := by
    rw [show i + n - k5 = 4 + 1 by omega, bytes_add (by omega) (by omega) (by omega), hend]
  rw [show i + 1 + 4 = i + 5 by ring] at c1
  rw [show i + 5 + (4 + (r.msgId.length : ℤ)) = k1 by omega] at c2
  rw [show k1 + (4 + (r.methodName.length : ℤ)) = k2 by omega] at c3
  rw [show k2 + 4 + (4 + (r.errInfo.length : ℤ)) = k4 by omega] at c5
  rw [← hk5] at c6
  refine ⟨b.bytes k5 4, ?_, ?_, hcode, by omega⟩
  · rw [show i + n - i = n by ring, c1, c2, c3, c4, c5, c6, c7] at c0
    rw [c0]
    simp only [frameWith, body, hn, List.append_assoc]
    rfl
  · have hstorage := hf.insideEnd.2
    have hin : Inside .storage b k5 4 := ⟨by omega, by omega⟩
    have hcast := bytes_length hin (by omega)
    omega

/-- **A frame that is delivered** has the parts of an encoded frame, one behind the other, and fills them -/
theorem parse_some (hf : FrameAt .storage b i j n) (h : parse .storage b i j n = .ok (some m)) :
    ∃ r, FrameOf (b.bytes i n) r ∧ n = frameLen r ∧ m = received r := by
  obtain ⟨r, hr, hm⟩ := parse_reads hf h
  exact ⟨r, hr.frameOf hf, hr.length, hm⟩

end

end MCoroRpc.TinyPB
