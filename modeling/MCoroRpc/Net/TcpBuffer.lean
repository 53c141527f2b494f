/-
`net::TcpBuffer`: a growing byte buffer with a read and a write index (src/tcp_buffer.cc).

The storage is a list of bytes, the two indices are integers: nothing in the class keeps them in order, and an index
beyond the other makes the copies of `adjustBuffer` and `writeToBuffer` run out of the storage, which is `Fault`.
Sizes and indices are 64-bit in the source; no storage comes near 2^63 bytes, so they are plain integers here.

The content of a buffer is what stands between its indices. `Layout b pre c post` cuts the storage into the bytes
before the read index, the content `c` and the left-overs from the write index on. Each operation has one lemma that
says what it does to a layout:
- `writeToBuffer` appends to the content, with or without growth (`writeToBuffer_layout`);
- `moveReadIndex` drops from its front, with or without compaction (`moveReadIndex_layout`);
- `recvInto`, a `recv` into the free space followed by `moveWriteIndex`, appends what arrived (`recvInto_layout`);
- `readFromBuffer` takes a piece of its front out (`readFromBuffer_layout`);
- `moveWriteIndex` takes what stands behind it in (`moveWriteIndex_layout`);
- `resizeBuffer` and `adjustBuffer` keep it.
-/
import MCoroRpc.Core.Result

namespace MCoroRpc

/-- what stops a piece of the code other than by returning -/
inductive Fault where
  /-- an element outside of what may be read or written -/
  | outOfBounds
  /-- overflow of a signed `int` -/
  | overflow
  /-- a copy that does not fit its fixed destination -/
  | overrun
  /-- the exception `std::length_error` -/
  | lengthError
deriving DecidableEq, Repr

structure TcpBuffer where
  buffer : List UInt8
  readIndex : ℤ
  writeIndex : ℤ
deriving DecidableEq, Repr

namespace TcpBuffer

open Result

/-! ## Model -/

/-- the constructor -/
def make (size : ℕ) : TcpBuffer := ⟨List.replicate size 0, 0, 0⟩

/-- `m_buffer.size()` -/
def size (b : TcpBuffer) : ℤ := b.buffer.length

def readAble (b : TcpBuffer) : ℤ := b.writeIndex - b.readIndex

def writeAble (b : TcpBuffer) : ℤ := b.size - b.writeIndex

/-- `n` bytes of the storage from index `i` on -/
def bytes (b : TcpBuffer) (i n : ℤ) : List UInt8 := (b.buffer.drop i.toNat).take n.toNat

/-- `n` bytes copied over the storage at the write index -/
def overwrite (b : TcpBuffer) (bs : List UInt8) : List UInt8 :=
  b.buffer.take b.writeIndex.toNat ++ bs ++ b.buffer.drop (b.writeIndex.toNat + bs.length)

def resizeBuffer (newSize : ℤ) (b : TcpBuffer) : Except Fault TcpBuffer :=
  if newSize ≤ b.size then .ok b
  else
    let count := b.readAble
    if 0 < count then
      if 0 ≤ b.readIndex ∧ b.writeIndex ≤ b.size then
        .ok ⟨b.bytes b.readIndex count ++ List.replicate (newSize - count).toNat 0, 0, count⟩
      else .error .outOfBounds
    else .ok ⟨List.replicate newSize.toNat 0, 0, count⟩

def adjustBuffer (b : TcpBuffer) : Except Fault TcpBuffer :=
  if b.readIndex < b.size / 3 then .ok b
  else if b.readAble = 0 then .ok { b with readIndex := 0, writeIndex := 0 }
  else
    let count := b.readAble
    if 0 ≤ count ∧ b.writeIndex ≤ b.size then
      .ok ⟨b.bytes b.readIndex count ++ b.buffer.drop count.toNat, 0, count⟩
    else .error .outOfBounds

/-- the comparison with `m_buffer.size()` is unsigned: a negative index is refused as too large -/
def moveReadIndex (n : ℤ) (b : TcpBuffer) : Except Fault TcpBuffer :=
  let newIndex := b.readIndex + n
  if newIndex < 0 ∨ b.size < newIndex then .ok b else adjustBuffer { b with readIndex := newIndex }

def moveWriteIndex (n : ℤ) (b : TcpBuffer) : Except Fault TcpBuffer :=
  let newIndex := b.writeIndex + n
  if newIndex < 0 ∨ b.size < newIndex then .ok b else adjustBuffer { b with writeIndex := newIndex }

def writeToBuffer (bs : List UInt8) (b : TcpBuffer) : Except Fault TcpBuffer := do
  let b ← if b.writeAble < bs.length then resizeBuffer ((b.writeIndex + bs.length) * 3 / 2) b else .ok b
  if 0 ≤ b.writeIndex ∧ b.writeIndex + bs.length ≤ b.size then
    .ok { b with buffer := b.overwrite bs, writeIndex := b.writeIndex + bs.length }
  else .error .outOfBounds

/-- `re.insert` of a range that ends before it begins has no meaning; it is reached with the indices out of order -/
def readFromBuffer (re : List UInt8) (size : ℤ) (b : TcpBuffer) : Except Fault (TcpBuffer × List UInt8) := do
  if b.readAble = 0 then return (b, re)
  let readSize := min b.readAble size
  if 0 ≤ readSize ∧ 0 ≤ b.readIndex ∧ b.readIndex + readSize ≤ b.size then
    let b' ← adjustBuffer { b with readIndex := b.readIndex + readSize }
    return (b', re ++ b.bytes b.readIndex readSize)
  else throw .outOfBounds

/-- `recv` of `bs` into the free space at `writeableHead()`, then `moveWriteIndex` -/
def recvInto (bs : List UInt8) (b : TcpBuffer) : Except Fault TcpBuffer :=
  moveWriteIndex bs.length { b with buffer := b.overwrite bs }

/-! ## Layouts -/

/-- the storage is `pre ++ c ++ post`, with the read index behind `pre` and the write index behind `c` -/
structure Layout (b : TcpBuffer) (pre c post : List UInt8) : Prop where
  buffer : b.buffer = pre ++ (c ++ post)
  read : b.readIndex = pre.length
  write : b.writeIndex = pre.length + c.length

/-- 0 ≤ read index ≤ write index ≤ size -/
structure WF (b : TcpBuffer) : Prop where
  read : 0 ≤ b.readIndex
  order : b.readIndex ≤ b.writeIndex
  write : b.writeIndex ≤ b.size

/-- the readable bytes -/
def content (b : TcpBuffer) : List UInt8 := b.bytes b.readIndex b.readAble

/-- the left-overs from the write index on -/
def rest (b : TcpBuffer) : List UInt8 := b.buffer.drop b.writeIndex.toNat

/-- the bytes before the read index -/
def consumed (b : TcpBuffer) : List UInt8 := b.buffer.take b.readIndex.toNat

theorem WF.layout {b : TcpBuffer} (h : WF b) : Layout b b.consumed b.content b.rest := by
  obtain ⟨h1, h2, h3⟩ := h
  have hs : b.size = b.buffer.length := rfl
  obtain ⟨r, hr⟩ := Int.eq_ofNat_of_zero_le h1
  obtain ⟨w, hw⟩ := Int.eq_ofNat_of_zero_le (h1.trans h2)
  have hlen : (b.buffer.take r).length = r := by simp; omega
  have hc : b.content = (b.buffer.drop r).take (w - r) := by
    simp only [content, bytes, readAble, hr, hw, Int.toNat_natCast, Int.toNat_sub]
  refine ⟨?_, by rw [consumed, hr, Int.toNat_natCast, hlen], ?_⟩
  · have hd : b.buffer.drop w = (b.buffer.drop r).drop (w - r) := by rw [List.drop_drop]; congr 1; omega
    rw [hc, rest, consumed, hr, hw, Int.toNat_natCast, Int.toNat_natCast, hd, List.take_append_drop,
      List.take_append_drop]
  · rw [hc, consumed, hr, hw, Int.toNat_natCast, hlen, List.length_take, List.length_drop]
    omega

namespace Layout

variable {b : TcpBuffer} {pre c post : List UInt8}

theorem size_eq (h : Layout b pre c post) : b.size = pre.length + c.length + post.length := by
  simp only [size, h.buffer, List.length_append]; push_cast; ring

theorem readAble_eq (h : Layout b pre c post) : b.readAble = c.length := by
  simp only [readAble, h.read, h.write]; ring

theorem wf (h : Layout b pre c post) : WF b := by
  have hs := h.size_eq
  refine ⟨?_, ?_, ?_⟩
  · rw [h.read]; omega
  · rw [h.read, h.write]; omega
  · rw [h.write, hs]; omega

/-- a piece of the storage, found by what stands before it -/
theorem bytes_of_append {x y z : List UInt8} (hb : b.buffer = x ++ (y ++ z)) {i n : ℤ} (hi : i = x.length)
    (hn : n = y.length) : b.bytes i n = y := by
  simp only [bytes, hi, hn, Int.toNat_natCast, hb, List.drop_left, List.take_left]

theorem content_eq (h : Layout b pre c post) : b.content = c :=
  bytes_of_append h.buffer h.read h.readAble_eq

theorem overwrite_eq {x y : List UInt8} (h : Layout b pre c (x ++ y)) {bs : List UInt8} (hl : bs.length = x.length) :
    b.overwrite bs = pre ++ (c ++ (bs ++ y)) := by
  have hw : b.writeIndex.toNat = (pre ++ c).length := by rw [h.write]; simp; omega
  have hb : b.buffer = (pre ++ c) ++ (x ++ y) := by rw [h.buffer]; simp
  have hd : ((pre ++ c) ++ (x ++ y)).drop ((pre ++ c).length + x.length) = y := by
    rw [← List.append_assoc, show (pre ++ c).length + x.length = ((pre ++ c) ++ x).length by simp; omega,
      List.drop_left]
  rw [overwrite, hw, hb, hl, hd, List.take_left]
  simp

end Layout

theorem wf_iff_layout (b : TcpBuffer) : WF b ↔ ∃ pre c post, Layout b pre c post :=
  ⟨fun h => ⟨_, _, _, h.layout⟩, fun ⟨_, _, _, h⟩ => h.wf⟩

theorem make_size (n : ℕ) : (make n).size = n := by simp [make, size]

theorem make_layout (n : ℕ) : Layout (make n) [] [] (List.replicate n 0) := ⟨rfl, rfl, rfl⟩

/-! ## What the operations do to a layout -/

section
variable {b : TcpBuffer} {pre c post : List UInt8}

/-- a buffer whose read index is in the first third stays as it is -/
theorem adjustBuffer_of_lt (h : b.readIndex < b.size / 3) : adjustBuffer b = .ok b := by
  simp only [adjustBuffer, h, if_true]

/-- otherwise the content moves to the front; the left-overs are what then stands behind it -/
theorem adjustBuffer_of_le (h : Layout b pre c post) (hr : b.size / 3 ≤ b.readIndex) :
    ∃ b' post', adjustBuffer b = .ok b' ∧ Layout b' [] c post' ∧ b'.size = b.size := by
  have hra := h.readAble_eq
  have hsz := h.size_eq
  have hlt : ¬ b.readIndex < b.size / 3 := by omega
  by_cases hc : c = []
  · subst hc
    have h0 : b.readAble = 0 := by simpa using hra
    refine ⟨{ b with readIndex := 0, writeIndex := 0 }, b.buffer, by simp only [adjustBuffer, hlt, h0, if_true, if_false],
      ⟨rfl, rfl, rfl⟩, rfl⟩
  · have h0 : b.readAble ≠ 0 := by rw [hra]; simpa using hc
    have hw : 0 ≤ b.readAble ∧ b.writeIndex ≤ b.size := ⟨by omega, by rw [h.write]; omega⟩
    have hcont : b.bytes b.readIndex b.readAble = c := h.content_eq
    refine ⟨⟨c ++ b.buffer.drop c.length, 0, c.length⟩, b.buffer.drop c.length, ?_, ⟨by simp, by simp, by simp⟩, ?_⟩
    · simp only [adjustBuffer, hlt, h0, hw, hcont, if_false, and_self, if_true]
      rw [hra, Int.toNat_natCast]
    · have hle : c.length ≤ b.buffer.length := by simp only [size] at hsz; omega
      simp only [size, List.length_append, List.length_drop]; omega

theorem adjustBuffer_layout (h : Layout b pre c post) :
    ∃ b' pre' post', adjustBuffer b = .ok b' ∧ Layout b' pre' c post' ∧ b'.size = b.size ∧
      b'.writeIndex ≤ b.writeIndex := by
  by_cases hr : b.readIndex < b.size / 3
  · exact ⟨b, pre, post, adjustBuffer_of_lt hr, h, rfl, le_rfl⟩
  · obtain ⟨b', post', h1, h2, h3⟩ := adjustBuffer_of_le h (not_lt.1 hr)
    refine ⟨b', [], post', h1, h2, h3, ?_⟩
    rw [h2.write, h.write]; simp

/-- the move itself, before the buffer is adjusted -/
theorem moveReadIndex_eq {x y : List UInt8} (h : Layout b pre (x ++ y) post) :
    moveReadIndex x.length b = adjustBuffer { b with readIndex := b.readIndex + x.length } ∧
      Layout { b with readIndex := b.readIndex + x.length } (pre ++ x) y post := by
  have hsz := h.size_eq
  have hr := h.read
  simp only [List.length_append] at hsz
  refine ⟨?_, ⟨by simp [h.buffer], by simp [hr], by simp [h.write]; ring⟩⟩
  simp only [moveReadIndex]
  rw [if_neg (by rw [hr]; push_cast at hsz; omega)]

/-- **moveReadIndex** drops from the front of the content -/
theorem moveReadIndex_layout {x y : List UInt8} (h : Layout b pre (x ++ y) post) :
    ∃ b' pre' post', moveReadIndex x.length b = .ok b' ∧ Layout b' pre' y post' ∧ b'.size = b.size ∧
      b'.writeIndex ≤ b.writeIndex := by
  obtain ⟨h1, h2⟩ := moveReadIndex_eq h
  rw [h1]
  exact adjustBuffer_layout h2

/-- a move that does not pass the write index keeps the order of the indices; one before the storage is refused -/
theorem moveReadIndex_wf (hb : WF b) {n : ℤ} (hn : n ≤ b.readAble) : ∃ b', moveReadIndex n b = .ok b' ∧ WF b' := by
  simp only [readAble] at hn
  by_cases hneg : b.readIndex + n < 0
  · exact ⟨b, by simp only [moveReadIndex, hneg, true_or, if_true], hb⟩
  · have hle : ¬ b.size < b.readIndex + n := by have := hb.write; omega
    have hb1 : WF { b with readIndex := b.readIndex + n } := ⟨by simp only; omega, by simp only; omega, hb.write⟩
    obtain ⟨b', pre', post', h1, h2, -⟩ := adjustBuffer_layout hb1.layout
    exact ⟨b', by simp only [moveReadIndex, hneg, hle, or_self, if_false, h1], h2.wf⟩

/-- both indices inside the storage; the read index may have passed the write index -/
structure Ranged (b : TcpBuffer) : Prop where
  read : 0 ≤ b.readIndex ∧ b.readIndex ≤ b.size
  write : 0 ≤ b.writeIndex ∧ b.writeIndex ≤ b.size

theorem WF.ranged (h : WF b) : Ranged b := by
  obtain ⟨h1, h2, h3⟩ := h
  exact ⟨⟨h1, h2.trans h3⟩, h1.trans h2, h3⟩

theorem adjustBuffer_ranged (hb : Ranged b) {b' : TcpBuffer} (h : adjustBuffer b = .ok b') :
    Ranged b' ∧ b'.size = b.size := by
  obtain ⟨⟨h1, h2⟩, h3, h4⟩ := hb
  simp only [adjustBuffer] at h
  split_ifs at h with c1 c2 c3
  · rw [← Except.ok.inj h]
    exact ⟨⟨⟨h1, h2⟩, h3, h4⟩, rfl⟩
  · rw [← Except.ok.inj h]
    have h0 : 0 ≤ b.size := h1.trans h2
    exact ⟨⟨⟨le_rfl, h0⟩, le_rfl, h0⟩, rfl⟩
  · rw [← Except.ok.inj h]
    have hs : b.size = b.buffer.length := rfl
    have hlen : size ⟨b.bytes b.readIndex b.readAble ++ b.buffer.drop b.readAble.toNat, 0, b.readAble⟩ = b.size := by
      simp only [size, bytes, readAble, List.length_append, List.length_take, List.length_drop] at *
      omega
    refine ⟨⟨⟨le_rfl, ?_⟩, c3.1, ?_⟩, hlen⟩
    · rw [hlen]
      exact h1.trans h2
    · rw [hlen]
      simp only [readAble]
      omega

/-- a move changes neither the storage's size nor the range of the indices -/
theorem moveReadIndex_ranged (hb : Ranged b) {n : ℤ} {b' : TcpBuffer} (h : moveReadIndex n b = .ok b') :
    Ranged b' ∧ b'.size = b.size := by
  simp only [moveReadIndex] at h
  split_ifs at h with hc
  · rw [← Except.ok.inj h]
    exact ⟨hb, rfl⟩
  · have h1 : 0 ≤ b.readIndex + n ∧ b.readIndex + n ≤ b.size := by omega
    exact adjustBuffer_ranged (b := { b with readIndex := b.readIndex + n }) ⟨h1, hb.write⟩ h

theorem adjustBuffer_readAble {b' : TcpBuffer} (h : adjustBuffer b = .ok b') : b'.readAble = b.readAble := by
  simp only [adjustBuffer] at h
  split_ifs at h with h1 h2 h3
  · rw [Except.ok.inj h]
  · rw [← Except.ok.inj h, h2]; rfl
  · rw [← Except.ok.inj h]; simp only [readAble, sub_zero]

/-- for any buffer: the move is refused, or as many bytes are gone -/
theorem moveReadIndex_readAble {n : ℤ} {b' : TcpBuffer} (h : moveReadIndex n b = .ok b') :
    b' = b ∧ (b.readIndex + n < 0 ∨ b.size < b.readIndex + n) ∨ b'.readAble = b.readAble - n := by
  simp only [moveReadIndex] at h
  split_ifs at h with hc
  · exact .inl ⟨(Except.ok.inj h).symm, hc⟩
  · right
    rw [adjustBuffer_readAble h]
    simp only [readAble]; ring

/-- the bytes that a read of `n` takes out, and what the buffer keeps -/
theorem readFromBuffer_layout (h : Layout b pre c post) (re : List UInt8) (n : ℕ) :
    ∃ b' pre' post', readFromBuffer re n b = .ok (b', re ++ c.take n) ∧ Layout b' pre' (c.drop n) post' := by
  have hra := h.readAble_eq
  have hsz := h.size_eq
  by_cases hc : c = []
  · subst hc
    have h0 : b.readAble = 0 := by simpa using hra
    exact ⟨b, pre, post, by simp only [readFromBuffer, h0, if_true, pure_ok, List.take_nil, List.append_nil],
      by rwa [List.drop_nil]⟩
  · have h0 : b.readAble ≠ 0 := by
      rw [hra]
      simpa using hc
    have hx : (c.take n).length = min n c.length := List.length_take
    have hmin : min b.readAble n = ((c.take n).length : ℤ) := by
      rw [hra, hx]
      omega
    have h' : Layout b pre (c.take n ++ c.drop n) post := by rwa [List.take_append_drop]
    obtain ⟨-, hmoved⟩ := moveReadIndex_eq h'
    have hguard : 0 ≤ ((c.take n).length : ℤ) ∧ 0 ≤ b.readIndex ∧ b.readIndex + (c.take n).length ≤ b.size := by
      rw [h.read]
      omega
    have hbytes : b.bytes b.readIndex (c.take n).length = c.take n :=
      Layout.bytes_of_append (z := c.drop n ++ post) (by rw [h'.buffer, List.append_assoc]) h.read rfl
    obtain ⟨b', pre', post', h1, h2, -⟩ := adjustBuffer_layout hmoved
    refine ⟨b', pre', post', ?_, h2⟩
    simp only [readFromBuffer, h0, if_false, hmin, hguard, and_self, if_true, h1, hbytes, pure_ok, ok_bind]

/-- **moveWriteIndex** takes what stands behind the write index into the content -/
theorem moveWriteIndex_layout {x y : List UInt8} (h : Layout b pre c (x ++ y)) :
    ∃ b' pre' post', moveWriteIndex x.length b = .ok b' ∧ Layout b' pre' (c ++ x) post' ∧ b'.size = b.size ∧
      b'.writeIndex ≤ b.writeIndex + x.length := by
  have hsz := h.size_eq
  have hw := h.write
  simp only [List.length_append] at hsz
  have h1 : Layout { b with writeIndex := b.writeIndex + x.length } pre (c ++ x) y :=
    ⟨by simp [h.buffer], h.read, by simp [hw]; ring⟩
  obtain ⟨b', pre', post', h2, h3, h4, h5⟩ := adjustBuffer_layout h1
  refine ⟨b', pre', post', ?_, h3, h4, h5⟩
  simp only [moveWriteIndex]
  rw [if_neg (by rw [hw]; push_cast at hsz; omega), h2]

/-- growth: the content moves to the front of a larger storage, zero behind it -/
theorem resizeBuffer_layout (h : Layout b pre c post) {n : ℤ} (hn : b.size < n) :
    ∃ b', resizeBuffer n b = .ok b' ∧ Layout b' [] c (List.replicate (n - c.length).toNat 0) := by
  have hra := h.readAble_eq
  have hsz := h.size_eq
  have hnle : ¬ n ≤ b.size := by omega
  by_cases hc : 0 < b.readAble
  · have hw : 0 ≤ b.readIndex ∧ b.writeIndex ≤ b.size := by rw [h.read, h.write]; omega
    have hcont : b.bytes b.readIndex b.readAble = c := h.content_eq
    refine ⟨⟨c ++ List.replicate (n - c.length).toNat 0, 0, c.length⟩, ?_, ⟨by simp, by simp, by simp⟩⟩
    simp only [resizeBuffer, hnle, hc, hw, hcont, if_false, if_true, and_self]
    rw [hra]
  · have hnil : c = [] := by rw [hra] at hc; simpa using hc
    subst hnil
    refine ⟨⟨List.replicate n.toNat 0, 0, 0⟩, ?_, ⟨by simp, rfl, rfl⟩⟩
    have h0 : b.readAble = 0 := by simpa using hra
    simp only [resizeBuffer, hnle, h0, lt_irrefl, if_false]

theorem overwrite_layout (h : Layout b pre c post) {bs : List UInt8} (hfit : (bs.length : ℤ) ≤ b.writeAble) :
    Layout { b with buffer := b.overwrite bs, writeIndex := b.writeIndex + bs.length } pre (c ++ bs)
      (post.drop bs.length) := by
  have hle : bs.length ≤ post.length := by
    simp only [writeAble, h.size_eq, h.write] at hfit; omega
  have h' : Layout b pre c (post.take bs.length ++ post.drop bs.length) := by rwa [List.take_append_drop]
  refine ⟨?_, h.read, ?_⟩
  · rw [Layout.overwrite_eq h' (by simp; omega)]; simp
  · simp only [h.write, List.length_append]; push_cast; ring

/-- **writeToBuffer** appends to the content: in place where it fits, in a larger storage otherwise -/
theorem writeToBuffer_layout (h : Layout b pre c post) (bs : List UInt8) :
    ∃ b' pre' post', writeToBuffer bs b = .ok b' ∧ Layout b' pre' (c ++ bs) post' ∧
      ((bs.length : ℤ) ≤ b.writeAble → pre' = pre ∧ b'.size = b.size) ∧ (b.writeAble < bs.length → pre' = []) := by
  by_cases hfit : (bs.length : ℤ) ≤ b.writeAble
  · refine ⟨_, pre, post.drop bs.length, ?_, overwrite_layout h hfit, fun _ => ⟨rfl, ?_⟩, fun hc => by omega⟩
    · have hw : 0 ≤ b.writeIndex ∧ b.writeIndex + bs.length ≤ b.size := by
        simp only [writeAble] at hfit; rw [h.write] at hfit ⊢; omega
      simp only [writeToBuffer, if_neg (not_lt.2 hfit), hw, and_self, if_true, bind, Except.bind]
    · have h2 := (overwrite_layout h hfit).size_eq
      rw [h2, h.size_eq]
      simp only [writeAble, h.size_eq, h.write] at hfit
      simp only [List.length_append, List.length_drop]; push_cast; omega
  · have hlt : b.writeAble < bs.length := not_le.1 hfit
    have hsz := h.size_eq
    have hbig : b.size < (b.writeIndex + bs.length) * 3 / 2 := by
      simp only [writeAble] at hlt; rw [h.write] at hlt ⊢; omega
    obtain ⟨b1, h1, h2⟩ := resizeBuffer_layout h hbig
    have hfit1 : (bs.length : ℤ) ≤ b1.writeAble := by
      simp only [writeAble, h2.size_eq, h2.write, List.length_replicate, List.length_nil]
      rw [h.write]
      push_cast; omega
    have hw : 0 ≤ b1.writeIndex ∧ b1.writeIndex + bs.length ≤ b1.size := by
      simp only [writeAble] at hfit1; rw [h2.write] at hfit1 ⊢; omega
    refine ⟨_, [], _, ?_, overwrite_layout h2 hfit1, fun hc => absurd hc hfit, fun _ => rfl⟩
    simp only [writeToBuffer, if_pos hlt, h1, bind, Except.bind, hw, and_self, if_true]

/-- **recv** appends what arrived, if it fits the free space -/
theorem recvInto_layout (h : Layout b pre c post) {bs : List UInt8} (hfit : (bs.length : ℤ) ≤ b.writeAble) :
    ∃ b' pre' post', recvInto bs b = .ok b' ∧ Layout b' pre' (c ++ bs) post' ∧ b'.size = b.size ∧
      b'.writeIndex ≤ b.writeIndex + bs.length := by
  have hover := overwrite_layout h hfit
  have hbytes : Layout { b with buffer := overwrite b bs } pre c (bs ++ post.drop bs.length) :=
    ⟨by rw [← List.append_assoc c]; exact hover.buffer, h.read, h.write⟩
  have hsize : size { b with buffer := overwrite b bs } = b.size := by
    have hle := hfit
    simp only [writeAble, h.size_eq, h.write] at hle
    rw [hbytes.size_eq, h.size_eq]
    simp only [List.length_append, List.length_drop]
    omega
  obtain ⟨b', pre', post', hmove, hlayout, hsize', hwrite⟩ := moveWriteIndex_layout hbytes
  exact ⟨b', pre', post', hmove, hlayout, hsize'.trans hsize, hwrite⟩

end

end TcpBuffer

end MCoroRpc
