/-
What a `TcpBuffer` costs over a run of calls: storage, and bytes that are copied to make room.

The class grows by half of what it needs, moves its content to the front as soon as a third of the storage stands before
it, and never shrinks.
- `copied`: the bytes that growth or `adjustBuffer` copies in a call, beside those that are written or read.
- `Effect`, `call_effect`: what a call can do to the size and the indices, with what it copies.
- `storage_le`: while no more than `M` bytes wait in the buffer, the storage stays below 9/4 of `M`, whatever passes through.
- `copies_le`: copying costs at most five bytes for each byte that comes in and two for each call.
- `stream_storage_le`, `stream_copies_le`: both for the write buffer of a stream, whoever writes and whatever `send` takes.
-/
import MCoroRpc.Net.Writing

namespace MCoroRpc

namespace TcpBuffer

open Result Machine

/-! ## What is copied -/

/-- by `resizeBuffer` -/
def resizeCopies (newSize : ℤ) (b : TcpBuffer) : ℕ := if newSize ≤ b.size then 0 else b.readAble.toNat

/-- by `adjustBuffer` -/
def adjustCopies (b : TcpBuffer) : ℕ := if b.readIndex < b.size / 3 then 0 else b.readAble.toNat

/-- what a call copies beside the bytes that are written or read -/
def copied (b : TcpBuffer) : Call → ℕ
  | .write buf => if b.writeAble < buf.length then resizeCopies ((b.writeIndex + buf.length) * 3 / 2) b else 0
  | .read _ size =>
    if b.readAble = 0 then 0 else adjustCopies { b with readIndex := b.readIndex + min b.readAble size }
  | .resize newSize => resizeCopies newSize b
  | .adjust => adjustCopies b
  | .moveRead size =>
    if b.size < b.readIndex + size then 0 else adjustCopies { b with readIndex := b.readIndex + size }
  | .moveWrite size =>
    if b.size < b.writeIndex + size then 0 else adjustCopies { b with writeIndex := b.writeIndex + size }

/-- how many bytes the call may bring in; a moveWriteIndex that is refused counts with its size, too -/
def pushed : Call → ℕ
  | .write buf => buf.length
  | .moveWrite size => size
  | _ => 0

/-! ## What a call does -/

/-- what a call can do to the size and the indices, and what it copies for it -/
inductive Effect (b b' : TcpBuffer) (c : Call) : Prop where
  /-- the content stays where it is -/
  | stays (hsize : b'.size = b.size) (hread : b'.readIndex = b.readIndex ∨ b'.readIndex < b.size / 3)
      (hwrite : b'.writeIndex ≤ b.writeIndex + pushed c) (hcopied : copied b c = 0)
  /-- between `r` and `w`, it moves to the front -/
  | compacts (r w : ℤ) (hr : b.size / 3 ≤ r) (hrw : r ≤ w) (hw : w ≤ b.size) (hpushed : w ≤ b.writeIndex + pushed c)
      (hsize : b'.size = b.size) (hread : b'.readIndex = 0) (hwrite : b'.writeIndex = w - r)
      (hcopied : copied b c = (w - r).toNat)
  /-- `writeToBuffer` needs more room -/
  | grows (hfull : b.size < b.writeIndex + pushed c) (hsize : b'.size = (b.writeIndex + pushed c) * 3 / 2)
      (hread : b'.readIndex = 0) (hwrite : b'.writeIndex = b.readAble + pushed c) (hcopied : copied b c = b.readAble.toNat)
  | resizes (n : ℕ) (hc : c = .resize n) (hn : b.size < n) (hsize : b'.size = n) (hread : b'.readIndex = 0)
      (hwrite : b'.writeIndex = b.readAble) (hcopied : copied b c = b.readAble.toNat)

variable {b : TcpBuffer}

theorem le_pushed (b : TcpBuffer) (c : Call) : b.writeIndex ≤ b.writeIndex + pushed c := by omega

theorem adjustBuffer_effect (hb : WF b) : ∃ b', adjustBuffer b = .ok b' ∧ WF b' ∧
    (b.readIndex < b.size / 3 ∧ b' = b ∧ adjustCopies b = 0 ∨
      b.size / 3 ≤ b.readIndex ∧ b'.size = b.size ∧ b'.readIndex = 0 ∧ b'.writeIndex = b.readAble ∧
        adjustCopies b = b.readAble.toNat) := by
  by_cases hr : b.readIndex < b.size / 3
  · exact ⟨b, adjustBuffer_of_lt hr, hb, .inl ⟨hr, rfl, if_pos hr⟩⟩
  · obtain ⟨b', post', h1, h2, h3⟩ := adjustBuffer_of_le hb.layout (not_lt.1 hr)
    refine ⟨b', h1, h2.wf, .inr ⟨not_lt.1 hr, h3, h2.read, ?_, if_neg hr⟩⟩
    rw [h2.write, hb.layout.readAble_eq]
    exact zero_add _

/-- the indices have been moved to where they are in `b₁`, and the buffer is adjusted -/
theorem adjust_effect {b₁ : TcpBuffer} {c : Call} (hb : WF b₁) (hsize : b₁.size = b.size)
    (hpushed : b₁.writeIndex ≤ b.writeIndex + pushed c) (hcopied : copied b c = adjustCopies b₁) :
    ∃ b', adjustBuffer b₁ = .ok b' ∧ WF b' ∧ Effect b b' c := by
  obtain ⟨b', h1, h2, ⟨hlt, rfl, hzero⟩ | ⟨hle, h3, h4, h5, h6⟩⟩ := adjustBuffer_effect hb
  · exact ⟨b', h1, h2, .stays hsize (.inr (hsize ▸ hlt)) hpushed (hcopied.trans hzero)⟩
  · exact ⟨b', h1, h2, .compacts b₁.readIndex b₁.writeIndex (hsize ▸ hle) hb.order (hsize ▸ hb.write) hpushed
      (h3.trans hsize) h4 h5 (hcopied.trans h6)⟩

theorem resizeBuffer_moves (hb : WF b) {n : ℤ} (hn : b.size < n) : ∃ b', resizeBuffer n b = .ok b' ∧ WF b' ∧
    b'.size = n ∧ b'.readIndex = 0 ∧ b'.writeIndex = b.readAble := by
  have hlen := hb.layout.readAble_eq
  obtain ⟨b', h1, h2⟩ := resizeBuffer_layout hb.layout hn
  have hread : 0 ≤ b.readIndex := hb.read
  have hwrite : b.writeIndex ≤ b.size := hb.write
  refine ⟨b', h1, h2.wf, ?_, h2.read, ?_⟩
  · rw [h2.size_eq, List.length_replicate, List.length_nil, ← hlen]
    simp only [readAble] at hlen ⊢
    omega
  · rw [h2.write, hlen]
    exact zero_add _

/-- storing what fits moves the write index only -/
theorem overwrite_effect (hb : WF b) {bs : List UInt8} (hfit : (bs.length : ℤ) ≤ b.writeAble) :
    let b' : TcpBuffer := { b with buffer := b.overwrite bs, writeIndex := b.writeIndex + bs.length }
    WF b' ∧ b'.size = b.size := by
  intro b'
  have hl := overwrite_layout hb.layout hfit
  refine ⟨hl.wf, ?_⟩
  rw [hl.size_eq, hb.layout.size_eq]
  simp only [writeAble, hb.layout.size_eq, hb.layout.write] at hfit
  simp only [List.length_append, List.length_drop]
  omega

theorem writeToBuffer_effect (hb : WF b) (bs : List UInt8) :
    ∃ b', writeToBuffer bs b = .ok b' ∧ WF b' ∧ Effect b b' (.write bs) := by
  have hr : 0 ≤ b.readIndex := hb.read
  have hrw : b.readIndex ≤ b.writeIndex := hb.order
  have hws : b.writeIndex ≤ b.size := hb.write
  by_cases hfit : (bs.length : ℤ) ≤ b.writeAble
  · obtain ⟨h1, h2⟩ := overwrite_effect hb hfit
    refine ⟨_, ?_, h1, .stays h2 (.inl rfl) le_rfl (if_neg (not_lt.2 hfit))⟩
    have hw : 0 ≤ b.writeIndex ∧ b.writeIndex + bs.length ≤ b.size := by
      simp only [writeAble] at hfit
      omega
    simp only [writeToBuffer, if_neg (not_lt.2 hfit), hw, and_self, if_true, ok_bind]
  · have hlt : b.writeAble < bs.length := not_le.1 hfit
    have hfull : b.size < b.writeIndex + bs.length := by
      simp only [writeAble] at hlt
      omega
    have hbig : b.size < (b.writeIndex + bs.length) * 3 / 2 := by omega
    obtain ⟨b₁, h1, h2, h3, h4, h5⟩ := resizeBuffer_moves hb hbig
    have hroom : b₁.writeIndex + bs.length ≤ b₁.size := by
      rw [h3, h5]
      simp only [readAble]
      omega
    have hfit₁ : (bs.length : ℤ) ≤ b₁.writeAble := by
      simp only [writeAble]
      omega
    obtain ⟨h6, h7⟩ := overwrite_effect h2 hfit₁
    refine ⟨_, ?_, h6, .grows hfull (h7.trans h3) h4 ?_ ?_⟩
    · have hw : 0 ≤ b₁.writeIndex ∧ b₁.writeIndex + bs.length ≤ b₁.size := ⟨h2.read.trans h2.order, hroom⟩
      simp only [writeToBuffer, if_pos hlt, h1, ok_bind, hw, and_self, if_true]
    · simp only [h5, pushed]
    · simp only [copied, resizeCopies, if_pos hlt, if_neg (not_le.2 hbig)]

theorem readFromBuffer_effect (hb : WF b) (re : List UInt8) (size : ℕ) :
    ∃ b' re', readFromBuffer re size b = .ok (b', re') ∧ WF b' ∧ Effect b b' (.read re size) := by
  have hr : 0 ≤ b.readIndex := hb.read
  have hrw : b.readIndex ≤ b.writeIndex := hb.order
  have hws : b.writeIndex ≤ b.size := hb.write
  by_cases h0 : b.readAble = 0
  · exact ⟨b, re, by simp only [readFromBuffer, h0, if_true, pure_ok], hb,
      .stays rfl (.inl rfl) (le_pushed _ _) (if_pos h0)⟩
  · have hmin : 0 ≤ min b.readAble size ∧ b.readIndex + min b.readAble size ≤ b.writeIndex := by
      simp only [readAble]
      omega
    have hb₁ : WF { b with readIndex := b.readIndex + min b.readAble size } :=
      ⟨by simp only; omega, hmin.2, hws⟩
    have hguard : 0 ≤ min b.readAble size ∧ 0 ≤ b.readIndex ∧ b.readIndex + min b.readAble size ≤ b.size :=
      ⟨hmin.1, hr, hmin.2.trans hws⟩
    obtain ⟨b', h1, h2, h3⟩ := adjust_effect (b := b) (c := .read re size) hb₁ rfl
      (le_pushed _ _) (if_neg h0)
    refine ⟨b', re ++ b.bytes b.readIndex (min b.readAble size), ?_, h2, h3⟩
    simp only [readFromBuffer, h0, if_false, hguard, and_self, if_true, h1, ok_bind, pure_ok]

theorem moveReadIndex_effect (hb : WF b) {size : ℕ} (hc : Stops (.ok b) (.moveRead size)) :
    ∃ b', moveReadIndex size b = .ok b' ∧ WF b' ∧ Effect b b' (.moveRead size) := by
  have hr : 0 ≤ b.readIndex := hb.read
  by_cases hout : b.size < b.readIndex + size
  · exact ⟨b, moveReadIndex_refused hout, hb,
      .stays rfl (.inl rfl) (le_pushed _ _) (if_pos hout)⟩
  · have hin : (size : ℤ) ≤ b.writeIndex - b.readIndex := (hc b rfl).resolve_right hout
    have hb₁ : WF { b with readIndex := b.readIndex + size } :=
      ⟨by simp only; omega, by simp only; omega, hb.write⟩
    obtain ⟨b', h1, h2, h3⟩ := adjust_effect (b := b) (c := .moveRead size) hb₁ rfl
      (le_pushed _ _) (if_neg hout)
    refine ⟨b', ?_, h2, h3⟩
    simp only [moveReadIndex]
    rw [if_neg (by omega), h1]

theorem moveWriteIndex_effect (hb : WF b) (size : ℕ) :
    ∃ b', moveWriteIndex size b = .ok b' ∧ WF b' ∧ Effect b b' (.moveWrite size) := by
  have hr : 0 ≤ b.readIndex := hb.read
  have hrw : b.readIndex ≤ b.writeIndex := hb.order
  by_cases hout : b.size < b.writeIndex + size
  · exact ⟨b, moveWriteIndex_refused (by simp only [writeAble]; omega), hb,
      .stays rfl (.inl rfl) (le_pushed _ _) (if_pos hout)⟩
  · have hb₁ : WF { b with writeIndex := b.writeIndex + size } :=
      ⟨hr, by simp only; omega, not_lt.1 hout⟩
    obtain ⟨b', h1, h2, h3⟩ := adjust_effect (b := b) (c := .moveWrite size) hb₁ rfl le_rfl (if_neg hout)
    refine ⟨b', ?_, h2, h3⟩
    simp only [moveWriteIndex]
    rw [if_neg (by omega), h1]

theorem call_effect (hb : WF b) {c : Call} (hc : Stops (.ok b) c) :
    ∃ b', step (.ok b) c = .ok b' ∧ WF b' ∧ Effect b b' c := by
  cases c with
  | write buf =>
    obtain ⟨b', h1, h2, h3⟩ := writeToBuffer_effect hb buf
    have hcall : call b (.write buf) = .ok (b', []) := by simp only [call, h1, ok_bind, pure_ok]
    exact ⟨b', step_ok hcall, h2, h3⟩
  | read re size =>
    obtain ⟨b', re', h1, h2, h3⟩ := readFromBuffer_effect hb re size
    exact ⟨b', step_ok h1, h2, h3⟩
  | resize newSize =>
    by_cases hn : b.size < newSize
    · obtain ⟨b', h1, h2, h3, h4, h5⟩ := resizeBuffer_moves hb hn
      have hcall : call b (.resize newSize) = .ok (b', []) := by simp only [call, h1, ok_bind, pure_ok]
      exact ⟨b', step_ok hcall, h2, .resizes newSize rfl hn h3 h4 h5 (if_neg (not_le.2 hn))⟩
    · have h1 : resizeBuffer newSize b = .ok b := by simp only [resizeBuffer, not_lt.1 hn, if_true]
      have hcall : call b (.resize newSize) = .ok (b, []) := by simp only [call, h1, ok_bind, pure_ok]
      exact ⟨b, step_ok hcall, hb, .stays rfl (.inl rfl) (le_pushed _ _) (if_pos (not_lt.1 hn))⟩
  | adjust =>
    obtain ⟨b', h1, h2, h3⟩ := adjust_effect (b := b) (c := .adjust) hb rfl
      (le_pushed _ _) rfl
    have hcall : call b .adjust = .ok (b', []) := by simp only [call, h1, ok_bind, pure_ok]
    exact ⟨b', step_ok hcall, h2, h3⟩
  | moveRead size =>
    obtain ⟨b', h1, h2, h3⟩ := moveReadIndex_effect hb hc
    have hcall : call b (.moveRead size) = .ok (b', []) := by simp only [call, h1, ok_bind, pure_ok]
    exact ⟨b', step_ok hcall, h2, h3⟩
  | moveWrite size =>
    obtain ⟨b', h1, h2, h3⟩ := moveWriteIndex_effect hb size
    have hcall : call b (.moveWrite size) = .ok (b', []) := by simp only [call, h1, ok_bind, pure_ok]
    exact ⟨b', step_ok hcall, h2, h3⟩

/-! ## Storage -/

/-- the storage is within the bound, and at most a third of it stands before the read index -/
structure Compact (size M R : ℕ) (b : TcpBuffer) : Prop where
  wf : WF b
  size_le : b.size ≤ max (max size R) (9 * M / 4)
  read_le : 3 * b.readIndex ≤ b.size

theorem make_compact (size M R : ℕ) : Compact size M R (make size) :=
  ⟨make_wf size, by rw [make_size]; omega, by rw [make_size]; exact Int.natCast_nonneg size⟩

/-- growth takes one and a half of what is needed, and a third of that at most was before the content -/
theorem Effect.compact {size M R : ℕ} {b' : TcpBuffer} {c : Call} (h : Effect b b' c) (hb : Compact size M R b)
    (hb' : WF b') (hR : ∀ n, c = .resize n → n ≤ R) (hM : b'.readAble ≤ M) : Compact size M R b' := by
  obtain ⟨hwf, hsize, hread⟩ := hb
  have hr := hwf.read
  have hw := hwf.write
  simp only [readAble] at hM
  refine ⟨hb', ?_, ?_⟩
  · cases h with
    | stays h1 => rwa [h1]
    | compacts r w h1 h2 h3 h4 h5 => rwa [h5]
    | grows h1 h2 h3 h4 =>
      simp only [h3, h4, readAble] at hM
      omega
    | resizes n h1 h2 h3 =>
      have hn := hR n h1
      omega
  · cases h with
    | stays h1 h2 => omega
    | compacts r w h1 h2 h3 h4 h5 h6 => omega
    | grows h1 h2 h3 => omega
    | resizes n h1 h2 h3 h4 => omega

/-- no move passes the content, no more than `R` bytes are asked for at once, and no more than `M` bytes wait -/
def Moderate (M R : ℕ) (s : Except Fault TcpBuffer) (c : Call) : Prop :=
  Stops s c ∧ (∀ n, c = .resize n → n ≤ R) ∧ ∀ b, step s c = .ok b → b.readAble ≤ M

/-- **Storage**: as long as never more than `M` bytes wait in a buffer, its storage does not exceed 9/4 of `M`, or the size
it has been made or resized to, however many bytes pass through it. -/
theorem storage_le (size M R : ℕ) (cs : List Call) (h : Along step (Moderate M R) (.ok (make size)) cs) :
    ∃ b, run step (.ok (make size)) cs = .ok b ∧ b.buffer.length ≤ max (max size R) (9 * M / 4) := by
  have hstep : ∀ s c, Moderate M R s c → (∃ b, s = .ok b ∧ Compact size M R b) →
      ∃ b, step s c = .ok b ∧ Compact size M R b := by
    rintro s c ⟨hc, hR, hM⟩ ⟨b, rfl, hb⟩
    obtain ⟨b', h1, h2, h3⟩ := call_effect hb.wf hc
    exact ⟨b', h1, h3.compact hb h2 hR (hM b' h1)⟩
  obtain ⟨b, hrun, hb⟩ := inv_run hstep h ⟨_, rfl, make_compact size M R⟩
  have hsize : (b.buffer.length : ℤ) ≤ max (max size R) (9 * M / 4) := hb.size_le
  exact ⟨b, hrun, by omega⟩

theorem forall_ok {x : Except Fault TcpBuffer} {b : TcpBuffer} {p : TcpBuffer → Prop} (hx : x = .ok b) (hb : p b) :
    ∀ b', x = .ok b' → p b' := by
  intro b' hb'
  rw [hx] at hb'
  exact Except.ok.inj hb' ▸ hb

/-- at most seven bytes wait in a buffer that has been made for four; it grows twice, to twelve -/
theorem storage_le_grown :
    let cs : List Call := [.write [1, 2, 3, 4, 5], .read [] 1, .write [6, 7, 8]]
    run step (.ok (make 4)) cs = .ok ⟨[2, 3, 4, 5, 6, 7, 8, 0, 0, 0, 0, 0], 0, 7⟩ ∧
      ∃ b, run step (.ok (make 4)) cs = .ok b ∧ b.buffer.length ≤ max (max 4 0) (9 * 7 / 4) := by
  intro cs
  have h1 : step (.ok (make 4)) (.write [1, 2, 3, 4, 5]) = .ok ⟨[1, 2, 3, 4, 5, 0, 0], 0, 5⟩ := by decide
  have h2 : step (.ok ⟨[1, 2, 3, 4, 5, 0, 0], 0, 5⟩) (.read [] 1) = .ok ⟨[1, 2, 3, 4, 5, 0, 0], 1, 5⟩ := by decide
  have h3 : step (.ok ⟨[1, 2, 3, 4, 5, 0, 0], 1, 5⟩) (.write [6, 7, 8]) =
      .ok ⟨[2, 3, 4, 5, 6, 7, 8, 0, 0, 0, 0, 0], 0, 7⟩ := by decide
  have halong : Along step (Moderate 7 0) (.ok (make 4)) cs := by
    refine ⟨⟨trivial, by simp, forall_ok h1 (by decide)⟩, ?_⟩
    rw [h1]
    refine ⟨⟨trivial, by simp, forall_ok h2 (by decide)⟩, ?_⟩
    rw [h2]
    exact ⟨⟨trivial, by simp, forall_ok h3 (by decide)⟩, trivial⟩
  exact ⟨by decide, storage_le 4 7 0 cs halong⟩

/-! ## Copying -/

/-- what calls have put aside for copies to come; the last summand is for the one resize that grows a small buffer -/
def potential (R : ℕ) (b : TcpBuffer) : ℕ :=
  (2 * b.writeIndex + max 0 (3 * b.writeIndex - 2 * b.size)).toNat + if b.size < R then R else 0

/-- compaction is paid by the room it gives back, growth by the room that had been left -/
theorem Effect.copied_le {R : ℕ} {b' : TcpBuffer} {c : Call} (h : Effect b b' c) (hb : WF b)
    (hR : ∀ n, c = .resize n → n = R) : copied b c + potential R b' ≤ potential R b + (5 * pushed c + 2) := by
  have hr := hb.read
  have hrw := hb.order
  have hws := hb.write
  unfold potential
  cases h with
  | stays h1 h2 h3 h4 =>
    rw [h4, h1]
    omega
  | compacts r w h1 h2 h3 h4 h5 h6 h7 h8 =>
    rw [h8, h7, h5]
    omega
  | grows h1 h2 h3 h4 h5 =>
    have hsize : b.size ≤ b'.size := by omega
    have hrest : (if b'.size < R then R else 0) ≤ if b.size < R then R else 0 := by
      split_ifs <;> omega
    simp only [readAble] at h4 h5
    omega
  | resizes n h1 h2 h3 h4 h5 h6 =>
    obtain rfl := hR n h1
    rw [if_pos h2, h3, if_neg (lt_irrefl _)]
    simp only [readAble] at h5 h6
    omega

/-- what the next call copies -/
def copies (s : Except Fault TcpBuffer) (c : Call) : ℕ := amount (copied · c) s

/-- no move passes the content, and the buffer is resized to no other size than `R` -/
def Plain (R : ℕ) (s : Except Fault TcpBuffer) (c : Call) : Prop := Stops s c ∧ ∀ n, c = .resize n → n = R

theorem potential_make (size R : ℕ) : potential R (make size) ≤ R := by
  have hsize := make_size size
  simp only [potential, hsize]
  simp only [make]
  split_ifs <;> omega

theorem sum_given {ℓ : Type} (f : ℓ → ℕ) (ls : List ℓ) :
    (ls.map fun l => 5 * f l + 2).sum = 5 * (ls.map f).sum + 2 * ls.length := by
  rw [List.sum_map_add, List.sum_map_mul_left, List.map_const', List.sum_replicate, smul_eq_mul, mul_comm 2]

/-- **Copying**: what growth and compaction copy in a run is at most five bytes for each byte that comes in, two for each
call, and the size the buffer is resized to. -/
theorem copies_le (size R : ℕ) (cs : List Call) (h : Along step (Plain R) (.ok (make size)) cs) :
    cost step copies (.ok (make size)) cs ≤ 5 * (cs.map pushed).sum + 2 * cs.length + R := by
  have hstep : ∀ s c, Plain R s c → (∃ b, s = .ok b ∧ WF b) → (∃ b, step s c = .ok b ∧ WF b) ∧
      copies s c + amount (potential R) (step s c) ≤ amount (potential R) s + (5 * pushed c + 2) := by
    rintro s c ⟨hc, hR⟩ ⟨b, rfl, hb⟩
    obtain ⟨b', h1, h2, h3⟩ := call_effect hb hc
    rw [h1]
    exact ⟨⟨b', rfl, h2⟩, h3.copied_le hb hR⟩
  calc cost step copies (.ok (make size)) cs
    _ ≤ cost step copies (.ok (make size)) cs + amount (potential R) (run step (.ok (make size)) cs) := Nat.le_add_right _ _
    _ ≤ potential R (make size) + (cs.map fun c => 5 * pushed c + 2).sum :=
      cost_add_le hstep h ⟨_, rfl, make_wf size⟩
    _ ≤ R + (cs.map fun c => 5 * pushed c + 2).sum := Nat.add_le_add_right (potential_make size R) _
    _ = 5 * (cs.map pushed).sum + 2 * cs.length + R := by rw [sum_given, add_comm]

/-- one byte moves in a compaction, two in the resize -/
theorem copies_le_resized :
    let cs : List Call := [.write [1, 2, 3, 4, 5], .moveRead 4, .moveWrite 1, .resize 20]
    cost step copies (.ok (make 4)) cs = 3 ∧
      cost step copies (.ok (make 4)) cs ≤ 5 * (cs.map pushed).sum + 2 * cs.length + 20 := by
  intro cs
  have halong : Along step (Plain 20) (.ok (make 4)) cs := by
    refine ⟨⟨trivial, by simp⟩, ⟨?_, by simp⟩, ⟨trivial, by simp⟩, ⟨trivial, by simp⟩, trivial⟩
    exact forall_ok (b := ⟨[1, 2, 3, 4, 5, 0, 0], 0, 5⟩) (by decide) (by decide)
  exact ⟨by decide, copies_le 4 20 cs halong⟩

end TcpBuffer

/-! ## The write buffer of a stream -/

namespace Writing

open Result Machine

/-- the call of the buffer in a step of the writers, if there is one -/
def bufferCall (s : Writer) : Label → Option TcpBuffer.Call
  | .write bs => some (.write bs)
  | .turn i (.took k) =>
    if s.At i .looping ∧ 0 < s.buffer.readAble then some (.moveRead (min (k + 1 : ℤ) s.buffer.readAble).toNat) else none
  | _ => none

/-- what the next step copies -/
def copies (x : Except Fault Writer) (l : Label) : ℕ :=
  amount (fun s => (bufferCall s l).elim 0 s.buffer.copied) x

/-- how many bytes a write brings -/
def wrote : Label → ℕ
  | .write bs => bs.length
  | _ => 0

variable {s s' : Writer} {l : Label}

theorem goto_buffer {i : ℕ} {pc : Pc} (h : (.ok (s.goto i pc) : Except Fault Writer) = .ok s') : s'.buffer = s.buffer := by
  rw [← Except.ok.inj h]
  rfl

theorem turn_buffer {i : ℕ} {o : Send} (hat : s.At i .looping) (h : turn i o s = .ok s') :
    bufferCall s (.turn i o) = none ∧ s'.buffer = s.buffer ∨
      ∃ n : ℕ, bufferCall s (.turn i o) = some (.moveRead n) ∧ (n : ℤ) ≤ s.buffer.readAble ∧
        s.buffer.moveReadIndex n = .ok s'.buffer := by
  unfold turn at h
  by_cases hread : 0 < s.buffer.readAble
  · rw [if_pos hread] at h
    cases o with
    | took k =>
      obtain ⟨n, hn⟩ := Int.eq_ofNat_of_zero_le (show 0 ≤ min (k + 1 : ℤ) s.buffer.readAble by omega)
      simp only [hn] at h
      obtain ⟨b, hmove, h⟩ := bind_eq_ok.1 h
      obtain rfl := Except.ok.inj h
      refine .inr ⟨n, ?_, hn ▸ min_le_right _ _, hmove⟩
      simp only [bufferCall, hat, hread, hn, and_self, if_true, Int.toNat_natCast]
    | zero => exact .inl ⟨rfl, goto_buffer h⟩
    | again => exact .inl ⟨rfl, goto_buffer h⟩
    | error => exact .inl ⟨rfl, goto_buffer h⟩
  · rw [if_neg hread] at h
    refine .inl ⟨?_, goto_buffer h⟩
    cases o <;> simp only [bufferCall, hread, and_false, if_false]

/-- a step leaves the buffer alone, or is one of its calls: a write, or a move inside of what can be read -/
theorem act_buffer (h : act l s = .ok s') :
    bufferCall s l = none ∧ s'.buffer = s.buffer ∨
      ∃ c, bufferCall s l = some c ∧ TcpBuffer.step (.ok s.buffer) c = .ok s'.buffer ∧
        TcpBuffer.Stops (.ok s.buffer) c ∧ (∀ n, c ≠ .resize n) ∧ TcpBuffer.pushed c = wrote l := by
  cases l with
  | write bs =>
    obtain ⟨b, hwrite, h⟩ := bind_eq_ok.1 h
    obtain rfl := Except.ok.inj h
    have hcall : TcpBuffer.call s.buffer (.write bs) = .ok (b, []) := by
      simp only [TcpBuffer.call, hwrite, ok_bind, pure_ok]
    exact .inr ⟨_, rfl, TcpBuffer.step_ok hcall, trivial, by simp, rfl⟩
  | turn i o =>
    simp only [act] at h
    by_cases hat : s.At i .looping
    · rw [if_pos hat] at h
      rcases turn_buffer hat h with hnone | ⟨n, hsome, hle, hmove⟩
      · exact .inl hnone
      · have hcall : TcpBuffer.call s.buffer (.moveRead n) = .ok (s'.buffer, []) := by
          simp only [TcpBuffer.call, hmove, ok_bind, pure_ok]
        refine .inr ⟨_, hsome, TcpBuffer.step_ok hcall, fun b hb => .inl ?_, by simp, rfl⟩
        exact Except.ok.inj hb ▸ hle
    · rw [if_neg hat] at h
      refine .inl ⟨?_, by rw [← Except.ok.inj h]⟩
      cases o <;> simp only [bufferCall, hat, false_and, if_false]
  | resume i =>
    simp only [act] at h
    split_ifs at h
    · exact .inl ⟨rfl, goto_buffer h⟩
    · exact .inl ⟨rfl, by rw [← Except.ok.inj h]⟩
  | destroy i =>
    simp only [act] at h
    split_ifs at h
    · exact .inl ⟨rfl, goto_buffer h⟩
    · exact .inl ⟨rfl, by rw [← Except.ok.inj h]⟩

theorem step_effect (hs : Books s) (l : Label) : ∃ s', step (.ok s) l = .ok s' ∧ Books s' ∧
    (bufferCall s l = none ∧ s'.buffer = s.buffer ∨
      ∃ c, bufferCall s l = some c ∧ TcpBuffer.Effect s.buffer s'.buffer c ∧ (∀ n, c ≠ .resize n) ∧
        TcpBuffer.pushed c = wrote l) := by
  obtain ⟨s', hact, hs'⟩ := act_keeps hs l
  refine ⟨s', by simpa only [step, ok_bind] using hact, hs', ?_⟩
  rcases act_buffer hact with hnone | ⟨c, hcall, hstep, hstops, hresize, hpushed⟩
  · exact .inl hnone
  · obtain ⟨b, hb, -, heffect⟩ := TcpBuffer.call_effect hs.wf hstops
    obtain rfl := Except.ok.inj (hstep.symm.trans hb)
    exact .inr ⟨c, hcall, heffect, hresize, hpushed⟩

/-- behind the step no more than `M` bytes have been written and not been sent -/
def Waiting (M : ℕ) (x : Except Fault Writer) (l : Label) : Prop := ∀ s, step x l = .ok s → s.buffer.readAble ≤ M

/-- **Storage of a stream**: as long as never more than `M` bytes wait to be sent, the write buffer does not outgrow 9/4
of `M`, however much is written, by whichever coroutines. -/
theorem stream_storage_le (bufferSize M : ℕ) (ls : List Label)
    (h : Along step (Waiting M) (.ok (start bufferSize)) ls) :
    ∃ s, run step (.ok (start bufferSize)) ls = .ok s ∧ s.buffer.buffer.length ≤ max bufferSize (9 * M / 4) := by
  have hstep : ∀ x l, Waiting M x l → (∃ s, x = .ok s ∧ Books s ∧ s.buffer.Compact bufferSize M 0) →
      ∃ s, step x l = .ok s ∧ Books s ∧ s.buffer.Compact bufferSize M 0 := by
    rintro x l hM ⟨s, rfl, hs, hb⟩
    obtain ⟨s', h1, h2, ⟨-, h3⟩ | ⟨c, -, h3, h4, -⟩⟩ := step_effect hs l
    · exact ⟨s', h1, h2, h3 ▸ hb⟩
    · exact ⟨s', h1, h2, h3.compact hb h2.wf (fun n hn => absurd hn (h4 n)) (hM s' h1)⟩
  obtain ⟨s, hrun, -, hb⟩ := inv_run hstep h ⟨_, rfl, start_books bufferSize, TcpBuffer.make_compact bufferSize M 0⟩
  have hsize : (s.buffer.buffer.length : ℤ) ≤ max (max bufferSize 0) (9 * M / 4) := hb.size_le
  exact ⟨s, hrun, by omega⟩

/-- **Copying in a stream**: in any run of its writers, making room costs at most five copied bytes for each byte that is
written, and two for each step. -/
theorem stream_copies_le (bufferSize : ℕ) (ls : List Label) :
    cost step copies (.ok (start bufferSize)) ls ≤ 5 * (ls.map wrote).sum + 2 * ls.length := by
  let saved : Except Fault Writer → ℕ := amount fun s => s.buffer.potential 0
  have hstep : ∀ x l, True → Keeps x →
      Keeps (step x l) ∧ copies x l + saved (step x l) ≤ saved x + (5 * wrote l + 2) := by
    rintro x l - ⟨s, rfl, hs⟩
    obtain ⟨s', h1, h2, ⟨h3, h4⟩ | ⟨c, h3, h4, h5, h6⟩⟩ := step_effect hs l
    · rw [h1]
      refine ⟨h2.keeps, ?_⟩
      simp only [copies, saved, amount_ok, h3, h4, Option.elim_none]
      omega
    · rw [h1]
      refine ⟨h2.keeps, ?_⟩
      simp only [copies, saved, amount_ok, h3, Option.elim_some, ← h6]
      exact h4.copied_le hs.wf fun n hn => absurd hn (h5 n)
  have halong : Along step (fun _ _ => True) (.ok (start bufferSize)) ls := along_of_mem (L := fun _ => True) (by simp) _
  have hzero : saved (.ok (start bufferSize)) = 0 := Nat.le_zero.1 (TcpBuffer.potential_make bufferSize 0)
  calc cost step copies (.ok (start bufferSize)) ls
    _ ≤ cost step copies (.ok (start bufferSize)) ls + saved (run step (.ok (start bufferSize)) ls) := Nat.le_add_right _ _
    _ ≤ saved (.ok (start bufferSize)) + (ls.map fun l => 5 * wrote l + 2).sum :=
      cost_add_le hstep halong (start_books bufferSize).keeps
    _ = 5 * (ls.map wrote).sum + 2 * ls.length := by rw [hzero, zero_add, TcpBuffer.sum_given]

end Writing

end MCoroRpc
