/-
A TcpStream that is read from, `recv` after `recv` (src/tcpstream.cc, `readToBuffer`).

Between two rounds of the loop nothing of the call is kept but the buffer: a round that does not go on either returns
or suspends, and the next one starts with a `total` of 0. So a run is a list of rounds, with what the users of the
buffer take out of it in between.

- `step`, `Label`: one round with what its `recv` meets, or a `readFromBuffer`.
- `readToBuffer_run`: each call of `readToBuffer` is such a list of rounds.
- `Faithful`: every `recv` has had a positive length, a zero return has meant the end of file, the content is what has
  been received in its order, and each arrival has brought the bytes under way nearer to their end.
- `faithful_iff`: that holds exactly as long as no `recv` is issued on a full buffer of 4096 bytes or more. There
  `resizeBuffer` is asked for 4096 bytes, which such a buffer already has.
-/
import MCoroRpc.Core.Machine
import MCoroRpc.Net.TcpStream

namespace MCoroRpc

namespace Reading

open TcpBuffer TcpStream Result

/-! ## Model -/

/-- a `recv` as it was issued -/
structure Issued where
  /-- the length it was asked for -/
  len : ℤ
  /-- the bytes under way at that moment -/
  incoming : Bytes
  returned : Received
deriving DecidableEq, Repr

structure Stream where
  buffer : TcpBuffer
  incoming : Bytes
  /-- what the `recv`s have returned so far -/
  received : Bytes := []
  /-- what the users have taken out of the buffer so far -/
  taken : Bytes := []
  issued : List Issued := []
  /-- the number of `recv`s that met data -/
  arrivals : ℕ := 0
deriving DecidableEq, Repr

inductive Label where
  | round (o : Recv)
  | take (size : ℕ)
deriving DecidableEq, Repr

def isData : Recv → Bool
  | .data _ => true
  | _ => false

/-- `recv` into the free space of `b` has been issued -/
def Stream.issue (o : Recv) (b : TcpBuffer) (s : Stream) : Stream :=
  { s with
    buffer := b, issued := s.issued ++ [⟨b.writeAble, s.incoming, recv o s.incoming b.writeAble⟩],
    arrivals := if isData o then s.arrivals + 1 else s.arrivals }

/-- `bs` has been received, which makes the buffer `b` -/
def Stream.receive (bs : Bytes) (b : TcpBuffer) (s : Stream) : Stream :=
  { s with buffer := b, incoming := s.incoming.drop bs.length, received := s.received ++ bs }

/-- one round of the loop of `readToBuffer` -/
def round (o : Recv) (s : Stream) : Except Fault Stream := do
  let b ← makeRoom s.buffer
  let s := s.issue o b
  match recv o s.incoming b.writeAble with
  | .bytes [] => return s
  | .bytes (x :: bs) => return s.receive (x :: bs) (← b.recvInto (x :: bs))
  | _ => return s

/-- `readFromBuffer` -/
def take (size : ℕ) (s : Stream) : Except Fault Stream := do
  let (b, re) ← s.buffer.readFromBuffer [] size
  return { s with buffer := b, taken := s.taken ++ re }

def step (s : Except Fault Stream) (l : Label) : Except Fault Stream := do
  match l with
  | .round o => round o (← s)
  | .take size => take size (← s)

def start (b : TcpBuffer) (incoming : Bytes) : Stream := { buffer := b, incoming := incoming }

@[simp] theorem step_round (o : Recv) (s : Stream) : step (.ok s) (.round o) = round o s := by
  simp only [step, ok_bind]

@[simp] theorem step_take (size : ℕ) (s : Stream) : step (.ok s) (.take size) = take size s := by
  simp only [step, ok_bind]

theorem round_eq (o : Recv) {s : Stream} {b : TcpBuffer} (h : makeRoom s.buffer = .ok b) :
    round o s =
      match recv o s.incoming b.writeAble with
      | .bytes [] => .ok (s.issue o b)
      | .bytes (x :: bs) => do return (s.issue o b).receive (x :: bs) (← b.recvInto (x :: bs))
      | _ => .ok (s.issue o b) := by
  simp only [round, h, ok_bind, pure_ok]
  rfl

theorem round_receives {o : Recv} {s : Stream} {b b' : TcpBuffer} {bs : Bytes} (h : makeRoom s.buffer = .ok b)
    (hr : recv o s.incoming b.writeAble = .bytes bs) (hne : bs ≠ []) (hinto : b.recvInto bs = .ok b') :
    round o s = .ok ((s.issue o b).receive bs b') := by
  obtain ⟨x, xs, rfl⟩ := List.exists_cons_of_ne_nil hne
  simp only [round_eq o h, hr, hinto, ok_bind, pure_ok]

/-- no byte is received -/
theorem round_quiet {o : Recv} {s : Stream} {b : TcpBuffer} (h : makeRoom s.buffer = .ok b)
    (hnone : ∀ x bs, recv o s.incoming b.writeAble ≠ .bytes (x :: bs)) : round o s = .ok (s.issue o b) := by
  rw [round_eq o h]
  split
  · rfl
  · next x bs hr => exact absurd hr (hnone x bs)
  · rfl

/-! ## The calls -/

/-- **A call is a list of rounds**: whatever a call of `readToBuffer` leaves, a beginning of its outcomes leaves, taken
round after round -/
theorem readToBuffer_run (os : List Recv) (total : ℕ) {s : Stream} {e : ReadEnd} {incoming : Bytes} {b : TcpBuffer}
    (h : readToBuffer os total s.incoming s.buffer = .ok (e, incoming, b)) :
    ∃ k s', Machine.run step (.ok s) ((os.take k).map .round) = .ok s' ∧ s'.incoming = incoming ∧ s'.buffer = b := by
  induction os generalizing total s with
  | nil =>
    simp only [readToBuffer, Except.ok.injEq, Prod.mk.injEq] at h
    exact ⟨0, s, rfl, h.2.1, h.2.2⟩
  | cons o os ih =>
    have hmore : ∀ (s' : Stream) (n : ℕ), round o s = .ok s' →
        readToBuffer os n s'.incoming s'.buffer = .ok (e, incoming, b) →
        ∃ k s', Machine.run step (.ok s) (((o :: os).take k).map .round) = .ok s' ∧ s'.incoming = incoming ∧
          s'.buffer = b := by
      intro s' n hs' hrest
      obtain ⟨k, s'', hrun, hi, hb⟩ := ih n hrest
      refine ⟨k + 1, s'', ?_, hi, hb⟩
      simp only [List.take_succ_cons, List.map_cons, Machine.run_cons, step_round, hs', hrun]
    have hroom : ∃ b1, makeRoom s.buffer = .ok b1 := by
      rw [readToBuffer] at h
      obtain ⟨b1, hroom, -⟩ := bind_eq_ok.1 h
      exact ⟨b1, hroom⟩
    obtain ⟨b1, hroom⟩ := hroom
    rcases readToBuffer_cons o os total s.incoming hroom with ⟨hnone, ⟨e', -, -, hcall⟩ | hcall⟩ | ⟨x, bs, hr, hcall⟩
    · -- the round that ends the call is the last one of the list
      rw [hcall] at h
      obtain ⟨-, hi, hb⟩ : _ ∧ _ ∧ _ := by simpa using h
      refine ⟨1, s.issue o b1, ?_, hi, hb⟩
      simp only [List.take_succ_cons, List.take_zero, List.map_cons, List.map_nil, Machine.run_cons, Machine.run_nil,
        step_round, round_quiet hroom hnone]
    · rw [hcall] at h
      exact hmore _ _ (round_quiet hroom hnone) h
    · rw [hcall] at h
      obtain ⟨b2, hinto, hrest⟩ := bind_eq_ok.1 h
      exact hmore _ _ (round_receives hroom hr (by simp) hinto) hrest

/-! ## One round -/

/-- what reading is for, from the content `c` and the bytes `i` under way on -/
structure Sound (c i : Bytes) (s : Stream) : Prop where
  wf : WF s.buffer
  positive : ∀ r ∈ s.issued, 0 < r.len
  eof : ∀ r ∈ s.issued, r.returned = .bytes [] → r.incoming = []
  order : c ++ s.received = s.taken ++ s.buffer.content
  lossless : s.received ++ s.incoming = i
  progress : s.incoming = [] ∨ s.arrivals ≤ s.received.length

def Faithful (c i : Bytes) (s : Except Fault Stream) : Prop := ∃ st, s = .ok st ∧ Sound c i st

/-- before a round, the buffer has free space or less than 4096 bytes -/
def HasRoom (s : Except Fault Stream) : Label → Prop
  | .round _ => ∀ st, s = .ok st → st.buffer.writeAble ≠ 0 ∨ st.buffer.size < 4096
  | .take _ => True

variable {c i : Bytes} {s : Stream}

theorem writeAble_nonneg {b : TcpBuffer} (h : WF b) : 0 ≤ b.writeAble := by
  have := h.write
  simp only [writeAble]
  omega

/-- a small buffer grows when it is full -/
theorem makeRoom_positive {b : TcpBuffer} (hb : WF b) (hroom : b.writeAble ≠ 0 ∨ b.size < 4096) :
    ∃ b', makeRoom b = .ok b' ∧ WF b' ∧ b'.content = b.content ∧ 0 < b'.writeAble := by
  by_cases h0 : b.writeAble = 0
  · have hs : b.size < 0 + 4096 := by
      have := hroom.resolve_left (not_not.2 h0)
      omega
    obtain ⟨b', h1, h2⟩ := resizeBuffer_layout hb.layout hs
    have hlen := hb.layout.size_eq
    refine ⟨b', by rw [makeRoom, if_pos h0, h0, h1], h2.wf, h2.content_eq, ?_⟩
    simp only [writeAble, h2.size_eq, h2.write, List.length_replicate, List.length_nil]
    push_cast
    omega
  · have := writeAble_nonneg hb
    exact ⟨b, by rw [makeRoom, if_neg h0], hb, rfl, by omega⟩

/-- a full buffer of 4096 bytes stays as it is -/
theorem makeRoom_full {b : TcpBuffer} (h0 : b.writeAble = 0) (hs : 4096 ≤ b.size) : makeRoom b = .ok b := by
  rw [makeRoom, if_pos h0, h0, resizeBuffer, if_pos (by omega)]

/-- a `recv` with room for a byte returns nothing only behind the last byte, and met data only if it returns some -/
theorem recv_positive (o : Recv) (incoming : Bytes) {len : ℤ} (hlen : 0 < len) :
    (recv o incoming len = .bytes [] → incoming = []) ∧
      (isData o → incoming ≠ [] → ∃ x bs, recv o incoming len = .bytes (x :: bs)) := by
  cases o with
  | data n =>
    by_cases hi : incoming = []
    · exact ⟨fun _ => hi, fun _ h => absurd hi h⟩
    · have hne : incoming.take (min (n + 1) len.toNat) ≠ [] := by
        rw [Ne, List.take_eq_nil_iff, not_or]
        exact ⟨by omega, hi⟩
      obtain ⟨x, bs, hx⟩ := List.exists_cons_of_ne_nil hne
      simp only [recv, if_neg hi, hx]
      exact ⟨by simp, fun _ _ => ⟨x, bs, rfl⟩⟩
  | eof =>
    refine ⟨?_, by simp [isData]⟩
    intro h
    by_contra hi
    simp [recv, hi] at h
  | again => simp [recv, isData]
  | reset => simp [recv, isData]
  | error => simp [recv, isData]

/-- a `recv` with room for a byte has been issued and has returned no byte -/
theorem Sound.issue (h : Sound c i s) (o : Recv) {b : TcpBuffer} (hb : WF b) (hc : b.content = s.buffer.content)
    (hpos : 0 < b.writeAble) (hnone : ∀ x bs, recv o s.incoming b.writeAble ≠ .bytes (x :: bs)) :
    Sound c i (s.issue o b) := by
  obtain ⟨heof, hdata⟩ := recv_positive o s.incoming hpos
  refine ⟨hb, ?_, ?_, ?_, h.lossless, ?_⟩
  · simpa only [Stream.issue, List.forall_mem_append, List.forall_mem_singleton] using ⟨h.positive, hpos⟩
  · simpa only [Stream.issue, List.forall_mem_append, List.forall_mem_singleton] using ⟨h.eof, heof⟩
  · simpa only [Stream.issue, hc] using h.order
  · by_cases hi : s.incoming = []
    · exact .inl hi
    · have hnot : ¬ isData o := fun hd => by
        obtain ⟨x, bs, hx⟩ := hdata hd hi
        exact hnone x bs hx
      simpa only [Stream.issue, hnot, Bool.false_eq_true, if_false] using h.progress

/-- bytes have been received -/
theorem Sound.receive (h : Sound c i s) (o : Recv) {b b' : TcpBuffer} {x : UInt8} {bs : Bytes}
    (hr : recv o s.incoming b.writeAble = .bytes (x :: bs)) (hpos : 0 < b.writeAble) (hb : WF b')
    (hc : b'.content = s.buffer.content ++ (x :: bs)) : Sound c i ((s.issue o b).receive (x :: bs) b') := by
  obtain ⟨heof, -⟩ := recv_positive o s.incoming hpos
  obtain ⟨hsplit, -⟩ := recv_bytes hpos.le hr
  refine ⟨hb, ?_, ?_, ?_, ?_, ?_⟩
  · simpa only [Stream.receive, Stream.issue, List.forall_mem_append, List.forall_mem_singleton] using
      ⟨h.positive, hpos⟩
  · simpa only [Stream.receive, Stream.issue, List.forall_mem_append, List.forall_mem_singleton] using ⟨h.eof, heof⟩
  · simp only [Stream.receive, Stream.issue, hc]
    rw [← List.append_assoc, h.order, List.append_assoc]
  · simp only [Stream.receive, Stream.issue]
    rw [List.append_assoc, hsplit, h.lossless]
  · -- the bytes are at least one, so the count of arrivals is met again
    simp only [Stream.receive, Stream.issue, List.length_append, List.length_cons]
    rcases h.progress with hi | hle
    · rw [hi] at hsplit
      simp at hsplit
    · right
      split_ifs <;> omega

theorem round_sound (o : Recv) (h : Sound c i s) (hroom : s.buffer.writeAble ≠ 0 ∨ s.buffer.size < 4096) :
    Faithful c i (round o s) := by
  obtain ⟨b, hmake, hb, hc, hpos⟩ := makeRoom_positive h.wf hroom
  by_cases hsome : ∃ x bs, recv o s.incoming b.writeAble = .bytes (x :: bs)
  · obtain ⟨x, bs, hr⟩ := hsome
    obtain ⟨b', pre', post', hinto, hl, -⟩ := recvInto_layout hb.layout (recv_bytes hpos.le hr).2
    exact ⟨_, round_receives hmake hr (by simp) hinto, h.receive o hr hpos hl.wf (by rw [hl.content_eq, hc])⟩
  · push Not at hsome
    exact ⟨_, round_quiet hmake hsome, h.issue o hb hc hpos hsome⟩

theorem take_sound (size : ℕ) (h : Sound c i s) : Faithful c i (take size s) := by
  obtain ⟨b', pre', post', hread, hl⟩ := readFromBuffer_layout h.wf.layout [] size
  simp only [take, hread, ok_bind, pure_ok]
  refine ⟨_, rfl, hl.wf, h.positive, h.eof, ?_, h.lossless, h.progress⟩
  rw [hl.content_eq, h.order, List.nil_append, List.append_assoc, List.take_append_drop]

theorem step_faithful {s : Except Fault Stream} {l : Label} (hs : Faithful c i s) (hl : HasRoom s l) :
    Faithful c i (step s l) := by
  obtain ⟨st, rfl, h⟩ := hs
  cases l with
  | round o =>
    rw [step_round]
    exact round_sound o h (hl st rfl)
  | take size =>
    rw [step_take]
    exact take_sound size h

/-- on a full buffer of 4096 bytes a `recv` of length 0 is issued, and nothing is received -/
theorem round_full (o : Recv) (h0 : s.buffer.writeAble = 0) (hs : 4096 ≤ s.buffer.size) :
    round o s = .ok (s.issue o s.buffer) := by
  refine round_quiet (makeRoom_full h0 hs) ?_
  intro x bs hr
  obtain ⟨-, hlen⟩ := recv_bytes h0.ge hr
  rw [h0, List.length_cons] at hlen
  omega

theorem step_unfaithful {s : Except Fault Stream} {l : Label} (hs : Faithful c i s) (hl : ¬ HasRoom s l) :
    ¬ Faithful c i (step s l) := by
  obtain ⟨st, rfl, h⟩ := hs
  cases l with
  | round o =>
    simp only [HasRoom, not_forall, not_or, not_not, not_lt] at hl
    obtain ⟨st', he, h0, hsize⟩ := hl
    obtain rfl := Except.ok.inj he
    rw [step_round, round_full o h0 hsize]
    rintro ⟨st', he, h'⟩
    obtain rfl := Except.ok.inj he
    have hlen : 0 < st.buffer.writeAble := h'.positive _ (List.mem_append_right _ (List.mem_singleton_self _))
    omega
  | take size => exact absurd trivial hl

/-! ## Runs -/

theorem start_sound {b : TcpBuffer} (hb : WF b) (i : Bytes) : Sound b.content i (start b i) :=
  ⟨hb, by simp [start], by simp [start], by simp [start], by simp [start], by simp [start]⟩

/-- **Faithful reading**: from any buffer, with any bytes under way and over any run of rounds and reads, reading is
faithful exactly if no round begins with a full buffer of 4096 bytes or more. -/
theorem faithful_iff {b : TcpBuffer} (hb : WF b) (i : Bytes) (ls : List Label) :
    (∀ n, Faithful b.content i (Machine.run step (.ok (start b i)) (ls.take n))) ↔
      Machine.Along step HasRoom (.ok (start b i)) ls :=
  Machine.along_iff (L := fun _ => True) (I := Faithful b.content i) (fun _ h => h)
    (fun _ _ _ hs hl => step_faithful hs hl) (fun _ _ _ hs hl => step_unfaithful hs hl) ⟨_, rfl, start_sound hb i⟩
    (fun _ _ => trivial)

/-- a full buffer of two bytes grows before the second round -/
theorem faithful_small : WF ⟨[1, 2], 0, 2⟩ ∧
    ∀ n, Faithful (TcpBuffer.content ⟨[1, 2], 0, 2⟩) [7, 8, 9]
      (Machine.run step (.ok (start ⟨[1, 2], 0, 2⟩ [7, 8, 9])) ([.round (.data 1), .take 3].take n)) := by
  have hb : WF ⟨[1, 2], 0, 2⟩ := ⟨by decide, by decide, by decide⟩
  refine ⟨hb, (faithful_iff hb _ _).2 ⟨?_, trivial, trivial⟩⟩
  intro st hst
  obtain rfl := Except.ok.inj hst
  exact .inr (by decide)

/-- a message that does not fit the capacity `n` fills the buffer, if it arrives before the first round -/
theorem fill {n : ℕ} {x : Bytes} (hn : 0 < n) (hx : n ≤ x.length) :
    ∃ s, step (.ok (start (make n) x)) (.round (.data n)) = .ok s ∧ s.buffer.writeAble = 0 ∧ s.buffer.size = n ∧
      s.incoming = x.drop n := by
  have hl := make_layout n
  have hw : (make n).writeAble = n := by rw [writeAble, make_size]; exact sub_zero _
  have hmake : makeRoom (make n) = .ok (make n) := by rw [makeRoom, if_neg (by omega)]
  have hlen : (x.take n).length = n := by rw [List.length_take, min_eq_left hx]
  have hne : x ≠ [] := by
    rintro rfl
    simp at hx
    omega
  have hr : recv (.data n) x (make n).writeAble = .bytes (x.take n) := by
    rw [hw, recv, if_neg hne, Int.toNat_natCast, min_eq_right (Nat.le_succ n)]
  have hpos : x.take n ≠ [] := by
    rw [← List.length_pos_iff, hlen]
    exact hn
  have hfit : ((x.take n).length : ℤ) ≤ (make n).writeAble := by rw [hw, hlen]
  obtain ⟨b, pre, post, hinto, hlb, hsize, -⟩ := recvInto_layout hl hfit
  refine ⟨_, (step_round _ _).trans (round_receives hmake hr hpos hinto), ?_, hsize.trans (make_size n), ?_⟩
  · -- as long as the storage, the content leaves nothing behind it
    have h := hlb.size_eq
    rw [hsize, make_size, List.nil_append, hlen] at h
    simp only [Stream.receive, writeAble, hlb.size_eq, hlb.write, List.nil_append, hlen]
    omega
  · show x.drop (x.take n).length = x.drop n
    rw [hlen]

/-- from then on no call of `readToBuffer` receives anything, until bytes are taken out of the buffer -/
theorem full_stuck (os : List Recv) (h0 : s.buffer.writeAble = 0) (hs : 4096 ≤ s.buffer.size) :
    ∃ s', Machine.run step (.ok s) (os.map .round) = .ok s' ∧ s'.buffer = s.buffer ∧ s'.incoming = s.incoming := by
  induction os generalizing s with
  | nil => exact ⟨s, rfl, rfl, rfl⟩
  | cons o os ih =>
    obtain ⟨s', hrun, hb, hi⟩ := ih (s := s.issue o s.buffer) h0 hs
    exact ⟨s', by rw [List.map_cons, Machine.run_cons, step_round, round_full o h0 hs, hrun], hb, hi⟩

/-- a message of 65537 bytes and the default capacity: the second `recv` has length 0, and its zero return ends the call
with a byte still under way -/
theorem full_zero_return : ∃ s, Machine.run step (.ok (start (make 65536) (List.replicate 65537 7)))
      [.round (.data 65536), .round (.data 0)] = .ok s ∧
    ⟨0, [7], .bytes []⟩ ∈ s.issued ∧ ¬ Faithful (make 65536).content (List.replicate 65537 7) (.ok s) := by
  obtain ⟨s, hfill, h0, hs, hi⟩ := fill (n := 65536) (x := List.replicate 65537 7) (by omega)
    (by rw [List.length_replicate]; omega)
  rw [List.drop_replicate] at hi
  have hmem : ⟨0, [7], .bytes []⟩ ∈ (s.issue (.data 0) s.buffer).issued :=
    List.mem_append_right _ (by rw [List.mem_singleton, h0, hi]; rfl)
  refine ⟨s.issue (.data 0) s.buffer, ?_, hmem, ?_⟩
  · rw [Machine.run_cons, hfill, Machine.run_cons, step_round, round_full (.data 0) h0 (by omega), Machine.run_nil]
  · rintro ⟨s', he, h⟩
    obtain rfl := Except.ok.inj he
    exact lt_irrefl 0 (h.positive _ hmem)

end Reading

end MCoroRpc
