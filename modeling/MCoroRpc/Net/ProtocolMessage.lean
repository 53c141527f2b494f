/-
The second framing path: TcpStream::readProtocolMessage (src/tcpstream.cc), next to the encoder of src/tinypb_coder.cc.

The encoder counts the whole frame in pk_len, START, the length itself and END included. readProtocolMessage reads pk_len
as the number of bytes behind the first five, so it takes five bytes more than the frame has.

- `messageTurn`: one turn of its two loops, the one that looks for START and the one that waits for the rest.
- `returns_of_frame`: whatever it returns for a frame is five bytes longer, as far as pk_len fits an int.
- `framesRead_iff`: whatever stands in front of the frames and in whatever pieces they arrive, the calls return the frames
  only if there are none.
-/
import MCoroRpc.Coder.Frame
import MCoroRpc.Net.TcpStream

namespace MCoroRpc

namespace TcpStream

open TcpBuffer TinyPB CInt Result

/-! ## Model -/

/-- a stream that is read from -/
structure Reader where
  /-- what the further calls of `readToBuffer` meet, call by call -/
  arrivals : List (List Recv)
  incoming : Bytes
  buffer : TcpBuffer
deriving DecidableEq, Repr

/-- the loop that a call stands in -/
inductive Phase where
  | scanning
  | collecting (totalLen : ℤ)
deriving DecidableEq, Repr

/-- how a call of `readProtocolMessage` stands -/
inductive MessageEnd where
  | returned (result : Bytes) (s : Reader)
  /-- in `readToBuffer`: nothing more has arrived -/
  | suspended
  /-- `readToBuffer` has thrown -/
  | thrown
deriving DecidableEq, Repr

/-- `co_await readToBuffer()`, then on with the loop -/
def awaitRead (p : Phase) (s : Reader) : Except Fault ((Phase × Reader) ⊕ MessageEnd) :=
  match s.arrivals with
  | [] => .ok (.inr .suspended)
  | os :: arrivals => do
    let (e, incoming, b) ← readToBuffer os 0 s.incoming s.buffer
    match e with
    | .done _ => return .inl (p, ⟨arrivals, incoming, b⟩)
    | .failed => return .inr .thrown
    | .waiting => return .inr .suspended

def messageTurn : Phase × Reader → Except Fault ((Phase × Reader) ⊕ MessageEnd)
  | (.scanning, s) =>
    if toInt s.buffer.readAble < 5 then awaitRead .scanning s
    else do
      if (← load .storage s.buffer s.buffer.readIndex 1) ≠ [PB_START] then
        let b ← s.buffer.moveReadIndex 1
        return .inl (.scanning, { s with buffer := b })
      else
        let pk ← loadInt .storage s.buffer (s.buffer.readIndex + 1)
        let totalLen ← addInt 5 pk
        return .inl (.collecting totalLen, s)
  | (.collecting totalLen, s) =>
    if s.buffer.readAble < totalLen then awaitRead (.collecting totalLen) s
    -- `reserve` of a negative number of bytes
    else if totalLen < 0 then throw .lengthError
    else do
      let result ← load .storage s.buffer s.buffer.readIndex totalLen
      let b ← s.buffer.moveReadIndex totalLen
      return .inr (.returned result { s with buffer := b })

/-- a call of `readProtocolMessage` ends with `r` -/
def ReadsMessage (s : Reader) (r : Except Fault MessageEnd) : Prop := Loop.Ends messageTurn (.scanning, s) r

/-- what is in the buffer and what is under way -/
def Reader.stream (s : Reader) : Bytes := s.buffer.content ++ s.incoming

/-- the next calls return the frames of the messages, one each, and leave what follows -/
def FramesRead : Reader → List TinyPBProtocol → Prop
  | _, [] => True
  | s, m :: ms => ∃ t, ReadsMessage s (.ok (.returned (frame (withId m)) t)) ∧ t.stream = wire ms ∧ FramesRead t ms

/-! ## One turn -/

variable {s t : Reader} {p q : Phase}

theorem awaitRead_turn (hb : WF s.buffer) (h : awaitRead p s = .ok (.inl (q, t))) :
    q = p ∧ WF t.buffer ∧ t.stream = s.stream := by
  unfold awaitRead at h
  split at h
  · simp at h
  · obtain ⟨e, got, incoming', b', pre', post', hread, hsplit, hl, -⟩ :=
      readToBuffer_layout (‹List Recv›) 0 s.incoming hb.layout
    rw [hread, ok_bind] at h
    cases e with
    | done n =>
      simp only [pure_ok, Except.ok.injEq, Sum.inl.injEq, Prod.mk.injEq] at h
      obtain ⟨rfl, rfl⟩ := h
      refine ⟨rfl, hl.wf, ?_⟩
      simp only [Reader.stream, hl.content_eq, List.append_assoc, ← hsplit]
    | failed => simp [pure_ok] at h
    | waiting => simp [pure_ok] at h

theorem awaitRead_ne_returned {r : Bytes} : awaitRead p s ≠ .ok (.inr (.returned r t)) := by
  intro h
  unfold awaitRead at h
  split at h
  · simp at h
  · obtain ⟨⟨e, incoming, b⟩, -, h⟩ := bind_eq_ok.1 h
    cases e <;> simp [pure_ok] at h

/-- the loop stands before the frame of `m`, or waits for as many bytes as it has read out of it -/
def Before (m : TinyPBProtocol) (rest : Bytes) : Phase × Reader → Prop
  | (.scanning, s) => WF s.buffer ∧ ∃ junk, PB_START ∉ junk ∧ s.stream = junk ++ (frame m ++ rest)
  | (.collecting n, s) => WF s.buffer ∧ n = 5 + toInt (frameLen m) ∧ s.stream = frame m ++ rest

theorem frame_head (m : TinyPBProtocol) : ∃ tail, frame m = PB_START :: (toNet (frameLen m) ++ tail) :=
  ⟨((parts m).drop 2).flatten, rfl⟩

theorem ofNet_toNet_eq (x : ℤ) : ofNet (toNet x) = toInt x := by rw [ofNet, natOf_toNet, toInt_emod]

theorem toInt_readAble {b : TcpBuffer} (hb : WF b) (h : ¬ toInt b.readAble < 5) : 5 ≤ b.readAble := by
  by_contra hlt
  have h0 : 0 ≤ b.readAble := by
    have := hb.order
    simp only [readAble]
    omega
  rw [toInt_of_isInt ⟨by omega, by omega⟩] at h
  omega

/-- the first five bytes that can be read -/
theorem content_five {b : TcpBuffer} (hb : WF b) (h : 5 ≤ b.readAble) :
    ∃ x y z, b.content = x :: (y ++ z) ∧ y.length = 4 := by
  have hlen := hb.layout.readAble_eq
  obtain ⟨x, cs, hx⟩ := List.exists_cons_of_length_pos (l := b.content) (by omega)
  refine ⟨x, cs.take 4, cs.drop 4, by rw [List.take_append_drop, hx], ?_⟩
  rw [hx, List.length_cons] at hlen
  rw [List.length_take]
  omega

/-- looking for START: more is read, a byte is skipped, or the length behind START is taken -/
theorem scanning_cases (hb : WF s.buffer) {r : (Phase × Reader) ⊕ MessageEnd}
    (h : messageTurn (.scanning, s) = .ok r) : awaitRead .scanning s = .ok r ∨
      ∃ x ys zs, s.buffer.content = x :: (ys ++ zs) ∧ ys.length = 4 ∧
        (x ≠ PB_START ∧ (∃ b, r = .inl (.scanning, { s with buffer := b }) ∧ WF b ∧ b.content = ys ++ zs) ∨
          x = PB_START ∧ r = .inl (.collecting (5 + ofNet ys), s)) := by
  simp only [messageTurn] at h
  split_ifs at h with hread
  · exact .inl h
  obtain ⟨x, ys, zs, hc, hys⟩ := content_five hb (toInt_readAble hb hread)
  refine .inr ⟨x, ys, zs, hc, hys, ?_⟩
  have hfirst : load .storage s.buffer s.buffer.readIndex 1 = .ok [x] :=
    load_content .storage hb.layout (x := []) (y := [x]) (z := ys ++ zs) hc (by simp [hb.layout.read]) rfl
  simp only [hfirst, ok_bind] at h
  split_ifs at h with hx
  · obtain ⟨b, pre, post, hmove, hl, -⟩ := moveReadIndex_layout (x := [x]) (y := ys ++ zs) (hc ▸ hb.layout)
    simp only [List.length_singleton, Nat.cast_one] at hmove
    simp only [hmove, ok_bind, pure_ok, Except.ok.injEq] at h
    exact .inl ⟨by simpa using hx, b, h.symm, hl.wf, hl.content_eq⟩
  · have hpk : loadInt .storage s.buffer (s.buffer.readIndex + 1) = .ok (ofNet ys) := by
      have hload : load .storage s.buffer (s.buffer.readIndex + 1) 4 = .ok ys :=
        load_content .storage hb.layout (x := [x]) (z := zs) hc (by simp [hb.layout.read]) (by simp [hys])
      rw [loadInt, hload, ok_bind, pure_ok]
    simp only [hpk, addInt, ok_bind, ite_bind, pure_ok, ite_error_eq_ok, Except.ok.injEq] at h
    exact .inr ⟨by simpa using hx, h.2.symm⟩

/-- waiting for the rest: more is read, or it is returned -/
theorem collecting_cases (hb : WF s.buffer) {n : ℤ} {r : (Phase × Reader) ⊕ MessageEnd}
    (h : messageTurn (.collecting n, s) = .ok r) : awaitRead (.collecting n) s = .ok r ∨
      0 ≤ n ∧ n ≤ s.buffer.readAble ∧ ∃ t, r = .inr (.returned (s.buffer.content.take n.toNat) t) := by
  simp only [messageTurn, throw_error] at h
  split_ifs at h with hread hneg
  · exact .inl h
  refine .inr ⟨not_lt.1 hneg, not_lt.1 hread, ?_⟩
  have hlen := hb.layout.readAble_eq
  have htake : (s.buffer.content.take n.toNat).length = n.toNat := by
    rw [List.length_take]
    omega
  have hload : load .storage s.buffer s.buffer.readIndex n = .ok (s.buffer.content.take n.toNat) :=
    load_content .storage hb.layout (x := []) (z := s.buffer.content.drop n.toNat)
      (by rw [List.take_append_drop, List.nil_append]) (by simp [hb.layout.read]) (by omega)
  rw [hload, ok_bind] at h
  obtain ⟨b, -, hret⟩ := bind_eq_ok.1 h
  exact ⟨_, (Except.ok.inj hret).symm⟩

/-- nothing is lost of the frame, whatever the loop does -/
theorem turn_before {m : TinyPBProtocol} {rest : Bytes} {x y : Phase × Reader} (h : Before m rest x)
    (ht : Loop.Turn messageTurn x y) : Before m rest y := by
  obtain ⟨p, s⟩ := x
  obtain ⟨q, t⟩ := y
  cases p with
  | scanning =>
    obtain ⟨hb, junk, hjunk, hstream⟩ := h
    rcases scanning_cases hb ht with hread | ⟨x, ys, zs, hc, hys, ⟨hx, b, he, hb', hc'⟩ | ⟨rfl, he⟩⟩
    · obtain ⟨rfl, hb', hs'⟩ := awaitRead_turn hb hread
      exact ⟨hb', junk, hjunk, hs'.trans hstream⟩
    · -- not START, so a byte of the junk
      obtain ⟨rfl, rfl⟩ := Prod.mk.inj (Sum.inl.inj he)
      obtain ⟨tail, hframe⟩ := frame_head m
      rw [Reader.stream, hc, hframe] at hstream
      cases junk with
      | nil => exact absurd (List.cons.inj hstream).1 hx
      | cons j js =>
        refine ⟨hb', js, fun hmem => hjunk (List.mem_cons_of_mem j hmem), ?_⟩
        rw [Reader.stream, hc', hframe]
        exact (List.cons.inj hstream).2
    · -- START, so the first byte of the frame
      obtain ⟨rfl, rfl⟩ := Prod.mk.inj (Sum.inl.inj he)
      obtain rfl : junk = [] := by
        rw [Reader.stream, hc] at hstream
        cases junk with
        | nil => rfl
        | cons j js => exact absurd (by rw [← (List.cons.inj hstream).1]; exact List.mem_cons_self) hjunk
      refine ⟨hb, ?_, hstream⟩
      obtain ⟨tail, hframe⟩ := frame_head m
      have hfour : ys = toNet (frameLen m) := by
        have h : ys ++ (zs ++ t.incoming) = toNet (frameLen m) ++ (tail ++ rest) := by
          rw [Reader.stream, hc, hframe] at hstream
          simpa [List.append_assoc] using (List.cons.inj hstream).2
        exact List.append_inj_left h (by rw [hys, toNet_length])
      rw [hfour, ofNet_toNet_eq]
  | collecting n =>
    obtain ⟨hb, hn, hs⟩ := h
    rcases collecting_cases hb ht with hread | ⟨-, -, u, he⟩
    · obtain ⟨rfl, hb', hs'⟩ := awaitRead_turn hb hread
      exact ⟨hb', hn, hs'.trans hs⟩
    · cases he

/-- what is returned has five bytes more than pk_len says -/
theorem returns_of_frame {m : TinyPBProtocol} {rest r : Bytes} (h : Before m rest (.scanning, s))
    (hr : ReadsMessage s (.ok (.returned r t))) :
    (r.length : ℤ) = 5 + toInt (frameLen m) ∧ r <+: frame m ++ rest := by
  obtain ⟨⟨p, u⟩, hu, -, hno, hend⟩ := Loop.ends_inv (fun _ _ hx hy => turn_before hx hy) hr h
  have hbody := Loop.returns_of_ends hno hend
  cases p with
  | scanning =>
    -- the first loop is not left with a message
    rcases scanning_cases hu.1 hbody with hread | ⟨_, _, _, -, -, ⟨-, _, he, -⟩ | ⟨-, he⟩⟩
    · exact absurd hread awaitRead_ne_returned
    · cases he
    · cases he
  | collecting n =>
    obtain ⟨hb, hn, hstream⟩ := hu
    rcases collecting_cases hb hbody with hread | ⟨hpos, hle, t', he⟩
    · exact absurd hread awaitRead_ne_returned
    obtain ⟨rfl, -⟩ := MessageEnd.returned.inj (Sum.inr.inj he)
    have hlen := hb.layout.readAble_eq
    refine ⟨?_, ?_⟩
    · rw [List.length_take]
      omega
    · rw [← hstream]
      exact (List.take_prefix _ _).trans (List.prefix_append _ _)

/-! ## The calls -/

/-- no 32-bit reading of the length makes up for the five bytes -/
theorem five_more (n : ℕ) : 5 + toInt n ≠ n := by
  intro h
  have hmod : toInt n % 4294967296 = n % 4294967296 := Int.bmod_emod
  omega

/-- **The two framing paths**: for messages as the encoder writes them, behind any bytes without START, in the buffer
or under way and however they arrive, the calls return the frames exactly if there is nothing to be returned. -/
theorem framesRead_iff {junk : Bytes} {ms : List TinyPBProtocol} (hb : WF s.buffer) (hjunk : PB_START ∉ junk)
    (hs : s.stream = junk ++ wire ms) : FramesRead s ms ↔ ms = [] := by
  cases ms with
  | nil => exact ⟨fun _ => rfl, fun _ => trivial⟩
  | cons m ms =>
    refine ⟨?_, (by nofun)⟩
    rintro ⟨t, hread, -⟩
    have hbefore : Before (withId m) (wire ms) (.scanning, s) := ⟨hb, junk, hjunk, by simpa [wire] using hs⟩
    obtain ⟨hlen, -⟩ := returns_of_frame hbefore hread
    rw [frame_length] at hlen
    exact absurd hlen.symm (five_more _)

/-- a junk byte and a frame that arrives in two pieces: the call returns something else -/
theorem framesRead_pieces : WF (TcpBuffer.make 50) ∧ PB_START ∉ [7] ∧
    ¬ FramesRead ⟨[[.data 3], [.data 40]], 7 :: wire [{}], .make 50⟩ [{}] :=
  have hb : WF (TcpBuffer.make 50) := (make_layout 50).wf
  have hjunk : PB_START ∉ [7] := by decide
  have hstream : Reader.stream ⟨[[.data 3], [.data 40]], 7 :: wire [{}], .make 50⟩ = [7] ++ wire [{}] := by
    rw [Reader.stream, (make_layout 50).content_eq]
    rfl
  ⟨hb, hjunk, fun h => List.cons_ne_nil _ _ ((framesRead_iff hb hjunk hstream).1 h)⟩

/-- two frames of 35 bytes in the buffer: the first call returns 40 bytes -/
def twoFrames : Reader := ⟨[], [], ⟨wire [{}, {}], 0, 70⟩⟩

/-- the first call swallows the beginning of the second frame, the second call finds no START and waits for ever -/
theorem two_frames_misread :
    (∃ t, ReadsMessage twoFrames (.ok (.returned (wire [{}] ++ (wire [{}]).take 5) t)) ∧
      ReadsMessage t (.ok .suspended)) ∧ ¬ FramesRead twoFrames [{}, {}] := by
  have hfirst : ReadsMessage twoFrames (.ok (.returned (wire [{}] ++ (wire [{}]).take 5)
      ⟨[], [], ⟨(wire [{}]).drop 5 ++ (wire [{}, {}]).drop 30, 0, 30⟩⟩)) := ⟨2, by decide⟩
  refine ⟨⟨_, hfirst, ⟨30, by decide⟩⟩, ?_⟩
  rintro ⟨t, hread, -⟩
  have h := MessageEnd.returned.inj (Except.ok.inj (hfirst.unique hread))
  exact absurd h.1 (by decide)

end TcpStream

end MCoroRpc
