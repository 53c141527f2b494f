/-
The receiving half of a TcpStream (src/tcpstream.cc).

The socket is the string of bytes under way (`Bytes`, sent by the peer and not yet received) and what each `recv` meets
(`Recv`). A `recv` of length `len` takes a beginning of the bytes under way, at most `len` of them; the end of the
connection is met behind the last one. Where the list of outcomes ends, nothing more has arrived.

`readToBuffer_layout`: whatever the arrivals are, readToBuffer appends to the content what it takes from the bytes under
way, and keeps the size of a buffer of at least 4096 bytes.
-/
import MCoroRpc.Core.Result
import MCoroRpc.Net.TcpBuffer

namespace MCoroRpc

namespace TcpStream

open TcpBuffer Result

abbrev Bytes := List UInt8

/-- what a `recv` meets -/
inductive Recv where
  /-- at most `n + 1` of the bytes under way have arrived -/
  | data (n : ℕ)
  /-- nothing has arrived -/
  | again
  /-- the peer has closed the connection -/
  | eof
  | reset
  | error
deriving DecidableEq, Repr

/-- what a `recv` returns -/
inductive Received where
  /-- `n ≥ 0`: the bytes -/
  | bytes (bs : Bytes)
  /-- EAGAIN or EWOULDBLOCK -/
  | wouldBlock
  | connReset
  | failed
deriving DecidableEq, Repr

/-- `recv` of length `len`, with the bytes `incoming` under way -/
def recv (o : Recv) (incoming : Bytes) (len : ℤ) : Received :=
  match o with
  | .data n => if incoming = [] then .wouldBlock else .bytes (incoming.take (min (n + 1) len.toNat))
  | .again => .wouldBlock
  | .eof => if incoming = [] then .bytes [] else .wouldBlock
  | .reset => .connReset
  | .error => .failed

/-- how a `readToBuffer` stands -/
inductive ReadEnd where
  /-- it has returned the number of bytes read -/
  | done (total : ℕ)
  /-- it has thrown `std::system_error` -/
  | failed
  /-- it is suspended: nothing has arrived yet -/
  | waiting
deriving DecidableEq, Repr

/-- room for the next `recv` -/
def makeRoom (b : TcpBuffer) : Except Fault TcpBuffer :=
  if b.writeAble = 0 then b.resizeBuffer (b.writeAble + 4096) else .ok b

/-- `readToBuffer` with `total` bytes already read: how it stands, the bytes still under way and the buffer -/
def readToBuffer : List Recv → ℕ → Bytes → TcpBuffer → Except Fault (ReadEnd × Bytes × TcpBuffer)
  | [], total, incoming, b => .ok (if 0 < total then .done total else .waiting, incoming, b)
  | o :: os, total, incoming, b => do
    let b ← makeRoom b
    match recv o incoming b.writeAble with
    | .bytes [] => return (.done total, incoming, b)
    | .bytes (x :: bs) =>
      let b ← b.recvInto (x :: bs)
      readToBuffer os (total + (x :: bs).length) (incoming.drop (x :: bs).length) b
    | .wouldBlock => if 0 < total then return (.done total, incoming, b) else readToBuffer os total incoming b
    | .connReset => return (.done total, incoming, b)
    | .failed => return (.failed, incoming, b)

/-- a `recv` takes a beginning of the bytes under way that fits -/
theorem recv_bytes {o : Recv} {incoming bs : Bytes} {len : ℤ} (h0 : 0 ≤ len) (h : recv o incoming len = .bytes bs) :
    bs ++ incoming.drop bs.length = incoming ∧ (bs.length : ℤ) ≤ len := by
  cases o with
  | data n =>
    simp only [recv] at h
    split_ifs at h
    obtain rfl := Received.bytes.inj h
    have hlen : (incoming.take (min (n + 1) len.toNat)).length ≤ min (n + 1) len.toNat := by simp
    refine ⟨?_, by omega⟩
    by_cases hle : min (n + 1) len.toNat ≤ incoming.length
    · rw [List.length_take_of_le hle, List.take_append_drop]
    · rw [List.take_of_length_le (by omega)]
      simp
  | eof =>
    simp only [recv] at h
    split_ifs at h with hnil
    obtain rfl := Received.bytes.inj h
    exact ⟨by simp, by simpa using h0⟩
  | again => simp [recv] at h
  | reset => simp [recv] at h
  | error => simp [recv] at h

/-- a buffer of 4096 bytes is not enlarged, full or not -/
theorem makeRoom_layout {b : TcpBuffer} {pre c post : Bytes} (h : Layout b pre c post) :
    ∃ b' pre' post', makeRoom b = .ok b' ∧ Layout b' pre' c post' ∧ (4096 ≤ b.size → b'.size = b.size) := by
  unfold makeRoom
  by_cases h0 : b.writeAble = 0
  · rw [if_pos h0, h0]
    by_cases hs : b.size < 0 + 4096
    · obtain ⟨b', h1, h2⟩ := resizeBuffer_layout h hs
      exact ⟨b', _, _, h1, h2, fun hge => by omega⟩
    · exact ⟨b, pre, post, by rw [resizeBuffer, if_pos (not_lt.1 hs)], h, fun _ => rfl⟩
  · exact ⟨b, pre, post, by rw [if_neg h0], h, fun _ => rfl⟩

/-- a round of the loop ends the call, goes on without a byte, or goes on with the bytes received -/
theorem readToBuffer_cons (o : Recv) (os : List Recv) (total : ℕ) (incoming : Bytes) {b b1 : TcpBuffer}
    (hroom : makeRoom b = .ok b1) :
    (∀ x bs, recv o incoming b1.writeAble ≠ .bytes (x :: bs)) ∧
        ((∃ e, e ≠ .waiting ∧ (∀ n, e = .done n → n = total) ∧
            readToBuffer (o :: os) total incoming b = .ok (e, incoming, b1)) ∨
          readToBuffer (o :: os) total incoming b = readToBuffer os total incoming b1) ∨
      ∃ x bs, recv o incoming b1.writeAble = .bytes (x :: bs) ∧
        readToBuffer (o :: os) total incoming b =
          b1.recvInto (x :: bs) >>= readToBuffer os (total + (x :: bs).length) (incoming.drop (x :: bs).length) := by
  simp only [readToBuffer, hroom, ok_bind, pure_ok]
  cases hr : recv o incoming b1.writeAble with
  | bytes bs =>
    cases bs with
    | nil => exact .inl ⟨by simp, .inl ⟨_, by simp, by simp, rfl⟩⟩
    | cons x bs => exact .inr ⟨x, bs, rfl, rfl⟩
  | wouldBlock =>
    refine .inl ⟨by simp, ?_⟩
    by_cases ht : 0 < total
    · simp only [ht, if_true]
      exact .inl ⟨_, by simp, by simp, rfl⟩
    · simp only [ht, if_false]
      exact .inr trivial
  | connReset => exact .inl ⟨by simp, .inl ⟨_, by simp, by simp, rfl⟩⟩
  | failed => exact .inl ⟨by simp, .inl ⟨_, by simp, by simp, rfl⟩⟩

/-- **readToBuffer** appends a beginning of the bytes under way to the content -/
theorem readToBuffer_layout (os : List Recv) (total : ℕ) (incoming : Bytes) {b : TcpBuffer} {pre c post : Bytes}
    (h : Layout b pre c post) :
    ∃ e got incoming' b' pre' post', readToBuffer os total incoming b = .ok (e, incoming', b') ∧
      incoming = got ++ incoming' ∧ Layout b' pre' (c ++ got) post' ∧ (4096 ≤ b.size → b'.size = b.size) ∧
      (∀ n, e = .done n → n = total + got.length) ∧ (e = .waiting → total = 0 ∧ got = []) := by
  induction os generalizing total incoming b pre c post with
  | nil =>
    refine ⟨_, [], incoming, b, pre, post, rfl, rfl, by simpa using h, fun _ => rfl, ?_, ?_⟩
    · intro n hn
      split_ifs at hn
      simpa using (ReadEnd.done.inj hn).symm
    · intro hn
      split_ifs at hn with ht
      exact ⟨by omega, rfl⟩
  | cons o os ih =>
    obtain ⟨b1, pre1, post1, hroom, hl, hsize⟩ := makeRoom_layout h
    rcases readToBuffer_cons o os total incoming hroom with ⟨-, ⟨e, hw, hdone, hcall⟩ | hcall⟩ | ⟨x, bs, hr, hcall⟩
    · exact ⟨e, [], incoming, b1, pre1, post1, hcall, rfl, by simpa using hl, hsize, by simpa using hdone,
        fun h => absurd h hw⟩
    · obtain ⟨e, got, incoming', b', pre', post', hrest, hgot, hl', hsize', hend⟩ := ih total incoming hl
      refine ⟨e, got, incoming', b', pre', post', hcall.trans hrest, hgot, hl', fun hge => ?_, hend⟩
      rw [hsize' (by rw [hsize hge]; exact hge), hsize hge]
    · have h0 : 0 ≤ b1.writeAble := by
        simp only [writeAble, hl.size_eq, hl.write]
        omega
      obtain ⟨hsplit, hfit⟩ := recv_bytes h0 hr
      obtain ⟨b2, pre2, post2, hinto, hl2, hsize2, -⟩ := recvInto_layout hl hfit
      obtain ⟨e, got, incoming', b', pre', post', hrest, hgot, hl', hsize', hdone, hwait⟩ :=
        ih (total + (x :: bs).length) (incoming.drop (x :: bs).length) hl2
      refine ⟨e, (x :: bs) ++ got, incoming', b', pre', post', ?_, ?_, by simpa using hl', ?_, ?_, ?_⟩
      · rw [hcall, hinto, ok_bind, hrest]
      · rw [List.append_assoc, ← hgot, hsplit]
      · intro hge
        rw [hsize' (by rw [hsize2, hsize hge]; exact hge), hsize2, hsize hge]
      · intro n hn
        rw [hdone n hn, List.length_append]
        ring
      · intro hn
        have htotal := (hwait hn).1
        simp at htotal

/-- one arrival, taken whole -/
theorem readToBuffer_once {n : ℕ} {incoming x : Bytes} {b : TcpBuffer} {pre c post : Bytes} (h : Layout b pre c post)
    (hx : incoming.take (n + 1) = x) (hne : x ≠ []) (hfit : ((n + 1 : ℕ) : ℤ) ≤ b.writeAble) :
    ∃ b' pre' post', readToBuffer [.data n] 0 incoming b = .ok (.done x.length, incoming.drop x.length, b') ∧
      Layout b' pre' (c ++ x) post' ∧ b'.size = b.size ∧ b'.writeIndex ≤ b.writeIndex + x.length := by
  have hroom : makeRoom b = .ok b := by rw [makeRoom, if_neg (by omega)]
  have hin : incoming ≠ [] := by
    rintro rfl
    rw [List.take_nil] at hx
    exact hne hx.symm
  have hmin : min (n + 1) b.writeAble.toNat = n + 1 := by omega
  have hrecv : recv (.data n) incoming b.writeAble = .bytes x := by simp only [recv, hin, if_false, hmin, hx]
  have hlen : (x.length : ℤ) ≤ b.writeAble := by
    have : x.length ≤ n + 1 := by rw [← hx, List.length_take]; exact min_le_left _ _
    omega
  obtain ⟨b', pre', post', h1, h2, h3, h4⟩ := recvInto_layout h hlen
  refine ⟨b', pre', post', ?_, h2, h3, h4⟩
  obtain ⟨y, ys, rfl⟩ := List.exists_cons_of_ne_nil hne
  simp only [readToBuffer, hroom, ok_bind, hrecv, h1, Nat.zero_add, List.length_cons, Nat.succ_pos, if_true]

end TcpStream

end MCoroRpc
