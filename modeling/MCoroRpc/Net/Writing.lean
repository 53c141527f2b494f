/-
A TcpStream that is written to by any number of coroutines (src/tcpstream.cc, `write` and `writeFromBuffer`).

All writes of a stream share its write buffer. A write puts its bytes behind what is there and then sends from the front
of the buffer until nothing is left, whoever has put it there. What a write has begun to do it can leave to others: at
EAGAIN it is suspended, an error ends it, and the destructor of its task ends it where it is suspended.

- `Label`, `step`: a write begins (`Task` is lazy: that is when the call has its effect), takes a turn of the loop of
  `writeFromBuffer`, is resumed or destroyed. The code changes to another coroutine only at EAGAIN, a run at any label.
- `Books`: what has been sent, followed by the content of the buffer, is what has been written.
- `delivers`: so what has been sent is a prefix of what has been written, and a write that has returned has had all of its
  bytes sent.
-/
import MCoroRpc.Core.Table
import MCoroRpc.Net.ByteQueue
import MCoroRpc.Net.TcpStream

namespace MCoroRpc

namespace Writing

open TcpBuffer Result
open TcpStream (Bytes)

/-! ## Model -/

/-- what a `send` meets -/
inductive Send where
  /-- at most `n + 1` bytes are taken -/
  | took (n : ℕ)
  | zero
  /-- EAGAIN or EWOULDBLOCK -/
  | again
  | error
deriving DecidableEq, Repr

inductive Pc where
  /-- before the condition of the loop -/
  | looping
  /-- in `co_await WriteAwaiter` -/
  | suspended
  | returned
  /-- an exception has left it -/
  | failed
  | destroyed
deriving DecidableEq, Repr

structure Write where
  bytes : Bytes
  pc : Pc
deriving DecidableEq, Repr

structure Writer where
  buffer : TcpBuffer
  /-- what `send` has taken -/
  sent : Bytes := []
  /-- in the order in which they have begun -/
  writes : List Write := []
deriving DecidableEq, Repr

inductive Label where
  | write (bs : Bytes)
  | turn (i : ℕ) (o : Send)
  | resume (i : ℕ)
  | destroy (i : ℕ)
deriving DecidableEq, Repr

def start (bufferSize : ℕ) : Writer := { buffer := make bufferSize }

def Writer.goto (i : ℕ) (pc : Pc) (s : Writer) : Writer :=
  { s with writes := s.writes.modify i fun w => { w with pc := pc } }

/-- `write`, up to the loop of `writeFromBuffer` -/
def write (bs : Bytes) (s : Writer) : Except Fault Writer := do
  let b ← s.buffer.writeToBuffer bs
  return { s with buffer := b, writes := s.writes ++ [⟨bs, .looping⟩] }

/-- one turn of the loop of `writeFromBuffer`, by the `i`-th write -/
def turn (i : ℕ) (o : Send) (s : Writer) : Except Fault Writer :=
  if 0 < s.buffer.readAble then
    match o with
    | .took k => do
      let n := min (k + 1 : ℤ) s.buffer.readAble
      let b ← s.buffer.moveReadIndex n
      return { s with buffer := b, sent := s.sent ++ s.buffer.bytes s.buffer.readIndex n }
    | .zero => return s.goto i .failed
    | .again => return s.goto i .suspended
    | .error => return s.goto i .failed
  else return s.goto i .returned

/-- the `i`-th write stands at `pc` -/
def Writer.At (s : Writer) (i : ℕ) (pc : Pc) : Prop := (s.writes[i]?.map Write.pc) = some pc

instance (s : Writer) (i : ℕ) (pc : Pc) : Decidable (s.At i pc) := inferInstanceAs (Decidable (_ = _))

def act (l : Label) (s : Writer) : Except Fault Writer :=
  match l with
  | .write bs => write bs s
  | .turn i o => if s.At i .looping then turn i o s else return s
  | .resume i => if s.At i .suspended then return s.goto i .looping else return s
  | .destroy i => if s.At i .suspended then return s.goto i .destroyed else return s

def step (s : Except Fault Writer) (l : Label) : Except Fault Writer := do act l (← s)

/-! ## What has been written -/

/-- the bytes of these writes, one after the other -/
def total (ws : List Write) : Bytes := (ws.map Write.bytes).flatten

/-- what has been written, in the order of the writes -/
def Writer.written (s : Writer) : Bytes := total s.writes

@[simp] theorem total_snoc (ws : List Write) (w : Write) : total (ws ++ [w]) = total ws ++ w.bytes := by
  simp [total]

theorem total_modify (ws : List Write) (i : ℕ) (pc : Pc) :
    total (ws.modify i fun w => { w with pc := pc }) = total ws := by
  have hmap : (ws.modify i fun w => { w with pc := pc }).map Write.bytes = ws.map Write.bytes := by
    refine List.ext_getElem? fun j => ?_
    rw [List.getElem?_map, List.getElem?_map, List.getElem?_modify]
    cases ws[j]? with
    | none => rfl
    | some w => by_cases hij : i = j <;> simp [hij]
  rw [total, hmap, total]

theorem total_take_prefix (ws : List Write) (i : ℕ) : total (ws.take i) <+: total ws := by
  refine ⟨total (ws.drop i), ?_⟩
  rw [total, total, total, ← List.flatten_append, ← List.map_append, List.take_append_drop]

/-! ## The books -/

structure Books (s : Writer) : Prop where
  wf : WF s.buffer
  /-- what has been sent and what is still in the buffer -/
  balance : s.sent ++ s.buffer.content = s.written
  /-- a write that has returned has been sent, with all that was written before it -/
  returned : ∀ i, s.At i .returned → total (s.writes.take (i + 1)) <+: s.sent

theorem at_goto {s : Writer} {i j : ℕ} {pc pc' : Pc} (h : (s.goto i pc).At j pc') :
    j = i ∧ pc' = pc ∨ s.At j pc' := by
  obtain ⟨w, hw, rfl⟩ := Option.map_eq_some_iff.1 h
  rcases Table.of_getElem?_modify hw with ⟨hj, w', -, rfl⟩ | ⟨-, hold⟩
  · exact .inl ⟨hj, rfl⟩
  · right
    rw [Writer.At, hold, Option.map_some]

theorem Books.goto {s : Writer} (h : Books s) {i : ℕ} {pc : Pc} (hret : pc = .returned → s.buffer.content = []) :
    Books (s.goto i pc) := by
  refine ⟨h.wf, h.balance.trans (total_modify s.writes i pc).symm, ?_⟩
  intro j hj
  have htake : total ((s.goto i pc).writes.take (j + 1)) = total (s.writes.take (j + 1)) := by
    simp only [Writer.goto]
    rw [List.take_modify]
    exact total_modify _ _ _
  rw [htake]
  rcases at_goto hj with ⟨rfl, hpc⟩ | hj
  · have hall : s.sent = s.written := by
      rw [← h.balance, hret hpc.symm, List.append_nil]
    show _ <+: s.sent
    rw [hall]
    exact total_take_prefix _ _
  · exact h.returned j hj

theorem start_books (bufferSize : ℕ) : Books (start bufferSize) :=
  ⟨make_wf bufferSize, make_content bufferSize, fun i hi => by simp [start, Writer.At] at hi⟩

/-! ## One step -/

/-- the step ends, and the books are right -/
def Keeps (x : Except Fault Writer) : Prop := ∃ s, x = .ok s ∧ Books s

theorem Books.keeps {s : Writer} (h : Books s) : Keeps (.ok s) := ⟨s, rfl, h⟩

theorem write_keeps {s : Writer} (h : Books s) (bs : Bytes) : Keeps (write bs s) := by
  obtain ⟨b, pre, post, hwrite, hl, -⟩ := writeToBuffer_layout h.wf.layout bs
  simp only [write, hwrite, ok_bind, pure_ok]
  refine ⟨_, rfl, hl.wf, ?_, ?_⟩
  · simp only [hl.content_eq, Writer.written, total_snoc, ← List.append_assoc]
    rw [h.balance, Writer.written]
  · -- the new write has not returned, and the others are where they were
    intro i hi
    have hlt : i < s.writes.length := by
      by_contra hge
      rcases Nat.lt_or_eq_of_le (not_lt.1 hge) with hgt | rfl
      · simp [Writer.At, not_le.2 hgt] at hi
      · simp [Writer.At] at hi
    simp only [Writer.At, List.getElem?_append_left hlt] at hi
    rw [List.take_append_of_le_length hlt]
    exact h.returned i hi

/-- `send` takes the front of the content -/
theorem bytes_readIndex {b : TcpBuffer} {n : ℤ} (hn : n ≤ b.readAble) :
    b.bytes b.readIndex n = b.content.take n.toNat := by
  rw [content, bytes, bytes, List.take_take, min_eq_left (Int.toNat_le_toNat hn)]

theorem turn_keeps {s : Writer} (h : Books s) (i : ℕ) (o : Send) : Keeps (turn i o s) := by
  have hlen := h.wf.layout.readAble_eq
  by_cases hread : 0 < s.buffer.readAble
  · unfold turn
    rw [if_pos hread]
    cases o with
    | took k =>
      obtain ⟨n, hn⟩ := Int.eq_ofNat_of_zero_le (show 0 ≤ min (k + 1 : ℤ) s.buffer.readAble by omega)
      have hle : (n : ℤ) ≤ s.buffer.readAble := hn ▸ min_le_right _ _
      obtain ⟨b, hmove, hwf, hcontent⟩ := moveReadIndex_drops h.wf hle
      simp only [hn, hmove, ok_bind, pure_ok, bytes_readIndex hle, Int.toNat_natCast]
      refine ⟨_, rfl, hwf, ?_, fun j hj => (h.returned j hj).trans (List.prefix_append _ _)⟩
      rw [hcontent, List.append_assoc, List.take_append_drop]
      exact h.balance
    | zero => exact (h.goto (by simp)).keeps
    | again => exact (h.goto (by simp)).keeps
    | error => exact (h.goto (by simp)).keeps
  · unfold turn
    rw [if_neg hread]
    refine (h.goto fun _ => ?_).keeps
    rw [← List.length_eq_zero_iff]
    omega

theorem act_keeps {s : Writer} (h : Books s) (l : Label) : Keeps (act l s) := by
  cases l with
  | write bs => exact write_keeps h bs
  | turn i o =>
    simp only [act]
    split_ifs
    · exact turn_keeps h i o
    · exact h.keeps
  | resume i =>
    simp only [act]
    split_ifs
    · exact (h.goto (by simp)).keeps
    · exact h.keeps
  | destroy i =>
    simp only [act]
    split_ifs
    · exact (h.goto (by simp)).keeps
    · exact h.keeps

theorem step_keeps {x : Except Fault Writer} (h : Keeps x) (l : Label) : Keeps (step x l) := by
  obtain ⟨s, rfl, hs⟩ := h
  simpa only [step, ok_bind] using act_keeps hs l

/-! ## Runs -/

theorem run_keeps (bufferSize : ℕ) (ls : List Label) : Keeps (Machine.run step (.ok (start bufferSize)) ls) :=
  Machine.inv_run_of_step (I := Keeps) (fun _ l h => step_keeps h l) (start_books bufferSize).keeps _

/-- **Exact delivery**: whatever the capacity, the writes, what their `send`s meet and the order in which they take their
turns, no step leaves the buffer's storage, what `send` has taken is a prefix of what has been written, and of a write that
has returned, and of all writes before it, it has taken every byte. -/
theorem delivers (bufferSize : ℕ) (ls : List Label) :
    ∃ s, Machine.run step (.ok (start bufferSize)) ls = .ok s ∧ s.sent <+: s.written ∧
      ∀ i, s.At i .returned → total (s.writes.take (i + 1)) <+: s.sent := by
  obtain ⟨s, hrun, hs⟩ := run_keeps bufferSize ls
  exact ⟨s, hrun, ⟨_, hs.balance⟩, hs.returned⟩

/-- the first write is suspended after one byte; the second sends the rest of both and returns before it -/
example : Machine.run step (.ok (start 2))
      [.write [1, 2], .turn 0 (.took 0), .turn 0 .again, .write [3, 4], .turn 1 (.took 5), .turn 1 .again, .resume 1,
        .turn 1 .again, .resume 0] =
    .ok ⟨⟨[2, 3, 4, 0], 0, 0⟩, [1, 2, 3, 4], [⟨[1, 2], .looping⟩, ⟨[3, 4], .returned⟩]⟩ := by decide

end Writing

end MCoroRpc
