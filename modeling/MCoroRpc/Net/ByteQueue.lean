/-
What a `TcpBuffer` is for: a queue of bytes, whatever the storage does under it.

- `Queue`: the queue alone. `push` at the end, `take` some of the front into a vector, `drop` some of it.
- `Call`: the six operations of the class with sizes that are not negative; `call` is the operation itself.
- `call_cases`, `refines_queue`: while the moves stay inside `readAble()` and `writeAble()`, each sequence of calls
  answers as the queue does. Growth, compaction and reset of the indices cannot be seen.
- `ordered_iff`: `moveReadIndex` compares with the size of the storage, not with the write index. The indices stay in
  order exactly as long as no move of the read index ends between the two (`read_passes_write`).
-/
import MCoroRpc.Core.Machine
import MCoroRpc.Core.Simulation
import MCoroRpc.Net.TcpBuffer

namespace MCoroRpc

/-! ## Queues -/

namespace Queue

/-- what a user of a queue of `α`s asks for; `take` hands over the vector that what is taken is appended to -/
inductive Op (α : Type) where
  | push (xs : List α)
  | take (re : List α) (n : ℕ)
  | drop (n : ℕ)
  | keep
deriving DecidableEq, Repr

variable {α : Type}

/-- the queue afterwards, and what is handed back -/
def step (q : List α) : Op α → List α × List α
  | .push xs => (q ++ xs, [])
  | .take re n => (q.drop n, re ++ q.take n)
  | .drop n => (q.drop n, [])
  | .keep => (q, [])

end Queue

namespace TcpBuffer

open Result Simulation

/-! ## Calls -/

inductive Call where
  | write (buf : List UInt8)
  | read (re : List UInt8) (size : ℕ)
  | resize (newSize : ℕ)
  | adjust
  | moveRead (size : ℕ)
  | moveWrite (size : ℕ)
deriving DecidableEq, Repr

/-- only `readFromBuffer` hands something back: its vector -/
def call (b : TcpBuffer) : Call → Except Fault (TcpBuffer × List UInt8)
  | .write buf => do return (← writeToBuffer buf b, [])
  | .read re size => readFromBuffer re size b
  | .resize newSize => do return (← resizeBuffer newSize b, [])
  | .adjust => do return (← adjustBuffer b, [])
  | .moveRead size => do return (← moveReadIndex size b, [])
  | .moveWrite size => do return (← moveWriteIndex size b, [])

/-- the moves are asked to stay inside what can be read, and inside the free space -/
def Inside (b : TcpBuffer) : Call → Prop
  | .moveRead size => (size : ℤ) ≤ b.readAble
  | .moveWrite size => (size : ℤ) ≤ b.writeAble
  | _ => True

instance (b : TcpBuffer) (c : Call) : Decidable (Inside b c) := by
  cases c <;> unfold Inside <;> infer_instance

/-- what the call means to the queue -/
def view (b : TcpBuffer) : Call → Queue.Op UInt8
  | .write buf => .push buf
  | .read re size => .take re size
  | .resize _ => .keep
  | .adjust => .keep
  | .moveRead size => .drop size
  | .moveWrite size => .push (b.rest.take size)

/-! ## Refinement -/

theorem resizeBuffer_keeps {b : TcpBuffer} (hb : WF b) (n : ℤ) :
    ∃ b', resizeBuffer n b = .ok b' ∧ WF b' ∧ b'.content = b.content := by
  by_cases hn : b.size < n
  · obtain ⟨b', h1, h2⟩ := resizeBuffer_layout hb.layout hn
    exact ⟨b', h1, h2.wf, h2.content_eq⟩
  · exact ⟨b, by simp only [resizeBuffer, not_lt.1 hn, if_true], hb, rfl⟩

theorem adjustBuffer_keeps {b : TcpBuffer} (hb : WF b) :
    ∃ b', adjustBuffer b = .ok b' ∧ WF b' ∧ b'.content = b.content := by
  obtain ⟨b', pre', post', h1, h2, -⟩ := adjustBuffer_layout hb.layout
  exact ⟨b', h1, h2.wf, h2.content_eq⟩

theorem moveReadIndex_drops {b : TcpBuffer} (hb : WF b) {n : ℕ} (hn : (n : ℤ) ≤ b.readAble) :
    ∃ b', moveReadIndex n b = .ok b' ∧ WF b' ∧ b'.content = b.content.drop n := by
  have hlen : (b.content.take n).length = n := by
    have := hb.layout.readAble_eq
    rw [List.length_take]
    omega
  have h : Layout b b.consumed (b.content.take n ++ b.content.drop n) b.rest := by
    rw [List.take_append_drop]
    exact hb.layout
  obtain ⟨b', pre', post', h1, h2, -⟩ := moveReadIndex_layout h
  rw [hlen] at h1
  exact ⟨b', h1, h2.wf, h2.content_eq⟩

theorem moveWriteIndex_pushes {b : TcpBuffer} (hb : WF b) {n : ℕ} (hn : (n : ℤ) ≤ b.writeAble) :
    ∃ b', moveWriteIndex n b = .ok b' ∧ WF b' ∧ b'.content = b.content ++ b.rest.take n := by
  have hlen : (b.rest.take n).length = n := by
    have h1 := hb.layout.size_eq
    have h2 := hb.layout.write
    simp only [writeAble] at hn
    rw [List.length_take]
    omega
  have h : Layout b b.consumed b.content (b.rest.take n ++ b.rest.drop n) := by
    rw [List.take_append_drop]
    exact hb.layout
  obtain ⟨b', pre', post', h1, h2, -⟩ := moveWriteIndex_layout h
  rw [hlen] at h1
  exact ⟨b', h1, h2.wf, h2.content_eq⟩

/-- each call that stays inside the buffer ends, and is answered as the queue answers it -/
theorem call_refines (b : TcpBuffer) (c : Call) (hb : WF b) (hc : Inside b c) :
    ∃ b' re, call b c = .ok (b', re) ∧ WF b' ∧ Queue.step b.content (view b c) = (b'.content, re) := by
  cases c with
  | write buf =>
    obtain ⟨b', pre', post', h1, h2, -⟩ := writeToBuffer_layout hb.layout buf
    refine ⟨b', [], by simp only [call, h1, ok_bind, pure_ok], h2.wf, ?_⟩
    rw [h2.content_eq]
    rfl
  | read re size =>
    obtain ⟨b', pre', post', h1, h2⟩ := readFromBuffer_layout hb.layout re size
    refine ⟨b', re ++ b.content.take size, h1, h2.wf, ?_⟩
    rw [h2.content_eq]
    rfl
  | resize newSize =>
    obtain ⟨b', h1, h2, h3⟩ := resizeBuffer_keeps hb newSize
    exact ⟨b', [], by simp only [call, h1, ok_bind, pure_ok], h2, by rw [h3]; rfl⟩
  | adjust =>
    obtain ⟨b', h1, h2, h3⟩ := adjustBuffer_keeps hb
    exact ⟨b', [], by simp only [call, h1, ok_bind, pure_ok], h2, by rw [h3]; rfl⟩
  | moveRead size =>
    obtain ⟨b', h1, h2, h3⟩ := moveReadIndex_drops hb hc
    exact ⟨b', [], by simp only [call, h1, ok_bind, pure_ok], h2, by rw [h3]; rfl⟩
  | moveWrite size =>
    obtain ⟨b', h1, h2, h3⟩ := moveWriteIndex_pushes hb hc
    exact ⟨b', [], by simp only [call, h1, ok_bind, pure_ok], h2, by rw [h3]; rfl⟩

theorem make_wf (size : ℕ) : WF (make size) := (make_layout size).wf

theorem make_content (size : ℕ) : (make size).content = [] := (make_layout size).content_eq

/-- **Refinement**: from any capacity, calls whose moves stay inside the buffer all end, and the content and every
vector read are those of a queue that starts empty. -/
theorem refines_queue (size : ℕ) (cs : List Call) (h : Legal call Inside (make size) cs) :
    ∃ b res, Simulation.run call (make size) cs = .ok (b, res) ∧ WF b ∧
      specRun Queue.step [] (views call view (make size) cs) = (b.content, res) := by
  have := run_refines call_refines (make_wf size) h
  rwa [make_content] at this

/-- growth from a capacity of 4, a read that compacts, a move of each index -/
theorem refines_queue_grown : Legal call Inside (make 4)
      [.write [1, 2, 3, 4, 5], .read [9] 3, .moveWrite 2, .moveRead 1, .adjust, .resize 20] ∧
    ∃ b res, Simulation.run call (make 4)
        [.write [1, 2, 3, 4, 5], .read [9] 3, .moveWrite 2, .moveRead 1, .adjust, .resize 20] = .ok (b, res) ∧ WF b ∧
      specRun Queue.step [] (views call view (make 4)
        [.write [1, 2, 3, 4, 5], .read [9] 3, .moveWrite 2, .moveRead 1, .adjust, .resize 20]) = (b.content, res) :=
  ⟨by decide, refines_queue 4 _ (by decide)⟩

/-! ## The order of the indices -/

/-- the buffer after one more call, if there still is one -/
def step (s : Except Fault TcpBuffer) (c : Call) : Except Fault TcpBuffer := do
  let (b, _) ← call (← s) c
  return b

/-- 0 ≤ read index ≤ write index ≤ size, so neither `readAble()` nor `writeAble()` is negative -/
def Ordered (s : Except Fault TcpBuffer) : Prop := ∃ b, s = .ok b ∧ WF b ∧ 0 ≤ b.readAble ∧ 0 ≤ b.writeAble

/-- a move of the read index stops at the write index, or is refused because it leaves the storage -/
def Stops (s : Except Fault TcpBuffer) : Call → Prop
  | .moveRead size => ∀ b, s = .ok b → (size : ℤ) ≤ b.readAble ∨ b.size < b.readIndex + size
  | _ => True

theorem WF.ordered {b : TcpBuffer} (hb : WF b) : Ordered (.ok b) := by
  obtain ⟨h1, h2, h3⟩ := hb
  exact ⟨b, rfl, ⟨h1, h2, h3⟩, by simp only [readAble]; omega, by simp only [writeAble]; omega⟩

theorem step_ok {b b' : TcpBuffer} {c : Call} {re : List UInt8} (h : call b c = .ok (b', re)) :
    step (.ok b) c = .ok b' := by
  simp only [step, ok_bind, h, pure_ok]

/-- a move that leaves the storage is refused -/
theorem moveWriteIndex_refused {b : TcpBuffer} {n : ℤ} (h : b.writeAble < n) : moveWriteIndex n b = .ok b := by
  simp only [writeAble] at h
  simp only [moveWriteIndex]
  rw [if_pos (.inr (by omega))]

theorem moveReadIndex_refused {b : TcpBuffer} {n : ℤ} (h : b.size < b.readIndex + n) : moveReadIndex n b = .ok b := by
  simp only [moveReadIndex]
  rw [if_pos (.inr h)]

theorem step_ordered {s : Except Fault TcpBuffer} {c : Call} (hs : Ordered s) (hc : Stops s c) :
    Ordered (step s c) := by
  obtain ⟨b, rfl, hb, -⟩ := hs
  by_cases hin : Inside b c
  · obtain ⟨b', re, h1, h2, -⟩ := call_refines b c hb hin
    rw [step_ok h1]
    exact h2.ordered
  · -- the only calls with an obligation are the moves; outside of the buffer they are refused
    cases c with
    | moveRead size =>
      have hout : b.size < b.readIndex + size := (hc b rfl).resolve_left hin
      have hcall : call b (.moveRead size) = .ok (b, []) := by simp only [call, moveReadIndex_refused hout, ok_bind, pure_ok]
      rw [step_ok hcall]
      exact hb.ordered
    | moveWrite size =>
      have hout : b.writeAble < size := not_le.1 hin
      have hcall : call b (.moveWrite size) = .ok (b, []) := by simp only [call, moveWriteIndex_refused hout, ok_bind, pure_ok]
      rw [step_ok hcall]
      exact hb.ordered
    | write => exact absurd trivial hin
    | read => exact absurd trivial hin
    | resize => exact absurd trivial hin
    | adjust => exact absurd trivial hin

/-- a move that ends behind the write index and inside the storage leaves less than nothing to read -/
theorem step_disordered {s : Except Fault TcpBuffer} {c : Call} (hs : Ordered s) (hc : ¬ Stops s c) :
    ¬ Ordered (step s c) := by
  obtain ⟨b, rfl, hb, -⟩ := hs
  intro ⟨b', h1, hb', hread, _⟩
  cases c with
  | moveRead size =>
    simp only [Stops, not_forall, not_or, not_le, not_lt] at hc
    obtain ⟨b₁, h2, h3, h4⟩ := hc
    obtain rfl := Except.ok.inj h2
    simp only [step, ok_bind, call, pure_ok] at h1
    obtain ⟨p, h5, h6⟩ := bind_eq_ok.1 h1
    obtain ⟨b₂, h7, h8⟩ := bind_eq_ok.1 h5
    obtain rfl := Except.ok.inj h8
    obtain rfl := Except.ok.inj h6
    have hr := hb.read
    rcases moveReadIndex_readAble h7 with ⟨-, h9⟩ | h9
    · omega
    · dsimp only at hread
      omega
  | write => exact hc trivial
  | read => exact hc trivial
  | resize => exact hc trivial
  | adjust => exact hc trivial
  | moveWrite => exact hc trivial

/-- **Order of the indices**: it holds after every call exactly if no move of the read index passes the write index
inside the storage. -/
theorem ordered_iff (size : ℕ) (cs : List Call) :
    (∀ n, Ordered (Machine.run step (.ok (make size)) (cs.take n))) ↔ Machine.Along step Stops (.ok (make size)) cs :=
  Machine.along_iff (L := fun _ => True) (I := Ordered) (fun _ h => h) (fun _ _ _ hs hc => step_ordered hs hc)
    (fun _ _ _ hs hc => step_disordered hs hc) (make_wf size).ordered (fun _ _ => trivial)

/-- two bytes written into a buffer of 30, a move by three: the read index passes the write index -/
theorem read_passes_write :
    Machine.run step (.ok (make 30)) [.write [1, 2], .moveRead 3] =
        .ok ⟨1 :: 2 :: List.replicate 28 0, 3, 2⟩ ∧
      ¬ Ordered (Machine.run step (.ok (make 30)) [.write [1, 2], .moveRead 3]) := by
  have h : Machine.run step (.ok (make 30)) [.write [1, 2], .moveRead 3] =
      .ok ⟨1 :: 2 :: List.replicate 28 0, 3, 2⟩ := by decide
  refine ⟨h, ?_⟩
  rw [h]
  intro ⟨b, hb, _, hread, _⟩
  obtain rfl := Except.ok.inj hb
  exact absurd hread (by decide)

end TcpBuffer

end MCoroRpc
