/-
The critical sections of a Channel (include/coro/channel.hpp).

A `Channel` is what the mutex protects, and the flag. A section is a function of the channel and says what it has done
(`Put`, `Taken`): it resumes awaiters while it holds the mutex, and a resumed awaiter only runs to the end of its send or
recv (the coroutine that awaits that one is scheduled on the event loop), so it is back before the section goes on. An
operation is known by its number, a value by the operation that sends it.

`Shape` is what the sections keep: no reader waits beside a value, no writer beside free room.
-/
import Mathlib.Tactic

namespace MCoroRpc

/-- a value under the operation that sends it -/
structure Item (T : Type) where
  src : ℕ
  val : T
deriving DecidableEq, Repr

structure Channel (T : Type) where
  capacity : ℕ
  buffer : List (Item T)
  /-- the waiting writers, each with its value -/
  writers : List (Item T)
  /-- the waiting readers -/
  readers : List ℕ
  isActive : Bool
deriving DecidableEq, Repr

namespace Channel

variable {T : Type}

def make (capacity : ℕ) : Channel T := ⟨capacity, [], [], [], true⟩

/-! ## Sections that send -/

/-- what a section that sends has done -/
inductive Put (T : Type) where
  /-- resumed the front reader `r` with `y` -/
  | handed (r : ℕ) (y : Item T)
  | buffered
  /-- put the sender behind the waiting writers -/
  | queued
  /-- nothing: the buffer is full -/
  | full
deriving DecidableEq, Repr

/-- of `send` -/
def send (x : Item T) (c : Channel T) : Channel T × Put T :=
  match c.readers with
  | r :: rs => ({ c with readers := rs }, .handed r x)
  | [] => if c.buffer.length < c.capacity then ({ c with buffer := c.buffer ++ [x] }, .buffered) else (c, .full)

/-- the inner part of `sendSync`: a reader is given the front of the buffer -/
def wakeReader (c : Channel T) : Channel T × Put T :=
  match c.readers, c.buffer with
  | r :: rs, y :: ys => ({ c with readers := rs, buffer := ys }, .handed r y)
  | _, _ => (c, .buffered)

def sendSync (x : Item T) (c : Channel T) : Channel T × Put T :=
  match c.readers with
  | r :: rs => ({ c with readers := rs }, .handed r x)
  | [] => if c.buffer.length < c.capacity then wakeReader { c with buffer := c.buffer ++ [x] } else (c, .full)

def pushWriter (x : Item T) (c : Channel T) : Channel T × Put T :=
  match c.readers with
  | r :: rs => ({ c with readers := rs }, .handed r x)
  | [] =>
    if c.buffer.length < c.capacity then ({ c with buffer := c.buffer ++ [x] }, .buffered)
    else ({ c with writers := c.writers ++ [x] }, .queued)

/-! ## Sections that receive -/

/-- what a section that receives has got, and the writer it has resumed -/
structure Taken (T : Type) where
  value : Item T
  writer : Option (Item T)
deriving DecidableEq, Repr

/-- behind a value taken from the buffer: the front writer fills the place -/
def refill (x : Item T) (c : Channel T) : Channel T × Taken T :=
  match c.writers with
  | w :: ws => ({ c with writers := ws, buffer := c.buffer ++ [w] }, ⟨x, some w⟩)
  | [] => (c, ⟨x, none⟩)

/-- the common part of `recv`, `tryRecv` and `pushReader`: the waiting writers come first -/
def take (c : Channel T) : Option (Channel T × Taken T) :=
  match c.writers with
  | w :: ws => some ({ c with writers := ws }, ⟨w, some w⟩)
  | [] =>
    match c.buffer with
    | x :: xs => some (refill x { c with buffer := xs })
    | [] => none

/-- the last branch of `pushReader` -/
def enqueue (r : ℕ) (c : Channel T) : Channel T := { c with readers := c.readers ++ [r] }

/-! ## Sections that clear -/

/-- the awaiters in the order in which they are cancelled -/
def awaiters (c : Channel T) : List ℕ := c.writers.map Item.src ++ c.readers

def cancelAllAwaiters (c : Channel T) : Channel T := { c with writers := [], readers := [] }

def cleanup (c : Channel T) : Channel T := { c with writers := [], readers := [], buffer := [] }

/-! ## What the sections do -/

section
variable {c : Channel T} {x w : Item T} {r : ℕ} {rs : List ℕ} {ws xs : List (Item T)}

theorem send_handed (h : c.readers = r :: rs) : c.send x = ({ c with readers := rs }, .handed r x) := by
  simp only [send, h]

theorem send_buffered (h : c.readers = []) (hlt : c.buffer.length < c.capacity) :
    c.send x = ({ c with buffer := c.buffer ++ [x] }, .buffered) := by
  simp only [send, h, hlt, if_true]

theorem send_full (h : c.readers = []) (hle : c.capacity ≤ c.buffer.length) : c.send x = (c, .full) := by
  simp only [send, h, not_lt.2 hle, if_false]

/-- the inner test of the readers finds none -/
theorem sendSync_eq : c.sendSync x = c.send x := by
  cases h : c.readers with
  | nil => simp only [sendSync, send, h, wakeReader]
  | cons r rs => simp only [sendSync, send, h]

theorem pushWriter_handed (h : c.readers = r :: rs) : c.pushWriter x = ({ c with readers := rs }, .handed r x) := by
  simp only [pushWriter, h]

theorem pushWriter_buffered (h : c.readers = []) (hlt : c.buffer.length < c.capacity) :
    c.pushWriter x = ({ c with buffer := c.buffer ++ [x] }, .buffered) := by
  simp only [pushWriter, h, hlt, if_true]

theorem pushWriter_queued (h : c.readers = []) (hle : c.capacity ≤ c.buffer.length) :
    c.pushWriter x = ({ c with writers := c.writers ++ [x] }, .queued) := by
  simp only [pushWriter, h, not_lt.2 hle, if_false]

theorem take_writer (h : c.writers = w :: ws) : c.take = some ({ c with writers := ws }, ⟨w, some w⟩) := by
  simp only [take, h]

/-- no writer waits to fill the place -/
theorem take_buffer (h : c.writers = []) (hb : c.buffer = x :: xs) :
    c.take = some ({ c with buffer := xs }, ⟨x, none⟩) := by
  simp only [take, h, hb, refill]

theorem take_none (h : c.writers = []) (hb : c.buffer = []) : c.take = none := by
  simp only [take, h, hb]

end

/-! ## No missed rendezvous -/

structure Shape (c : Channel T) : Prop where
  room : c.buffer.length ≤ c.capacity
  reader : c.readers ≠ [] → c.buffer = [] ∧ c.writers = []
  writer : c.writers ≠ [] → c.buffer.length = c.capacity ∧ c.readers = []

namespace Shape

variable {c : Channel T} {x w : Item T} {r : ℕ} {rs : List ℕ} {ws xs : List (Item T)}

theorem make (capacity : ℕ) : Shape (Channel.make capacity : Channel T) :=
  ⟨Nat.zero_le _, fun h => absurd rfl h, fun h => absurd rfl h⟩

/-- what waits behind a reader: nothing -/
theorem of_reader (h : Shape c) (hr : c.readers = r :: rs) : c.buffer = [] ∧ c.writers = [] :=
  h.reader (by rw [hr]; exact List.cons_ne_nil _ _)

theorem of_writer (h : Shape c) (hw : c.writers = w :: ws) : c.buffer.length = c.capacity ∧ c.readers = [] :=
  h.writer (by rw [hw]; exact List.cons_ne_nil _ _)

/-- no writer waits beside free room -/
theorem of_room (h : Shape c) (hlt : c.buffer.length < c.capacity) : c.writers = [] := by
  by_contra hne
  have := (h.writer hne).1
  omega

theorem of_buffer (h : Shape c) (hb : c.buffer = x :: xs) : c.readers = [] := by
  by_contra hne
  rw [(h.reader hne).1] at hb
  cases hb

theorem handed (h : Shape c) (hr : c.readers = r :: rs) : Shape { c with readers := rs } :=
  ⟨h.room, fun _ => h.of_reader hr, fun hw => absurd (h.of_reader hr).2 hw⟩

theorem buffered (h : Shape c) (hr : c.readers = []) (hlt : c.buffer.length < c.capacity) :
    Shape { c with buffer := c.buffer ++ [x] } := by
  refine ⟨?_, fun hne => absurd hr hne, fun hne => absurd (h.of_room hlt) hne⟩
  simp only [List.length_append, List.length_singleton]
  omega

theorem queued (h : Shape c) (hr : c.readers = []) (hle : c.capacity ≤ c.buffer.length) :
    Shape { c with writers := c.writers ++ [x] } :=
  ⟨h.room, fun hne => absurd hr hne, fun _ => ⟨le_antisymm h.room hle, hr⟩⟩

theorem fromWriter (h : Shape c) (hw : c.writers = w :: ws) : Shape { c with writers := ws } :=
  ⟨h.room, fun hne => absurd (h.of_writer hw).2 hne, fun _ => h.of_writer hw⟩

theorem fromBuffer (h : Shape c) (hw : c.writers = []) (hb : c.buffer = x :: xs) : Shape { c with buffer := xs } := by
  refine ⟨?_, fun hne => absurd (h.of_buffer hb) hne, fun hne => absurd hw hne⟩
  have hroom := h.room
  rw [hb, List.length_cons] at hroom
  exact Nat.le_of_succ_le hroom

theorem enqueue (h : Shape c) (hw : c.writers = []) (hb : c.buffer = []) : Shape (c.enqueue r) :=
  ⟨h.room, fun _ => ⟨hb, hw⟩, fun hne => absurd hw hne⟩

theorem closed (h : Shape c) : Shape { c with isActive := false } := ⟨h.room, h.reader, h.writer⟩

theorem cancelAllAwaiters (h : Shape c) : Shape c.cancelAllAwaiters :=
  ⟨h.room, fun hne => absurd rfl hne, fun hne => absurd rfl hne⟩

theorem cleanup (c : Channel T) : Shape c.cleanup :=
  ⟨Nat.zero_le _, fun hne => absurd rfl hne, fun hne => absurd rfl hne⟩

end Shape

end Channel

end MCoroRpc
