/-
Operations on a Channel, interleaved (include/coro/channel.hpp).

An operation (`Op`) is a call and where it stands. It gives up the mutex between its sections, and its reads of the flag
are steps of their own:
- send: `entry` reads the flag, `lock` is the first section, `push` is pushWriter;
- recv: `entry` is the first section, `check` reads the flag, `push` is pushReader;
- tryRecv: `entry` is its section;
- sendSync: `entry` reads the flag, `lock` is its section;
- close: `entry` sets the flag, `lock` is cleanup;
- cancelAllAwaiters: `entry` is its section.
A label starts an operation or lets one take its next step; any order of labels is a run.

`System` keeps books on the operations: the sends in the order in which they took effect, what the receivers have got,
the receivers in the order in which they blocked and in which they were served, and the awaiters that were resumed.

- `advance_move`: all that a step can do.
- `shape_inv`: in every reachable state no reader waits beside a value and no writer beside free room.
-/
import MCoroRpc.Core.Machine
import MCoroRpc.Coro.Channel

namespace MCoroRpc.Channel

variable {T : Type}

/-! ## Model -/

inductive Call (T : Type) where
  | send (v : T)
  | recv
  | tryRecv
  | sendSync (v : T)
  | close
  | cancelAllAwaiters
deriving DecidableEq, Repr

/-- how an operation ends -/
inductive Outcome (T : Type) where
  /-- without a value -/
  | returned
  | received (x : Item T)
  | tried (x : Option (Item T))
  | synced (b : Bool)
  | cancelledException
  | channelClosedException
deriving DecidableEq, Repr

inductive Pc (T : Type) where
  | entry
  | lock
  | check
  | push
  /-- suspended, in one of the lists of the channel -/
  | waiting
  | done (o : Outcome T)
deriving DecidableEq, Repr

structure Op (T : Type) where
  call : Call T
  pc : Pc T
deriving DecidableEq, Repr

structure System (T : Type) where
  chan : Channel T
  ops : List (Op T)
  /-- what has been buffered, queued or handed over, in this order -/
  effects : List (Item T)
  /-- what receivers have got, in this order -/
  obtained : List (Item T)
  /-- the receivers that have blocked -/
  blocked : List ℕ
  /-- the receivers that a sender has taken from the list -/
  served : List ℕ
  /-- the awaiters whose coroutine has been resumed -/
  resumed : List ℕ
deriving DecidableEq, Repr

inductive Label (T : Type) where
  | start (call : Call T)
  | go (i : ℕ)
deriving DecidableEq, Repr

def init (capacity : ℕ) : System T := ⟨make capacity, [], [], [], [], [], []⟩

def setPc (ops : List (Op T)) (i : ℕ) (pc : Pc T) : List (Op T) := ops.modify i fun op => { op with pc := pc }

/-- `await_resume` of a writer that has not been cancelled -/
def writerResume (isActive : Bool) : Outcome T := if isActive then .returned else .channelClosedException

/-- `await_resume` of a reader that has not been cancelled -/
def readerResume (isActive : Bool) (x : Item T) : Outcome T :=
  if isActive then .received x else .channelClosedException

/-- the value that such a reader gets -/
def kept (isActive : Bool) (x : Item T) : List (Item T) := if isActive then [x] else []

namespace System

def moveTo (i : ℕ) (pc : Pc T) (s : System T) : System T := { s with ops := setPc s.ops i pc }

def finish (i : ℕ) (o : Outcome T) (s : System T) : System T := s.moveTo i (.done o)

/-- a receiver ends with a value -/
def deliver (i : ℕ) (x : Item T) (o : Outcome T) (s : System T) : System T :=
  { s with obtained := s.obtained ++ [x] }.finish i o

/-- `resume` of a writer -/
def resume (i : ℕ) (s : System T) : System T :=
  { s with resumed := s.resumed ++ [i] }.finish i (writerResume s.chan.isActive)

/-- `resumeWithValue` of a reader -/
def resumeWithValue (i : ℕ) (x : Item T) (s : System T) : System T :=
  { s with resumed := s.resumed ++ [i], obtained := s.obtained ++ kept s.chan.isActive x }.finish i
    (readerResume s.chan.isActive x)

def cancel (s : System T) (i : ℕ) : System T :=
  { s with resumed := s.resumed ++ [i] }.finish i .cancelledException

/-- what a section that sends `x` has done to the others -/
def put (x : Item T) (s : System T) : Channel T × Put T → System T
  | (c, .handed r y) =>
    { s with chan := c, effects := s.effects ++ [x], served := s.served ++ [r] }.resumeWithValue r y
  | (c, .buffered) => { s with chan := c, effects := s.effects ++ [x] }
  | (c, .queued) => { s with chan := c, effects := s.effects ++ [x] }
  | (c, .full) => { s with chan := c }

def send (i : ℕ) (x : Item T) (s : System T) : System T :=
  match s.chan.send x with
  | (c, .full) => (s.put x (c, .full)).moveTo i .push
  | (c, p) => (s.put x (c, p)).finish i .returned

def sendSync (i : ℕ) (x : Item T) (s : System T) : System T :=
  match s.chan.sendSync x with
  | (c, .full) => (s.put x (c, .full)).finish i (.synced false)
  | (c, p) => (s.put x (c, p)).finish i (.synced true)

def pushWriter (i : ℕ) (x : Item T) (s : System T) : System T :=
  match s.chan.pushWriter x with
  | (c, .queued) => (s.put x (c, .queued)).moveTo i .waiting
  | (c, p) => (s.put x (c, p)).resume i

/-- what a section that receives has done to the others -/
def release (s : System T) : Channel T × Taken T → System T
  | (c, ⟨_, some w⟩) => { s with chan := c }.resume w.src
  | (c, ⟨_, none⟩) => { s with chan := c }

def recv (i : ℕ) (s : System T) : System T :=
  match s.chan.take with
  | some t => (s.release t).deliver i t.2.value (.received t.2.value)
  | none => s.moveTo i .check

def tryRecv (i : ℕ) (s : System T) : System T :=
  match s.chan.take with
  | some t => (s.release t).deliver i t.2.value (.tried (some t.2.value))
  | none => s.finish i (.tried none)

def pushReader (i : ℕ) (s : System T) : System T :=
  match s.chan.take with
  | some t => (s.release t).resumeWithValue i t.2.value
  | none => { s with chan := s.chan.enqueue i, blocked := s.blocked ++ [i] }.moveTo i .waiting

def cancelAllAwaiters (s : System T) : System T :=
  { s.chan.awaiters.foldl cancel s with chan := s.chan.cancelAllAwaiters }

def cleanup (s : System T) : System T :=
  { s.chan.awaiters.foldl cancel s with chan := s.chan.cleanup }

/-- the next step of the operation `i` -/
def advance (i : ℕ) (s : System T) : System T :=
  match s.ops[i]? with
  | some ⟨.send _, .entry⟩ => if s.chan.isActive then s.moveTo i .lock else s.finish i .returned
  | some ⟨.send v, .lock⟩ => s.send i ⟨i, v⟩
  | some ⟨.send v, .push⟩ => s.pushWriter i ⟨i, v⟩
  | some ⟨.recv, .entry⟩ => s.recv i
  | some ⟨.recv, .check⟩ => if s.chan.isActive then s.moveTo i .push else s.finish i .channelClosedException
  | some ⟨.recv, .push⟩ => s.pushReader i
  | some ⟨.tryRecv, .entry⟩ => s.tryRecv i
  | some ⟨.sendSync _, .entry⟩ => if s.chan.isActive then s.moveTo i .lock else s.finish i (.synced false)
  | some ⟨.sendSync v, .lock⟩ => s.sendSync i ⟨i, v⟩
  | some ⟨.close, .entry⟩ =>
    if s.chan.isActive then { s with chan := { s.chan with isActive := false } }.moveTo i .lock else s.finish i .returned
  | some ⟨.close, .lock⟩ => s.cleanup.finish i .returned
  | some ⟨.cancelAllAwaiters, .entry⟩ => s.cancelAllAwaiters.finish i .returned
  | _ => s

def step (s : System T) : Label T → System T
  | .start call => { s with ops := s.ops ++ [⟨call, .entry⟩] }
  | .go i => s.advance i

end System

/-! ## What a step can do -/

/-- a step that changes nothing but where the operation stands -/
inductive Own (c : Channel T) : Call T → Pc T → Pc T → Prop where
  | send {v : T} (h : c.isActive = true) : Own c (.send v) .entry .lock
  | sendClosed {v : T} (h : c.isActive = false) : Own c (.send v) .entry (.done .returned)
  | sendFull {v : T} : Own c (.send v) .lock .push
  | recvEmpty (hw : c.writers = []) (hb : c.buffer = []) : Own c .recv .entry .check
  | recvOpen (h : c.isActive = true) : Own c .recv .check .push
  | recvClosed (h : c.isActive = false) : Own c .recv .check (.done .channelClosedException)
  | tryRecvEmpty : Own c .tryRecv .entry (.done (.tried none))
  | sendSync {v : T} (h : c.isActive = true) : Own c (.sendSync v) .entry .lock
  | sendSyncClosed {v : T} (h : c.isActive = false) : Own c (.sendSync v) .entry (.done (.synced false))
  | sendSyncFull {v : T} : Own c (.sendSync v) .lock (.done (.synced false))
  | closeAgain (h : c.isActive = false) : Own c .close .entry (.done .returned)

/-- a section that sends `v`: how the operation ends once the value has gone, and whether it has been suspended -/
inductive Sends (c : Channel T) (i : ℕ) : Call T → Pc T → T → Outcome T → List ℕ → Prop where
  | send {v : T} : Sends c i (.send v) .lock v .returned []
  | sendSync {v : T} : Sends c i (.sendSync v) .lock v (.synced true) []
  | pushWriter {v : T} : Sends c i (.send v) .push v (writerResume c.isActive) [i]

/-- a section that receives `x`: how the operation ends, what it gets, and whether it has been suspended -/
inductive Gets (c : Channel T) (i : ℕ) (x : Item T) : Call T → Pc T → Outcome T → List (Item T) → List ℕ → Prop where
  | recv : Gets c i x .recv .entry (.received x) [x] []
  | tryRecv : Gets c i x .tryRecv .entry (.tried (some x)) [x] []
  | pushReader : Gets c i x .recv .push (readerResume c.isActive x) (kept c.isActive x) [i]

/-- a section that clears the lists -/
inductive Clears (c : Channel T) : Call T → Pc T → Channel T → Prop where
  | cancelAllAwaiters : Clears c .cancelAllAwaiters .entry c.cancelAllAwaiters
  | cleanup : Clears c .close .lock c.cleanup

def cancelOps (ops : List (Op T)) (ids : List ℕ) : List (Op T) :=
  ids.foldl (fun ops k => setPc ops k (.done .cancelledException)) ops

/-- the steps of the operation `i` -/
inductive Move (s : System T) (i : ℕ) : System T → Prop where
  | idle : Move s i s
  | own {call : Call T} {pc pc' : Pc T} (hop : s.ops[i]? = some ⟨call, pc⟩) (h : Own s.chan call pc pc') :
      Move s i { s with ops := setPc s.ops i pc' }
  | handed {call : Call T} {pc : Pc T} {v : T} {o : Outcome T} {log : List ℕ} {r : ℕ} {rs : List ℕ}
      (hop : s.ops[i]? = some ⟨call, pc⟩) (h : Sends s.chan i call pc v o log) (hr : s.chan.readers = r :: rs) :
      Move s i { s with
        chan := { s.chan with readers := rs }
        ops := setPc (setPc s.ops r (.done (readerResume s.chan.isActive ⟨i, v⟩))) i (.done o)
        effects := s.effects ++ [⟨i, v⟩]
        obtained := s.obtained ++ kept s.chan.isActive ⟨i, v⟩
        served := s.served ++ [r]
        resumed := s.resumed ++ r :: log }
  | buffered {call : Call T} {pc : Pc T} {v : T} {o : Outcome T} {log : List ℕ}
      (hop : s.ops[i]? = some ⟨call, pc⟩) (h : Sends s.chan i call pc v o log) (hr : s.chan.readers = [])
      (hlt : s.chan.buffer.length < s.chan.capacity) :
      Move s i { s with
        chan := { s.chan with buffer := s.chan.buffer ++ [⟨i, v⟩] }
        ops := setPc s.ops i (.done o)
        effects := s.effects ++ [⟨i, v⟩]
        resumed := s.resumed ++ log }
  | queued {v : T} (hop : s.ops[i]? = some ⟨.send v, .push⟩) (hr : s.chan.readers = [])
      (hle : s.chan.capacity ≤ s.chan.buffer.length) :
      Move s i { s with
        chan := { s.chan with writers := s.chan.writers ++ [⟨i, v⟩] }
        ops := setPc s.ops i .waiting
        effects := s.effects ++ [⟨i, v⟩] }
  | fromWriter {call : Call T} {pc : Pc T} {o : Outcome T} {got : List (Item T)} {log : List ℕ} {w : Item T}
      {ws : List (Item T)} (hop : s.ops[i]? = some ⟨call, pc⟩) (h : Gets s.chan i w call pc o got log)
      (hw : s.chan.writers = w :: ws) :
      Move s i { s with
        chan := { s.chan with writers := ws }
        ops := setPc (setPc s.ops w.src (.done (writerResume s.chan.isActive))) i (.done o)
        obtained := s.obtained ++ got
        resumed := s.resumed ++ w.src :: log }
  | fromBuffer {call : Call T} {pc : Pc T} {o : Outcome T} {got : List (Item T)} {log : List ℕ} {x : Item T}
      {xs : List (Item T)} (hop : s.ops[i]? = some ⟨call, pc⟩) (h : Gets s.chan i x call pc o got log)
      (hw : s.chan.writers = []) (hb : s.chan.buffer = x :: xs) :
      Move s i { s with
        chan := { s.chan with buffer := xs }
        ops := setPc s.ops i (.done o)
        obtained := s.obtained ++ got
        resumed := s.resumed ++ log }
  | blocked (hop : s.ops[i]? = some ⟨.recv, .push⟩) (hw : s.chan.writers = []) (hb : s.chan.buffer = []) :
      Move s i { s with
        chan := s.chan.enqueue i
        ops := setPc s.ops i .waiting
        blocked := s.blocked ++ [i] }
  | closed (hop : s.ops[i]? = some ⟨.close, .entry⟩) (h : s.chan.isActive = true) :
      Move s i { s with chan := { s.chan with isActive := false }, ops := setPc s.ops i .lock }
  | cleared {call : Call T} {pc : Pc T} {c : Channel T} (hop : s.ops[i]? = some ⟨call, pc⟩)
      (h : Clears s.chan call pc c) :
      Move s i { s with
        chan := c
        ops := setPc (cancelOps s.ops s.chan.awaiters) i (.done .returned)
        resumed := s.resumed ++ s.chan.awaiters }

section
variable {s : System T} {i : ℕ} {v : T}

theorem send_move (hop : s.ops[i]? = some ⟨.send v, .lock⟩) : Move s i (s.send i ⟨i, v⟩) := by
  cases hr : s.chan.readers with
  | cons r rs =>
    simp only [System.send, send_handed hr]
    exact .handed hop .send hr
  | nil =>
    rcases lt_or_ge s.chan.buffer.length s.chan.capacity with hlt | hle
    · simp only [System.send, send_buffered hr hlt]
      simpa [System.put, System.finish, System.moveTo] using Move.buffered hop .send hr hlt
    · simp only [System.send, send_full hr hle]
      exact .own hop .sendFull

theorem sendSync_move (hop : s.ops[i]? = some ⟨.sendSync v, .lock⟩) : Move s i (s.sendSync i ⟨i, v⟩) := by
  cases hr : s.chan.readers with
  | cons r rs =>
    simp only [System.sendSync, sendSync_eq, send_handed hr]
    exact .handed hop .sendSync hr
  | nil =>
    rcases lt_or_ge s.chan.buffer.length s.chan.capacity with hlt | hle
    · simp only [System.sendSync, sendSync_eq, send_buffered hr hlt]
      simpa [System.put, System.finish, System.moveTo] using Move.buffered hop .sendSync hr hlt
    · simp only [System.sendSync, sendSync_eq, send_full hr hle]
      exact .own hop .sendSyncFull

theorem pushWriter_move (hop : s.ops[i]? = some ⟨.send v, .push⟩) : Move s i (s.pushWriter i ⟨i, v⟩) := by
  cases hr : s.chan.readers with
  | cons r rs =>
    simp only [System.pushWriter, pushWriter_handed hr]
    simpa [System.put, System.resume, System.resumeWithValue, System.finish, System.moveTo] using
      Move.handed hop .pushWriter hr
  | nil =>
    rcases lt_or_ge s.chan.buffer.length s.chan.capacity with hlt | hle
    · simp only [System.pushWriter, pushWriter_buffered hr hlt]
      exact .buffered hop .pushWriter hr hlt
    · simp only [System.pushWriter, pushWriter_queued hr hle]
      exact .queued hop hr hle

theorem recv_move (hop : s.ops[i]? = some ⟨.recv, .entry⟩) : Move s i (s.recv i) := by
  cases hw : s.chan.writers with
  | cons w ws =>
    simp only [System.recv, take_writer hw]
    exact .fromWriter hop .recv hw
  | nil =>
    cases hb : s.chan.buffer with
    | cons x xs =>
      simp only [System.recv, take_buffer hw hb]
      simpa [System.release, System.deliver, System.finish, System.moveTo] using Move.fromBuffer hop .recv hw hb
    | nil =>
      simp only [System.recv, take_none hw hb]
      exact .own hop (.recvEmpty hw hb)

theorem tryRecv_move (hop : s.ops[i]? = some ⟨.tryRecv, .entry⟩) : Move s i (s.tryRecv i) := by
  cases hw : s.chan.writers with
  | cons w ws =>
    simp only [System.tryRecv, take_writer hw]
    exact .fromWriter hop .tryRecv hw
  | nil =>
    cases hb : s.chan.buffer with
    | cons x xs =>
      simp only [System.tryRecv, take_buffer hw hb]
      simpa [System.release, System.deliver, System.finish, System.moveTo] using Move.fromBuffer hop .tryRecv hw hb
    | nil =>
      simp only [System.tryRecv, take_none hw hb]
      exact .own hop .tryRecvEmpty

theorem pushReader_move (hop : s.ops[i]? = some ⟨.recv, .push⟩) : Move s i (s.pushReader i) := by
  cases hw : s.chan.writers with
  | cons w ws =>
    simp only [System.pushReader, take_writer hw]
    simpa [System.release, System.resume, System.resumeWithValue, System.finish, System.moveTo] using
      Move.fromWriter hop .pushReader hw
  | nil =>
    cases hb : s.chan.buffer with
    | cons x xs =>
      simp only [System.pushReader, take_buffer hw hb]
      exact .fromBuffer hop .pushReader hw hb
    | nil =>
      simp only [System.pushReader, take_none hw hb]
      exact .blocked hop hw hb

/-- the awaiters are cancelled one after another -/
theorem foldl_cancel (ids : List ℕ) (s : System T) :
    ids.foldl System.cancel s = { s with ops := cancelOps s.ops ids, resumed := s.resumed ++ ids } := by
  induction ids generalizing s with
  | nil => simp [cancelOps]
  | cons k ids ih => simp [ih, System.cancel, System.finish, System.moveTo, cancelOps]

theorem cancelAllAwaiters_move (hop : s.ops[i]? = some ⟨.cancelAllAwaiters, .entry⟩) :
    Move s i (s.cancelAllAwaiters.finish i .returned) := by
  simp only [System.cancelAllAwaiters, foldl_cancel]
  exact .cleared hop .cancelAllAwaiters

theorem cleanup_move (hop : s.ops[i]? = some ⟨.close, .lock⟩) : Move s i (s.cleanup.finish i .returned) := by
  simp only [System.cleanup, foldl_cancel]
  exact .cleared hop .cleanup

/-- **One step** -/
theorem advance_move (s : System T) (i : ℕ) : Move s i (s.advance i) := by
  cases hop : s.ops[i]? with
  | none =>
    simp only [System.advance, hop]
    exact .idle
  | some op =>
    obtain ⟨call, pc⟩ := op
    cases hact : s.chan.isActive <;> cases call <;> cases pc <;>
      simp only [System.advance, hop, hact, if_true, Bool.false_eq_true, if_false] <;>
      first
        | exact .idle
        | exact send_move hop
        | exact pushWriter_move hop
        | exact recv_move hop
        | exact pushReader_move hop
        | exact tryRecv_move hop
        | exact sendSync_move hop
        | exact cleanup_move hop
        | exact cancelAllAwaiters_move hop
        | exact .closed hop hact
        | exact .own hop (by constructor; exact hact)

end

/-! ## Every reachable state -/

theorem move_capacity {s s' : System T} {i : ℕ} (hm : Move s i s') : s'.chan.capacity = s.chan.capacity := by
  cases hm with
  | cleared hop hc => cases hc <;> rfl
  | _ => rfl

theorem move_shape {s s' : System T} {i : ℕ} (h : Shape s.chan) (hm : Move s i s') : Shape s'.chan := by
  cases hm with
  | idle => exact h
  | own hop ho => exact h
  | handed hop hs hr => exact h.handed hr
  | buffered hop hs hr hlt => exact h.buffered hr hlt
  | queued hop hr hle => exact h.queued hr hle
  | fromWriter hop hg hw => exact h.fromWriter hw
  | fromBuffer hop hg hw hb => exact h.fromBuffer hw hb
  | blocked hop hw hb => exact h.enqueue hw hb
  | closed hop ha => exact h.closed
  | cleared hop hc =>
    cases hc with
    | cancelAllAwaiters => exact h.cancelAllAwaiters
    | cleanup => exact .cleanup s.chan

/-- what every move preserves, every run preserves that starts with it -/
theorem run_of_move {I : System T → Prop}
    (hstart : ∀ s call, I s → I { s with ops := s.ops ++ [⟨call, .entry⟩] })
    (hmove : ∀ s i s', I s → Move s i s' → I s') {s : System T} (h : I s) (ls : List (Label T)) :
    I (Machine.run System.step s ls) := by
  have hstep : ∀ s l, True → I s → I (System.step s l) := by
    intro s l _ hs
    cases l with
    | start call => exact hstart s call hs
    | go i => exact hmove s i _ hs (advance_move s i)
  exact Machine.inv_run hstep (Machine.along_of_mem (L := fun _ => True) (fun _ _ => trivial) s) h

/-- the shape of the channel, in every reachable state -/
theorem run_shape (capacity : ℕ) (ls : List (Label T)) : Shape (Machine.run System.step (init capacity) ls).chan :=
  run_of_move (I := fun s => Shape s.chan) (fun _ _ h => h) (fun _ _ _ => move_shape) (Shape.make capacity) ls

/-- **No missed rendezvous**: in every reachable state the buffer holds at most `capacity` values, a reader waits only
if there is neither a value nor a writer, and a writer only if the buffer is full and there is no reader -/
theorem no_missed_rendezvous (capacity : ℕ) (ls : List (Label T)) :
    let c := (Machine.run System.step (init capacity) ls).chan
    c.buffer.length ≤ capacity ∧ (c.readers ≠ [] → c.buffer = [] ∧ c.writers = []) ∧
      (c.writers ≠ [] → c.buffer.length = capacity ∧ c.readers = []) := by
  intro c
  have hcap : c.capacity = capacity :=
    run_of_move (I := fun s => s.chan.capacity = capacity) (fun _ _ h => h) (fun _ _ _ h hm => (move_capacity hm).trans h)
      rfl ls
  have h : Shape c := run_shape capacity ls
  rw [← hcap]
  exact ⟨h.room, h.reader, h.writer⟩

end MCoroRpc.Channel
