/-
Task::cancel on a Task that is suspended in the send or the recv of a Channel (include/coro/task.hpp,
include/coro/channel.hpp).

`cancel` destroys the frame of the coroutine, and the awaiter lies in that frame. WriterAwaiter and ReaderAwaiter have no
destructor that would take them out of the lists of the channel, and the channel resumes what it finds there.

- `Frames`: the operations on a channel, and those whose frame has been destroyed.
- `Alive`: the lists name no destroyed awaiter, and none has been resumed, that is, been handed a value or had its
  value taken.
- `alive_iff`: this holds in every state of a run exactly if no suspended operation is cancelled in it.
- `cancelled_reader_served`: a cancelled recv is handed the next value, and the value is gone.
-/
import MCoroRpc.Coro.Waiting

namespace MCoroRpc.Channel

variable {T : Type}

/-! ## Model -/

structure Frames (T : Type) where
  sys : System T
  /-- the operations whose Task has been cancelled while they were suspended -/
  destroyed : List ℕ
deriving DecidableEq, Repr

/-- an operation starts or takes a step, or the Task of one is cancelled -/
inductive Act (T : Type) where
  | op (l : Label T)
  | cancel (i : ℕ)
deriving DecidableEq, Repr

namespace Frames

def start (capacity : ℕ) : Frames T := ⟨init capacity, []⟩

/-- `cancel` and `destroy`; a Task that has ended is left alone, and so is one that has been cancelled -/
def cancel (i : ℕ) (s : Frames T) : Frames T :=
  match s.sys.ops[i]? with
  | some ⟨_, .waiting⟩ => if i ∈ s.destroyed then s else { s with destroyed := i :: s.destroyed }
  | _ => s

def step (s : Frames T) : Act T → Frames T
  | .op l => { s with sys := s.sys.step l }
  | .cancel i => s.cancel i

end Frames

/-! ## Destroyed awaiters -/

structure Alive (s : Frames T) : Prop where
  /-- every pointer in `writers_` and `readers_` refers to an awaiter that exists -/
  listed : ∀ k ∈ s.sys.chan.awaiters, k ∉ s.destroyed
  /-- no value has been handed to, or taken from, a cancelled waiter -/
  resumed : ∀ k ∈ s.sys.resumed, k ∉ s.destroyed

/-- no operation is cancelled while it is suspended -/
def Uncancelled (s : Frames T) (a : Act T) : Prop :=
  ∀ i, a = .cancel i → ∀ call, s.sys.ops[i]? ≠ some ⟨call, .waiting⟩

/-- nothing has been destroyed so far -/
structure Whole (s : Frames T) : Prop where
  linked : Linked s.sys
  destroyed : s.destroyed = []

section
variable {s : Frames T} {a : Act T}

theorem Whole.alive (h : Whole s) : Alive s := by
  have hnone : ∀ k, k ∉ s.destroyed := by
    intro k
    rw [h.destroyed]
    exact List.not_mem_nil
  exact ⟨fun k _ => hnone k, fun k _ => hnone k⟩

theorem start_whole (capacity : ℕ) : Whole (Frames.start capacity : Frames T) := ⟨run_linked capacity [], rfl⟩

theorem step_linked {s : System T} (h : Linked s) (l : Label T) : Linked (s.step l) := by
  cases l with
  | start call => exact start_linked h call
  | go i => exact move_linked h (advance_move s i)

theorem cancel_idle {i : ℕ} (h : ∀ call, s.sys.ops[i]? ≠ some ⟨call, .waiting⟩) : s.cancel i = s := by
  unfold Frames.cancel
  split
  · next call hop => exact absurd hop (h call)
  · rfl

theorem cancel_waiting {i : ℕ} {call : Call T} (h : s.sys.ops[i]? = some ⟨call, .waiting⟩) (hd : s.destroyed = []) :
    s.cancel i = { s with destroyed := [i] } := by
  simp only [Frames.cancel, h, hd, List.not_mem_nil, if_false]

theorem step_whole (h : Whole s) (ha : Uncancelled s a) : Whole (s.step a) := by
  cases a with
  | op l => exact ⟨step_linked h.linked l, h.destroyed⟩
  | cancel i =>
    have hidle : s.step (.cancel i) = s := cancel_idle (ha i rfl)
    rw [hidle]
    exact h

/-- what is suspended is in a list, and stays there when its frame is destroyed -/
theorem step_dangling (h : Whole s) (ha : ¬ Uncancelled s a) : ¬ Alive (s.step a) := by
  simp only [Uncancelled, not_forall, not_not] at ha
  obtain ⟨i, rfl, call, hop⟩ := ha
  have hstep : s.step (.cancel i) = { s with destroyed := [i] } := cancel_waiting hop h.destroyed
  rw [hstep]
  intro hal
  exact hal.listed i (h.linked.waits i call hop) (List.mem_singleton.2 rfl)

end

/-- **Cancelled waiters**: in every run of operations and cancellations, from any capacity, the lists name only existing
awaiters and no cancelled one is served, exactly if no suspended operation is cancelled. -/
theorem alive_iff (capacity : ℕ) (acts : List (Act T)) :
    (∀ n, Alive (Machine.run Frames.step (Frames.start capacity) (acts.take n))) ↔
      Machine.Along Frames.step Uncancelled (Frames.start capacity) acts :=
  Machine.along_iff (L := fun _ => True) (I := Whole) (fun _ h => h.alive) (fun _ _ _ h ha => step_whole h ha)
    (fun _ _ _ h ha => step_dangling h ha) (start_whole capacity) (fun _ _ => trivial)

/-- a recv blocks and its Task is cancelled; the sendSync behind it says that the value has gone -/
def servedActs : List (Act ℕ) :=
  [.op (.start .recv), .op (.go 0), .op (.go 0), .op (.go 0), .cancel 0,
    .op (.start (.sendSync 7)), .op (.go 1), .op (.go 1)]

/-- the cancelled recv has been handed the value -/
theorem cancelled_reader_served :
    (Machine.run Frames.step (Frames.start 1) servedActs).sys.ops[1]? = some ⟨.sendSync 7, .done (.synced true)⟩ ∧
      (Machine.run Frames.step (Frames.start 1) servedActs).sys.obtained = [⟨1, 7⟩] ∧
      ¬ Alive (Machine.run Frames.step (Frames.start 1) servedActs) := by
  refine ⟨by decide, by decide, ?_⟩
  intro h
  exact h.resumed 0 (by decide) (by decide)

end MCoroRpc.Channel
