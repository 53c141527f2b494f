/-
Task::cancel and what still refers to the coroutine that it destroys (include/coro/task.hpp, src/handle.cc,
src/timer.cc, include/coro/sleep.hpp, include/coro/channel.hpp).

Coroutines are suspended on a child task, a timer, an fd or a Channel, in any tree, and run as the event loop, a timer
or a Channel resumes them; what a running coroutine does next is a label. Handles are named by their ids, coroutines and
timers alike. A destroyed coroutine stays in the table; reading or resuming it is noted in `touched`.

cancel takes the waits of the coroutine's own id and destroys its awaiters and timers. A child keeps its `m_parent`, and
a Channel the entry in its list.

- `NoDangling`: nothing refers to a destroyed coroutine, and none has been read or resumed.
- `Harmless`: which cancels and operations of a Channel keep it so.
-/
import MCoroRpc.Net.IoAwaiter

namespace MCoroRpc

open CInt

namespace Tasks

/-- where a coroutine stands -/
inductive Status where
  /-- made and scheduled, not started -/
  | initial
  | running
  | onChild (child : ℕ)
  | onTimer (timer : ℕ)
  | onIo (a : IoAwaiter)
  /-- in a list of a Channel -/
  | onChannel (list : ℕ)
  | final
  | destroyed
deriving DecidableEq, Repr

def Status.live : Status → Bool
  | .final | .destroyed => false
  | _ => true

structure Coro where
  status : Status
  /-- `m_parent` -/
  parent : Option ℕ
  /-- the timers in its frame -/
  timers : List ℕ
deriving DecidableEq, Repr

structure Timer where
  /-- the coroutine whose frame holds it -/
  owner : ℕ
  /-- `m_wait_id` -/
  waitId : ℕ
  cancelled : Bool
  /-- the callback resumes the owner, as in sleep_for; that of wait_for writes to the owner's frame -/
  resumes : Bool
deriving DecidableEq, Repr

/-- what a callback of the loop holds -/
inductive Ref where
  /-- `run` of a promise -/
  | run (coro : ℕ)
  /-- the handle of a coroutine that waits for an fd -/
  | resume (coro : ℕ)
  /-- `run` of a timer -/
  | timer (timer : ℕ)
deriving DecidableEq, Repr

end Tasks

structure Tasks where
  loop : Eventloop Tasks.Ref
  /-- the next `Handle::ID` -/
  nextHandle : ℕ
  coros : Finmap fun _ : ℕ => Tasks.Coro
  timers : Finmap fun _ : ℕ => Tasks.Timer
  /-- the lists of the Channels, two for each -/
  lists : Finmap fun _ : ℕ => List ℕ
  /-- destroyed objects that have been read or resumed -/
  touched : List ℕ

namespace Tasks

variable (H : HeapAlgorithms)

def start : Tasks := ⟨.make, 1, ∅, ∅, ∅, []⟩

def update (i : ℕ) (c : Coro) (s : Tasks) : Tasks := { s with coros := s.coros.insert i c }

def withLoop (loop : Eventloop Ref) (s : Tasks) : Tasks := { s with loop := loop }

/-- the coroutine has been destroyed -/
def gone (s : Tasks) (i : ℕ) : Bool :=
  match s.coros.lookup i with
  | some c => c.status = .destroyed
  | none => false

/-- `~Timer` and `~Handle` -/
def dropTimer (t : ℕ) (s : Tasks) : Tasks :=
  match s.timers.lookup t with
  | none => s
  | some x =>
    let loop := if x.cancelled = false ∧ x.waitId ≠ 0 then s.loop.cancelWait H x.waitId else s.loop
    { s with loop := loop.cancel H t, timers := s.timers.erase t }

def dropTimers (ts : List ℕ) (s : Tasks) : Tasks := ts.foldl (fun s t => s.dropTimer H t) s

/-- a coroutine is resumed; it destroys the awaiter that it leaves -/
def proceed (i : ℕ) (s : Tasks) : Tasks :=
  match s.coros.lookup i with
  | none => s
  | some c =>
    match c.status with
    | .destroyed => { s with touched := s.touched ++ [i] }
    | .onTimer t => (s.dropTimer H t).update i { c with status := .running, timers := c.timers.filter (· ≠ t) }
    | .onIo a => (s.withLoop (IoLoop.drop H a s.loop)).update i { c with status := .running }
    | .initial | .onChild _ | .onChannel _ => s.update i { c with status := .running }
    | .running | .final => s

/-- `Timer::run` -/
def runTimer (t : ℕ) (s : Tasks) : Tasks :=
  match s.timers.lookup t with
  | none => { s with touched := s.touched ++ [t] }
  | some x =>
    if x.cancelled then s
    else
      let s := { s with timers := s.timers.insert t { x with cancelled := true, waitId := 0 } }
      if x.resumes then s.proceed H x.owner
      else if s.gone x.owner then { s with touched := s.touched ++ [x.owner] }
      else s

/-- a round of execute_ready_callback -/
def executeReady (s : Tasks) : Tasks :=
  match s.loop.executeReady with
  | (none, loop) => s.withLoop loop
  | (some cb, loop) =>
    match cb.userCb with
    | .run i | .resume i => (s.withLoop loop).proceed H i
    | .timer t => (s.withLoop loop).runTimer H t

/-- a new task is scheduled -/
def spawn (s : Tasks) : Tasks :=
  { s with
    nextHandle := s.nextHandle + 1
    coros := s.coros.insert s.nextHandle ⟨.initial, none, []⟩
    loop := (s.loop.callSoon s.nextHandle (.run s.nextHandle)).2 }

/-- co_await of a new task -/
def awaitChild (i : ℕ) (c : Coro) (s : Tasks) : Tasks :=
  { s with
    nextHandle := s.nextHandle + 1
    coros := (s.coros.insert i { c with status := .onChild s.nextHandle }).insert s.nextHandle ⟨.initial, some i, []⟩
    loop := (s.loop.callSoon s.nextHandle (.run s.nextHandle)).2 }

/-- a new timer is started; its coroutine is suspended on it or goes on -/
def newTimer (resumes : Bool) (time : ℤ) (i : ℕ) (c : Coro) (s : Tasks) : Tasks :=
  let r := s.loop.callAt H time s.nextHandle (.timer s.nextHandle)
  { s with
    nextHandle := s.nextHandle + 1
    loop := r.2
    timers := s.timers.insert s.nextHandle ⟨i, r.1, false, resumes⟩
    coros := s.coros.insert i { c with
      status := if resumes then .onTimer s.nextHandle else c.status
      timers := c.timers ++ [s.nextHandle] } }

/-- co_await of sleep_for -/
def sleep (time : ℤ) (i : ℕ) (c : Coro) (s : Tasks) : Tasks := s.newTimer H true time i c

/-- the timer of wait_for -/
def watch (time : ℤ) (i : ℕ) (c : Coro) (s : Tasks) : Tasks := s.newTimer H false time i c

/-- wait_for destroys its timer -/
def unwatch (t i : ℕ) (c : Coro) (s : Tasks) : Tasks :=
  if t ∈ c.timers then (s.dropTimer H t).update i { c with timers := c.timers.filter (· ≠ t) } else s

/-- co_await of a ReadAwaiter or a WriteAwaiter -/
def awaitIo (d : Dir) (fd : ℤ) (ctl : CtlOp → Bool) (i : ℕ) (c : Coro) (s : Tasks) : Tasks :=
  let r := s.loop.addWaiter d fd i (.resume i) ctl
  (s.withLoop r.2).update i { c with status := .onIo ⟨d, fd, s.loop.nextWaitId, toInt r.1⟩ }

/-- co_await of a ReaderAwaiter or a WriterAwaiter -/
def awaitChannel (k i : ℕ) (c : Coro) (s : Tasks) : Tasks :=
  { s with
    lists := s.lists.insert k ((s.lists.lookup k).getD [] ++ [i])
    coros := s.coros.insert i { c with status := .onChannel k } }

/-- an operation of a Channel resumes the first of a list -/
def wake (k : ℕ) (s : Tasks) : Tasks :=
  match s.lists.lookup k with
  | some (i :: rest) => proceed H i { s with lists := s.lists.insert k rest }
  | _ => s

/-- the body ends: its frame is left, and the FinalAwaiter schedules the parent -/
def finish (i : ℕ) (c : Coro) (s : Tasks) : Tasks :=
  let s := (s.dropTimers H c.timers).update i { c with status := .final, timers := [] }
  match c.parent with
  | none => s
  | some p =>
    { s with
      loop := (s.loop.callSoon p (.run p)).2
      touched := s.touched ++ if s.gone p then [p] else [] }

/-- `Task::cancel` and the destruction of the frame: the awaiter, the timers and the promise -/
def cancel (i : ℕ) (c : Coro) (s : Tasks) : Tasks :=
  let s := s.withLoop (s.loop.cancel H i)
  let s :=
    match c.status with
    | .onIo a => s.withLoop (IoLoop.drop H a s.loop)
    | _ => s
  let s := s.dropTimers H c.timers
  (s.withLoop (s.loop.cancel H i)).update i { c with status := .destroyed, timers := [] }

inductive Label where
  | spawn
  | awaitChild (i : ℕ)
  | sleep (i : ℕ) (time : ℤ)
  | watch (i : ℕ) (time : ℤ)
  | unwatch (i t : ℕ)
  | awaitIo (i : ℕ) (d : Dir) (fd : ℤ) (ctl : CtlOp → Bool)
  | awaitChannel (i k : ℕ)
  | wake (k : ℕ)
  | finish (i : ℕ)
  | cancel (i : ℕ)
  | executeReady
  | epollEvent (events : List Epoll.Report)
  | expiredTimeout (now : ℤ)

/-- a coroutine does something while it runs -/
def whenRunning (i : ℕ) (f : Coro → Tasks → Tasks) (s : Tasks) : Tasks :=
  match s.coros.lookup i with
  | some c => if c.status = .running then f c s else s
  | none => s

/-- a coroutine that is done is not cancelled, nor is one that runs -/
def cancelTask (i : ℕ) (s : Tasks) : Tasks :=
  match s.coros.lookup i with
  | some c => if c.status.live ∧ c.status ≠ .running then s.cancel H i c else s
  | none => s

def step (s : Tasks) : Label → Tasks
  | .spawn => s.spawn
  | .awaitChild i => s.whenRunning i (awaitChild i)
  | .sleep i time => s.whenRunning i (sleep H time i)
  | .watch i time => s.whenRunning i (watch H time i)
  | .unwatch i t => s.whenRunning i (unwatch H t i)
  | .awaitIo i d fd ctl => s.whenRunning i (awaitIo d fd ctl i)
  | .awaitChannel i k => s.whenRunning i (awaitChannel k i)
  | .wake k => s.wake H k
  | .finish i => s.whenRunning i (finish H i)
  | .cancel i => s.cancelTask H i
  | .executeReady => s.executeReady H
  | .epollEvent events => s.withLoop (s.loop.processEpollEvent events)
  | .expiredTimeout now => s.withLoop (s.loop.processExpiredTimeout H now)

/-- what a callback holds has not been destroyed -/
def Alive (s : Tasks) : Ref → Prop
  | .run i | .resume i => s.gone i = false
  | .timer t => ∃ x, s.timers.lookup t = some x ∧ s.gone x.owner = false

/-- nothing refers to a destroyed coroutine, and none has been read or resumed -/
structure NoDangling (s : Tasks) : Prop where
  callbacks : ∀ waitId cb, s.loop.waitCallback.lookup waitId = some cb → s.Alive cb.userCb
  parents : ∀ i c p, s.coros.lookup i = some c → c.status.live = true → c.parent = some p → s.gone p = false
  untouched : s.touched = []

/-- no cancel hits a coroutine whose child has not ended, and no Channel takes a cancelled coroutine from its list -/
def Harmless (s : Tasks) : Label → Prop
  | .cancel i => ∀ c child cc, s.coros.lookup i = some c → c.status = .onChild child →
      s.coros.lookup child = some cc → cc.status.live = false
  | .wake k => ∀ i rest, s.lists.lookup k = some (i :: rest) → s.gone i = false
  | _ => True

end Tasks

end MCoroRpc
