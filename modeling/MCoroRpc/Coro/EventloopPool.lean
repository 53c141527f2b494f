/-
The pool of event loops (include/coro/event_loop_pool.hpp, src/handle.cc, src/event_loop.cc).

The pool owns its loops, and thread `i` runs `m_eventLoops[i]`. What a coroutine registers on its way goes to
`get_event_loop()`, the thread_local loop of the thread that it runs on: an object of its own, which nobody runs. And
run_until_complete returns as soon as its loop is without work; nothing starts its thread again.

- `Label`, `step`: scheduleOn from anywhere, startAll, stopAll, and the steps of the threads. A callback resumes its
  coroutine, which may register any continuations before it returns.
- `Law`: a loop of the pool executes what it is given, in this order.
- `Executes`: every continuation is on the loop that its thread runs, and a thread that has ended without stopAll has
  executed all that its loop was given.
- `executes_iff`: that holds throughout a run exactly if no coroutine registers a continuation and no scheduleOn meets a
  loop whose thread has ended.
-/
import MCoroRpc.Core.Table
import MCoroRpc.Coro.Task

namespace MCoroRpc

namespace EventloopPool

variable (H : HeapAlgorithms)

/-! ## Model -/

/-- where the thread of a loop stands -/
inductive Pc where
  /-- not started -/
  | idle
  /-- before the condition of run_until_complete -/
  | checking
  /-- in run_once -/
  | round
  /-- in a callback, which has resumed the coroutine -/
  | callback (coro : ℕ)
  /-- run_until_complete has returned -/
  | ended
deriving DecidableEq, Repr

/-- a coroutine is its own handle; its callback resumes it -/
structure Worker where
  pc : Pc
  /-- `m_eventLoops[i]` -/
  loop : Eventloop ℕ
  /-- `get_event_loop()` on the thread -/
  threadLocal : Eventloop ℕ
  /-- the coroutines that scheduleOn has put on the loop -/
  given : List ℕ
  /-- the coroutines that the loop has resumed -/
  executed : List ℕ

/-- a loop of the program -/
inductive LoopName where
  | pool (i : ℕ)
  | threadLocal (thread : ℕ)
deriving DecidableEq, Repr

/-- the loop that a pool thread's call of `get_event_loop` returns -/
def getEventLoop (thread : ℕ) : LoopName := .threadLocal thread

/-- a registration by a coroutine: the thread that it runs on and the loop it has used -/
structure Registered where
  thread : ℕ
  loop : LoopName
deriving DecidableEq, Repr

structure Pool where
  running : Bool
  workers : List Worker
  registered : List Registered

/-- what a coroutine registers before it returns to the loop -/
inductive Continuation where
  /-- `CoroHandle::schedule`, of a child -/
  | schedule (coro : ℕ)
  /-- `FinalAwaiter::await_suspend` -/
  | resumeParent (coro : ℕ)
  | timer (coro : ℕ) (time : ℤ)
  | reader (coro : ℕ) (fd : ℤ) (ctl : CtlOp → Bool)
  | writer (coro : ℕ) (fd : ℤ) (ctl : CtlOp → Bool)

def Continuation.label : Continuation → Eventloop.Label ℕ
  | .schedule coro => .callSoon coro coro
  | .resumeParent coro => .callSoon coro coro
  | .timer coro time => .callAt time coro coro
  | .reader coro fd ctl => .addReader fd coro coro ctl
  | .writer coro fd ctl => .addWriter fd coro coro ctl

inductive Label where
  /-- `scheduleOn` of a coroutine that is in this state -/
  | scheduleOn (i coro : ℕ) (state : HandleState)
  | startAll
  | stopAll
  /-- the condition of run_until_complete -/
  | check (i : ℕ)
  /-- one callback of execute_ready_callback -/
  | execute (i : ℕ)
  | register (i : ℕ) (c : Continuation)
  /-- the callback returns -/
  | leave (i : ℕ)
  /-- process_epoll_event and process_expired_timeout -/
  | poll (i : ℕ) (events : List Epoll.Report) (now : ℤ)
  /-- run_once returns -/
  | turn (i : ℕ)

/-- `init` -/
def init (threadCount : ℕ) : Pool := ⟨false, List.replicate threadCount ⟨.idle, .make, .make, [], []⟩, []⟩

namespace Worker

def scheduleOn (coro : ℕ) (w : Worker) : Worker :=
  { w with loop := (w.loop.callSoon coro coro).2, given := w.given ++ [coro] }

def check (w : Worker) : Worker :=
  if w.pc = .checking then { w with pc := if w.loop.isStop then .ended else .round } else w

def execute (w : Worker) : Worker :=
  if w.pc = .round then
    let r := w.loop.executeReady
    match r.1 with
    | some cb => { w with loop := r.2, pc := .callback cb.userCb, executed := w.executed ++ [cb.userCb] }
    | none => { w with loop := r.2 }
  else w

def poll (events : List Epoll.Report) (now : ℤ) (w : Worker) : Worker :=
  if w.pc = .round then { w with loop := (w.loop.processEpollEvent events).processExpiredTimeout H now } else w

def inCallback (w : Worker) : Bool :=
  match w.pc with
  | .callback _ => true
  | _ => false

def register (c : Continuation) (w : Worker) : Worker :=
  if w.inCallback then { w with threadLocal := w.threadLocal.step H c.label } else w

def leave (w : Worker) : Worker := if w.inCallback then { w with pc := .round } else w

def turn (w : Worker) : Worker := if w.pc = .round then { w with pc := .checking } else w

def stop (w : Worker) : Worker := { w with loop := { w.loop with stopped := true } }

def start (w : Worker) : Worker := { w with pc := .checking }

end Worker

/-- thread `i` is in a callback -/
def Pool.InCallback (s : Pool) (i : ℕ) : Prop := ∃ w, s.workers[i]? = some w ∧ w.inCallback = true

instance (s : Pool) (i : ℕ) : Decidable (s.InCallback i) :=
  decidable_of_iff ((s.workers[i]?.map Worker.inCallback) = some true) Option.map_eq_some_iff

def step (s : Pool) : Label → Pool
  | .scheduleOn i coro state =>
    if state = .unschedule then { s with workers := s.workers.modify i (Worker.scheduleOn coro) } else s
  | .startAll => if s.running then s else { s with running := true, workers := s.workers.map Worker.start }
  | .stopAll => { s with workers := s.workers.map Worker.stop }
  | .check i => { s with workers := s.workers.modify i Worker.check }
  | .execute i => { s with workers := s.workers.modify i Worker.execute }
  | .register i c =>
    if s.InCallback i then
      { s with
        workers := s.workers.modify i (Worker.register H c), registered := s.registered ++ [⟨i, getEventLoop i⟩] }
    else s
  | .leave i => { s with workers := s.workers.modify i Worker.leave }
  | .poll i events now => { s with workers := s.workers.modify i (Worker.poll H events now) }
  | .turn i => { s with workers := s.workers.modify i Worker.turn }

/-! ## A loop of the pool -/

/-- the loop has executed some of the coroutines that it was given, and has the others in its queue in their order; the
ids are those of the calls of scheduleOn -/
structure Law (loop : Eventloop ℕ) (given executed : List ℕ) : Prop where
  ids : loop.nextWaitId = given.length
  order : executed <+: given
  queue : loop.readyQueue = List.range' executed.length (given.length - executed.length)
  callbacks : ∀ j c, executed.length ≤ j → given[j]? = some c → loop.waitCallback.lookup j = some ⟨c, j, c⟩
  timers : loop.scheduled = []
  events : loop.epoll.eventMap = ∅

variable {H} {loop : Eventloop ℕ} {given executed : List ℕ}

theorem make_law : Law .make [] [] :=
  ⟨rfl, List.prefix_refl _, rfl, fun j c _ h => by simp at h, rfl, rfl⟩

theorem Law.callSoon (h : Law loop given executed) (coro : ℕ) :
    Law (loop.callSoon coro coro).2 (given ++ [coro]) executed := by
  have hle := h.order.length_le
  refine ⟨?_, h.order.trans (List.prefix_append _ _), ?_, fun j c hj hc => ?_, h.timers, h.events⟩
  · simp only [Eventloop.callSoon, Eventloop.enlist, h.ids, List.length_append, List.length_singleton]
  · simp only [Eventloop.callSoon, Eventloop.enlist, h.ids, h.queue, List.length_append, List.length_singleton]
    rw [show given.length + 1 - executed.length = given.length - executed.length + 1 by omega, List.range'_concat]
    congr 2
    omega
  · simp only [Eventloop.callSoon]
    rw [Eventloop.enlist_lookup, h.ids]
    by_cases hj' : j = given.length
    · subst hj'
      obtain rfl : coro = c := by simpa using hc
      rw [if_pos rfl]
    · rw [if_neg hj']
      rw [List.getElem?_append] at hc
      split_ifs at hc with hlt
      · exact h.callbacks j c hj hc
      · rw [List.getElem?_eq_none (by rw [List.length_singleton]; omega)] at hc
        cases hc

/-- a round of execute_ready_callback takes the next coroutine, if there is one -/
theorem Law.executeReady (h : Law loop given executed) :
    (loop.executeReady = (none, loop) ∧ executed = given) ∨
      ∃ cb, loop.executeReady.1 = some cb ∧ Law loop.executeReady.2 given (executed ++ [cb.userCb]) := by
  have hle := h.order.length_le
  by_cases hlt : executed.length < given.length
  · obtain ⟨c, hc⟩ : ∃ c, given[executed.length]? = some c := ⟨_, List.getElem?_eq_getElem hlt⟩
    have hcb := h.callbacks _ c le_rfl hc
    have hqueue : loop.readyQueue = executed.length :: List.range' (executed.length + 1)
        (given.length - (executed.length + 1)) := by
      rw [h.queue, show given.length - executed.length = given.length - (executed.length + 1) + 1 by omega,
        List.range'_succ]
    have hnext : executed ++ [c] <+: given := by
      have htake : given.take (executed.length + 1) = executed ++ [c] := by
        rw [List.take_add_one, hc, ← List.prefix_iff_eq_take.1 h.order]
        rfl
      exact htake ▸ List.take_prefix _ _
    have hready : loop.executeReady = (some ⟨c, executed.length, c⟩, { loop with
        readyQueue := List.range' (executed.length + 1) (given.length - (executed.length + 1))
        waitCallback := loop.waitCallback.erase executed.length
        coroWaits := Multimap.take c executed.length loop.coroWaits }) := by
      simp only [Eventloop.executeReady, hqueue, hcb]
    rw [hready]
    refine .inr ⟨_, rfl, h.ids, hnext, ?_, fun j c' hj hc' => ?_, h.timers, h.events⟩
    · simp only [List.length_append, List.length_singleton]
    · rw [List.length_append, List.length_singleton] at hj
      simp only
      rw [Finmap.lookup_erase_ne (by omega)]
      exact h.callbacks j c' (by omega) hc'
  · have heq : executed = given := h.order.eq_of_length (by omega)
    refine .inl ⟨?_, heq⟩
    have hqueue : loop.readyQueue = [] := by rw [h.queue, heq, Nat.sub_self, List.range'_zero]
    simp only [Eventloop.executeReady, hqueue]

/-- nothing wakes a loop that has no timers and no fds -/
theorem Law.poll (h : Law loop given executed) (events : List Epoll.Report) (now : ℤ) :
    (loop.processEpollEvent events).processExpiredTimeout H now = loop := by
  have hwoken : events.flatMap loop.epoll.woken = [] := by
    rw [List.flatMap_eq_nil_iff]
    intro r _
    simp only [Epoll.woken, h.events, Finmap.lookup_empty]
  have hevents : loop.processEpollEvent events = loop := by
    simp only [Eventloop.processEpollEvent, hwoken, List.append_nil]
  rw [hevents, Eventloop.processExpiredTimeout, h.timers]
  rfl

/-- a loop that is found without work has executed all that it was given -/
theorem Law.done (h : Law loop given executed) (hstop : loop.isStop = true) (hrun : loop.stopped = false) :
    executed = given := by
  have hqueue : loop.readyQueue = [] := by
    simp only [Eventloop.isStop, hrun, Bool.false_or, Bool.and_eq_true, List.isEmpty_iff] at hstop
    exact hstop.1.1.1
  rw [h.queue, List.range'_eq_nil_iff] at hqueue
  have hle := h.order.length_le
  exact h.order.eq_of_length (by omega)

/-! ## One step -/

/-- what the pool is for -/
structure Executes (s : Pool) : Prop where
  /-- every continuation is on the loop that the thread of its coroutine runs -/
  registered : ∀ r ∈ s.registered, r.loop = .pool r.thread
  /-- the coroutines of a loop are resumed in the order in which they were put on it -/
  order : ∀ w ∈ s.workers, w.executed <+: w.given
  /-- without stopAll, a thread ends when it has resumed them all -/
  served : ∀ w ∈ s.workers, w.pc = .ended → w.loop.stopped = false → w.executed = w.given
  /-- before that it does not leave its loop, and each round of execute_ready_callback resumes the next one -/
  progress : ∀ w ∈ s.workers, w.loop.stopped = false → w.executed ≠ w.given →
    (w.pc = .checking → w.check.pc = .round) ∧ (w.pc = .round → ∃ c, w.execute.executed = w.executed ++ [c])

/-- no continuation is registered, and scheduleOn does not meet a loop whose thread has ended without stopAll -/
def Plain (s : Pool) : Label → Prop
  | .register i _ => ¬ s.InCallback i
  | .scheduleOn i _ state =>
    state = .unschedule → ∀ w, s.workers[i]? = some w → w.pc = .ended → w.loop.stopped = true
  | _ => True

/-- a loop of the pool obeys its law, and its thread does not end before its work is done -/
structure Sound (w : Worker) : Prop where
  law : Law w.loop w.given w.executed
  served : w.pc = .ended → w.loop.stopped = false → w.executed = w.given

structure Inv (s : Pool) : Prop where
  sound : ∀ w ∈ s.workers, Sound w
  registered : s.registered = []

variable {s : Pool} {w : Worker}

theorem Inv.executes (h : Inv s) : Executes s := by
  refine ⟨?_, fun w hw => (h.sound w hw).law.order, fun w hw => (h.sound w hw).served, fun w hw hrun hne => ⟨?_, ?_⟩⟩
  · rw [h.registered]
    intro r hr
    cases hr
  · intro hpc
    have hstop : w.loop.isStop ≠ true := fun hstop => hne ((h.sound w hw).law.done hstop hrun)
    rw [Worker.check, if_pos hpc, if_neg hstop]
  · intro hpc
    rcases (h.sound w hw).law.executeReady with ⟨-, hall⟩ | ⟨cb, he, -⟩
    · exact absurd hall hne
    · exact ⟨cb.userCb, by simp only [Worker.execute, if_pos hpc, he]⟩

theorem Sound.check (h : Sound w) : Sound w.check := by
  unfold Worker.check
  split_ifs with hpc hstop
  · exact ⟨h.law, fun _ hrun => h.law.done hstop hrun⟩
  · exact ⟨h.law, (by nofun)⟩
  · exact h

theorem Sound.execute (h : Sound w) : Sound w.execute := by
  unfold Worker.execute
  split_ifs with hpc
  · rcases h.law.executeReady with ⟨he, -⟩ | ⟨cb, he, hlaw⟩
    · rw [he]
      exact ⟨h.law, fun hend => by rw [hpc] at hend; cases hend⟩
    · simp only [he]
      exact ⟨hlaw, (by nofun)⟩
  · exact h

theorem Sound.poll (h : Sound w) (events : List Epoll.Report) (now : ℤ) : Sound (w.poll H events now) := by
  unfold Worker.poll
  split_ifs
  · rw [h.law.poll]
    exact h
  · exact h

theorem Sound.leave (h : Sound w) : Sound w.leave := by
  unfold Worker.leave
  split_ifs
  · exact ⟨h.law, (by nofun)⟩
  · exact h

theorem Sound.turn (h : Sound w) : Sound w.turn := by
  unfold Worker.turn
  split_ifs
  · exact ⟨h.law, (by nofun)⟩
  · exact h

theorem Sound.scheduleOn (h : Sound w) (coro : ℕ) (hend : w.pc = .ended → w.loop.stopped = true) :
    Sound (w.scheduleOn coro) := by
  refine ⟨h.law.callSoon coro, fun hpc hrun => ?_⟩
  have hrun : w.loop.stopped = false := hrun
  rw [hend hpc] at hrun
  cases hrun

theorem Sound.stop (h : Sound w) : Sound w.stop :=
  ⟨⟨h.law.ids, h.law.order, h.law.queue, h.law.callbacks, h.law.timers, h.law.events⟩, fun _ hrun => by cases hrun⟩

theorem step_inv {l : Label} (h : Inv s) (hl : Plain s l) : Inv (step H s l) := by
  have hmodify : ∀ i (f : Worker → Worker), (∀ w, s.workers[i]? = some w → Sound w → Sound (f w)) →
      Inv { s with workers := s.workers.modify i f } := fun i f hf => ⟨Table.forall_mem_modify h.sound hf, h.registered⟩
  have hmap : ∀ f : Worker → Worker, (∀ w, Sound w → Sound (f w)) → ∀ w ∈ s.workers.map f, Sound w := by
    intro f hf w hw
    obtain ⟨w', hw', rfl⟩ := List.mem_map.1 hw
    exact hf w' (h.sound w' hw')
  cases l with
  | scheduleOn i coro state =>
    simp only [step]
    split_ifs with hst
    · exact hmodify i _ fun w hw hs => hs.scheduleOn coro (hl hst w hw)
    · exact h
  | startAll =>
    simp only [step]
    split_ifs
    · exact h
    · exact ⟨hmap _ fun w hs => ⟨hs.law, (by nofun)⟩, h.registered⟩
  | stopAll => exact ⟨hmap _ fun w hs => hs.stop, h.registered⟩
  | check i => exact hmodify i _ fun w _ hs => hs.check
  | execute i => exact hmodify i _ fun w _ hs => hs.execute
  | register i c =>
    simp only [step, if_neg hl]
    exact h
  | leave i => exact hmodify i _ fun w _ hs => hs.leave
  | poll i events now => exact hmodify i _ fun w _ hs => hs.poll events now
  | turn i => exact hmodify i _ fun w _ hs => hs.turn

theorem step_not_executes {l : Label} (h : Inv s) (hl : ¬ Plain s l) : ¬ Executes (step H s l) := by
  intro he
  cases l with
  | register i c =>
    have hin : s.InCallback i := not_not.1 hl
    simp only [step, if_pos hin] at he
    have hloop := he.registered ⟨i, getEventLoop i⟩ (List.mem_append_right _ (List.mem_singleton_self _))
    cases hloop
  | scheduleOn i coro state =>
    simp only [Plain, Classical.not_imp, not_forall, Bool.not_eq_true] at hl
    obtain ⟨hst, w, hw, hpc, hrun⟩ := hl
    simp only [step, if_pos hst] at he
    have hmem : w.scheduleOn coro ∈ s.workers.modify i (Worker.scheduleOn coro) := by
      refine List.mem_of_getElem? (i := i) ?_
      rw [List.getElem?_modify_eq, hw]
      rfl
    have hserved := he.served _ hmem hpc hrun
    -- one more has been given than the thread will ever resume
    have hlen := congrArg List.length hserved
    simp only [Worker.scheduleOn, List.length_append, List.length_singleton] at hlen
    have hle := (h.sound w (List.mem_of_getElem? hw)).law.order.length_le
    omega
  | startAll => exact hl trivial
  | stopAll => exact hl trivial
  | check i => exact hl trivial
  | execute i => exact hl trivial
  | leave i => exact hl trivial
  | poll i events now => exact hl trivial
  | turn i => exact hl trivial

/-! ## Runs -/

theorem init_inv (threadCount : ℕ) : Inv (init threadCount) := by
  refine ⟨fun w hw => ?_, rfl⟩
  obtain rfl := List.eq_of_mem_replicate hw
  exact ⟨make_law, (by nofun)⟩

/-- **The pool**: for every number of threads and over every run, the pool executes what it is given exactly if no
coroutine registers a continuation on a thread of the pool and no scheduleOn comes for a loop whose thread has found it
without work and has ended. -/
theorem executes_iff (H : HeapAlgorithms) (threadCount : ℕ) (ls : List Label) :
    (∀ n, Executes (Machine.run (step H) (init threadCount) (ls.take n))) ↔
      Machine.Along (step H) Plain (init threadCount) ls :=
  Machine.along_iff (L := fun _ => True) (I := Inv) (fun _ h => h.executes) (fun _ _ _ h hl => step_inv h hl)
    (fun _ _ _ h hl => step_not_executes h hl) (init_inv threadCount) (fun _ _ => trivial)

/-- a coroutine is put on the only loop, is resumed and schedules a child; another loop gets no work in time -/
theorem pool_strands :
    ¬ Executes (Machine.run (step sortedHeap) (init 1)
        [.scheduleOn 0 1 .unschedule, .startAll, .check 0, .execute 0, .register 0 (.schedule 2)]) ∧
      ¬ Executes (Machine.run (step sortedHeap) (init 1) [.startAll, .check 0, .scheduleOn 0 1 .unschedule]) := by
  constructor
  · intro h
    have hmem : (Machine.run (step sortedHeap) (init 1)
        [.scheduleOn 0 1 .unschedule, .startAll, .check 0, .execute 0, .register 0 (.schedule 2)]).registered =
          [⟨0, .threadLocal 0⟩] := by decide
    have hloop := h.registered ⟨0, .threadLocal 0⟩ (by rw [hmem]; exact List.mem_singleton_self _)
    cases hloop
  · intro h
    have hserved := h.served _ (List.mem_singleton_self _) rfl rfl
    cases hserved

end EventloopPool

end MCoroRpc
