/-
How long a callback waits once it can run (src/event_loop.cc: run_once and the three functions it calls).

An iteration runs what is ready, asks epoll, runs what epoll has reported, and at the end puts into the queue what the
clock has made due. A callback that is put there early enough has its turn in the iteration, what is due at the end has it
in the next one; unless it is cancelled before its turn.

- `Served`: in a pass the callback is executed, or else cancelled before its turn.
- `served_of_ready`, `served_of_registered`: a pass that ends has served what it has found or got.
- `timely`: over two iterations of any loop, what is ready and what is registered with call_soon is served in the same
  pass, what is reported in the same iteration, and what is due in the next one.
-/
import MCoroRpc.Coro.Complete
import MCoroRpc.Coro.Generations
import MCoroRpc.Coro.TimerQueue

namespace MCoroRpc.Eventloop

variable {κ : Type*} (H : HeapAlgorithms)

/-! ## An iteration in its parts -/

/-- the loop as it calls epoll_wait -/
def afterFirst (s : Eventloop κ) (it : Iteration κ) : Eventloop κ := Machine.run (round H) s it.first

/-- and with what epoll has reported -/
def afterEvents (s : Eventloop κ) (it : Iteration κ) : Eventloop κ := (s.afterFirst H it).processEpollEvent it.events

def afterSecond (s : Eventloop κ) (it : Iteration κ) : Eventloop κ := Machine.run (round H) (s.afterEvents H it) it.second

/-- the pass executes the callback, or else it is cancelled there before its turn -/
def Served (s : Eventloop κ) (pass : List (List (Label κ))) (w : ℕ) : Prop := w ∈ executed H s pass ↔ ¬ Withdrawn H w s pass

/-- what an iteration and the one behind it do with the callbacks that can run -/
structure Timely (s : Eventloop κ) (it next : Iteration κ) : Prop where
  ready : ∀ w ∈ s.readyQueue, s.Pending w → Served H s it.first w
  soon : ∀ w ∈ registered H s it.first, Served H s it.first w
  /-- an id of 0 is not reported -/
  reported : ∀ d fd w, w ≠ 0 → (s.afterFirst H it).Pending w → (s.afterFirst H it).epoll.Linked d fd w →
    (∃ r ∈ it.events, r.fd = fd ∧ r.has d = true) → Served H (s.afterEvents H it) it.second w
  soonAgain : ∀ w ∈ registered H (s.afterEvents H it) it.second, Served H (s.afterEvents H it) it.second w
  due : ∀ w time, (w, time) ∈ (s.afterSecond H it).scheduled → time ≤ it.later →
    Served H ((s.afterSecond H it).processExpiredTimeout H it.later) next.first w

variable {H} {s : Eventloop κ} {pass : List (List (Label κ))} {w : ℕ}

/-! ## A pass that ends -/

/-- behind it nobody waits for a turn -/
theorem not_waiting (hend : (Machine.run (round H) s pass).readyQueue = []) : ¬ Waiting w (Machine.run (round H) s pass) := by
  intro hw
  have hqueued := hw.queued
  rw [hend] at hqueued
  cases hqueued

theorem served_of_fate (hend : (Machine.run (round H) s pass).readyQueue = [])
    (hfate : w ∈ executed H s pass ∧ ¬ (Withdrawn H w s pass ∨ Waiting w (Machine.run (round H) s pass)) ∨
      w ∉ executed H s pass ∧ (Withdrawn H w s pass ∨ Waiting w (Machine.run (round H) s pass))) : Served H s pass w := by
  rw [or_iff_left (not_waiting hend)] at hfate
  rcases hfate with ⟨hex, hno⟩ | ⟨hex, hw⟩
  · exact iff_of_true hex hno
  · exact iff_of_false hex (not_not.2 hw)

theorem served_of_ready (h : Inv s) (hp : Machine.Along (round H) InPass s pass)
    (hend : (Machine.run (round H) s pass).readyQueue = []) (hq : w ∈ s.readyQueue) (hw : s.Pending w) :
    Served H s pass w :=
  served_of_fate hend (waiting_fate h ⟨hq, hw⟩ hp)

theorem served_of_registered (h : Inv s) (hp : Machine.Along (round H) InPass s pass)
    (hend : (Machine.run (round H) s pass).readyQueue = []) (hw : w ∈ registered H s pass) : Served H s pass w :=
  served_of_fate hend (registered_fate h hp hw)

/-! ## What is put into the queue -/

theorem mem_ready_of_reported {events : List Epoll.Report} {d : Dir} {fd : ℤ} (h0 : w ≠ 0) (hl : s.epoll.Linked d fd w)
    {r : Epoll.Report} (hr : r ∈ events) (hfd : r.fd = fd) (hd : r.has d = true) :
    w ∈ (s.processEpollEvent events).readyQueue :=
  List.mem_append_right _ (List.mem_flatMap.2 ⟨r, hr, Epoll.woken_linked hl h0 hfd hd⟩)

theorem mem_ready_of_due (hH : H.Ordered) (hheap : IsHeap Prod.snd s.scheduled) {time now : ℤ}
    (he : (w, time) ∈ s.scheduled) (hdue : time ≤ now) : w ∈ (s.processExpiredTimeout H now).readyQueue := by
  obtain ⟨⟨due, hready, hperm, -, -⟩, -⟩ := expire_moves hH now le_rfl hheap
  have hmem : (w, time) ∈ due := hperm.mem_iff.2 (List.mem_filter.2 ⟨he, decide_eq_true hdue⟩)
  rw [processExpiredTimeout, hready]
  exact List.mem_append_right _ (List.mem_map_of_mem hmem)

/-! ## Two iterations -/

/-- every part of an iteration is a part of a run -/
theorem afterSecond_run (ls : List (Label κ)) (it : Iteration κ) :
    (Machine.run (step H) make ls).afterSecond H it = Machine.run (step H) make (ls ++
      (it.first.flatMap (.executeReady :: ·) ++ .epollEvent it.events :: it.second.flatMap (.executeReady :: ·))) := by
  simp only [afterSecond, afterEvents, afterFirst, Machine.run_append, Machine.run_cons, rounds_run]
  rfl

/-- **Latency**: for every history of the loop, any two iterations behind it and all that their callbacks do -/
theorem timely (hH : H.Ordered) (ls : List (Label κ)) (it next : Iteration κ)
    (hit : Takes H (Machine.run (step H) make ls) it)
    (hnext : Takes H (((Machine.run (step H) make ls).afterSecond H it).processExpiredTimeout H it.later) next) :
    Timely H (Machine.run (step H) make ls) it next := by
  have hinv : Inv (Machine.run (step H) make ls) := run_inv ls
  have hfirst : Inv ((Machine.run (step H) make ls).afterFirst H it) := by
    rw [afterFirst, rounds_run]
    exact calls_inv hinv _
  have hevents : Inv ((Machine.run (step H) make ls).afterEvents H it) := epollEvent_inv hfirst it.events
  have hsecond : Inv ((Machine.run (step H) make ls).afterSecond H it) := by
    rw [afterSecond, rounds_run]
    exact calls_inv hevents _
  refine ⟨?_, ?_, ?_, ?_, ?_⟩
  · intro w hq hw
    exact served_of_ready hinv hit.first hit.firstEnds hq hw
  · intro w hw
    exact served_of_registered hinv hit.first hit.firstEnds hw
  · intro d fd w h0 hw hl ⟨r, hr, hfd, hd⟩
    exact served_of_ready hevents hit.second hit.secondEnds (mem_ready_of_reported h0 hl hr hfd hd) hw
  · intro w hw
    exact served_of_registered hevents hit.second hit.secondEnds hw
  · intro w time he hdue
    have hheap : IsHeap Prod.snd ((Machine.run (step H) make ls).afterSecond H it).scheduled := by
      rw [afterSecond_run]
      exact (run_follows hH _).1
    have hpending : (((Machine.run (step H) make ls).afterSecond H it).processExpiredTimeout H it.later).Pending w := by
      have hcb := (hsecond.scheduled _ he).1
      rwa [Pending, processExpiredTimeout, (expire_rest _ _).2.1]
    exact served_of_ready (step_inv hsecond (.expiredTimeout it.later)) hnext.first hnext.firstEnds
      (mem_ready_of_due hH hheap he hdue) hpending

/-- a ready callback that sets a timer for the tick 3, a descriptor that becomes readable, and the tick 3 -/
theorem timely_three : Timely orderedHeap (Machine.run (step orderedHeap) (make : Eventloop Unit)
    [.callSoon 1 (), .addReader 5 2 () fun _ => true]) ⟨0, [[.callAt 3 1 ()]], [⟨5, true, false⟩], [[]], 3⟩
    ⟨3, [[]], [], [], 3⟩ := by
  apply timely orderedHeap_ordered
  · exact ⟨⟨⟨by decide, by decide, by decide⟩, trivial⟩, by decide, ⟨⟨by decide, by nofun, by nofun⟩, trivial⟩, by decide⟩
  · exact ⟨⟨⟨by decide, by nofun, by nofun⟩, trivial⟩, by decide, trivial, by decide⟩

end MCoroRpc.Eventloop
