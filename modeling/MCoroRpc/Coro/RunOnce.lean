/-
One iteration of the event loop (src/event_loop.cc: run_once).

execute_ready_callback goes round as long as a callback is ready. What the callback of a round does to the loop is the
label of that round: a list of calls (`round`, `InPass`). Times are ticks of the steady clock, nanoseconds since the
machine was started; the difference of two of them is within 64 bits.

- `pollTimeout`: the timeout as run_once computes it, before it runs the callbacks.
- `Prompt`: a timeout with which epoll_wait does not sleep beyond what the loop has to do.

Main results:
- `prompt_iff`: run_once gives such a timeout to epoll_wait exactly if the milliseconds to the earliest timer come out of
  the conversion to `int` as they should.
- `asleep`: a timer 25 days ahead, and epoll_wait is asked to wait for ever.
-/
import MCoroRpc.Core.CInt
import MCoroRpc.Coro.TimerQueue

namespace MCoroRpc.Eventloop

open CInt

variable {κ : Type*} (H : HeapAlgorithms)

/-! ## Model -/

/-- the milliseconds are counted in 64 bits and stored in an `int` -/
def pollTimeout (now : ℤ) (s : Eventloop κ) : ℤ :=
  if s.readyQueue ≠ [] then 0
  else
    match s.scheduled with
    | [] => -1
    | (_, next) :: _ => if now < next then toInt ((next - now) / 1000000) else 0

/-- what a callback can do to the loop -/
def Label.byCallback : Label κ → Bool
  | .epollEvent _ | .expiredTimeout _ | .executeReady => false
  | _ => true

/-- one round of execute_ready_callback, with what its callback does -/
def round (s : Eventloop κ) (calls : List (Label κ)) : Eventloop κ := Machine.run (step H) s.executeReady.2 calls

/-- the round takes place, and its callback makes these calls -/
structure InPass (s : Eventloop κ) (calls : List (Label κ)) : Prop where
  ready : s.readyQueue ≠ []
  callback : s.executeReady.1 = none → calls = []
  calls : ∀ l ∈ calls, l.byCallback = true

/-- the timeout that epoll_wait is called with, and the loop behind the iteration; the callbacks make the calls `first`
and `second`, epoll reports `events`, and the clock shows `later` at the end -/
def runOnce (now : ℤ) (first : List (List (Label κ))) (events : List Epoll.Report) (second : List (List (Label κ)))
    (later : ℤ) (s : Eventloop κ) : ℤ × Eventloop κ :=
  let timeout := pollTimeout now s
  let s := Machine.run (round H) s first
  let timeout := if s.readyQueue ≠ [] then 0 else timeout
  let s := Machine.run (round H) (s.processEpollEvent events) second
  (timeout, s.processExpiredTimeout H later)

/-- with this timeout epoll_wait does not sleep while a callback is ready, nor beyond the earliest timer -/
structure Prompt (now timeout : ℤ) (s : Eventloop κ) : Prop where
  ready : s.readyQueue ≠ [] → timeout = 0
  timer : s.readyQueue = [] → s.scheduled ≠ [] →
    0 ≤ timeout ∧ ∀ e ∈ s.scheduled, timeout ≤ max 0 ((e.2 - now) / 1000000)
  forever : timeout = -1 → s.readyQueue = [] ∧ s.scheduled = []

/-- the milliseconds to the first timer do not turn negative in an `int` -/
def Converts (now : ℤ) (s : Eventloop κ) : Prop :=
  s.readyQueue = [] → ∀ e ∈ s.scheduled.head?, now < e.2 → (e.2 - now) / 1000000 % 4294967296 < 2147483648

variable {H} {s : Eventloop κ} {now : ℤ}

/-! ## The conversion -/

theorem toInt_of_emod_lt {x : ℤ} (h : x % 4294967296 < 2147483648) : toInt x = x % 4294967296 := by
  unfold toInt
  exact Int.bmod_eq_emod_of_lt (by omega)

theorem toInt_of_le_emod {x : ℤ} (h : 2147483648 ≤ x % 4294967296) : toInt x < 0 := by
  have hlt : x % 4294967296 < 4294967296 := Int.emod_lt_of_pos x (by norm_num)
  unfold toInt
  rw [Int.bmod_eq_emod]
  split_ifs <;> omega

/-- a duration stays below itself if it does not turn negative -/
theorem toInt_le {x : ℤ} (hx : 0 ≤ x) (h : x % 4294967296 < 2147483648) : 0 ≤ toInt x ∧ toInt x ≤ x := by
  rw [toInt_of_emod_lt h]
  omega

/-! ## The timeout -/

/-- a pass that finds no callback ready does nothing -/
theorem pass_nil {opss : List (List (Label κ))} (h : Machine.Along (round H) InPass s opss) (hq : s.readyQueue = []) :
    opss = [] := by
  cases opss with
  | nil => rfl
  | cons ops opss => exact absurd hq h.1.ready

theorem prompt_zero (now : ℤ) (s : Eventloop κ) : Prompt now 0 s where
  ready := fun _ => rfl
  timer := fun _ _ => ⟨le_rfl, fun _ _ => le_max_left _ _⟩
  forever := fun h1 => by cases h1

/-- a loop with nothing to do may wait for ever -/
theorem prompt_idle (hq : s.readyQueue = []) (hs : s.scheduled = []) (t : ℤ) : Prompt now t s where
  ready := fun h => absurd hq h
  timer := fun _ h => absurd hs h
  forever := fun _ => ⟨hq, hs⟩

theorem prompt_pollTimeout (hheap : IsHeap Prod.snd s.scheduled) : Prompt now (pollTimeout now s) s ↔ Converts now s := by
  by_cases hq : s.readyQueue = []
  · cases hs : s.scheduled with
    | nil =>
      refine iff_of_true (prompt_idle hq hs _) ?_
      intro _ e he
      rw [hs] at he
      cases he
    | cons e v =>
      rw [hs] at hheap
      have hne : s.scheduled ≠ [] := by rw [hs]; exact List.cons_ne_nil _ _
      have hconverts : Converts now s ↔ (now < e.2 → (e.2 - now) / 1000000 % 4294967296 < 2147483648) := by
        simp only [Converts, hq, hs, List.head?_cons, Option.mem_def, Option.some.injEq, forall_eq', true_imp_iff]
      rw [hconverts]
      by_cases hlt : now < e.2
      · have ht : pollTimeout now s = toInt ((e.2 - now) / 1000000) := by
          simp only [pollTimeout, hq, hs, ne_eq, not_true_eq_false, if_false, hlt, if_true]
        have hpos : 0 ≤ (e.2 - now) / 1000000 := Int.ediv_nonneg (by omega) (by norm_num)
        rw [ht]
        constructor
        · intro h _
          by_contra hbig
          exact absurd (h.timer hq hne).1 (not_le.2 (toInt_of_le_emod (not_lt.1 hbig)))
        · intro hsmall
          obtain ⟨h0, hle⟩ := toInt_le hpos (hsmall hlt)
          refine ⟨fun h => absurd hq h, fun _ _ => ⟨h0, ?_⟩, fun h => by omega⟩
          intro e' he'
          rw [hs] at he'
          have hfront : e.2 ≤ e'.2 := hheap.front_le he'
          calc toInt ((e.2 - now) / 1000000) ≤ (e.2 - now) / 1000000 := hle
            _ ≤ (e'.2 - now) / 1000000 := Int.ediv_le_ediv (by norm_num) (by omega)
            _ ≤ max 0 ((e'.2 - now) / 1000000) := le_max_right _ _
      · have ht : pollTimeout now s = 0 := by
          simp only [pollTimeout, hq, hs, ne_eq, not_true_eq_false, if_false, hlt]
        rw [ht]
        exact iff_of_true (prompt_zero now s) fun h => absurd h hlt
  · have ht : pollTimeout now s = 0 := by simp only [pollTimeout, ne_eq, hq, not_false_eq_true, if_true]
    rw [ht]
    exact iff_of_true (prompt_zero now s) fun h => absurd h hq

/-- **The timeout** that run_once gives to epoll_wait is prompt, for the loop as the iteration begins and as epoll_wait is
called, exactly if the milliseconds to the earliest timer do not turn negative -/
theorem prompt_iff (hH : H.Ordered) (ls : List (Label κ)) (now later : ℤ) (events : List Epoll.Report)
    (first second : List (List (Label κ)))
    (hfirst : Machine.Along (round H) InPass (Machine.run (step H) make ls) first)
    (hend : (Machine.run (round H) (Machine.run (step H) make ls) first).readyQueue = []) :
    let s := Machine.run (step H) make ls
    let timeout := (s.runOnce H now first events second later).1
    Prompt now timeout s ∧ Prompt now timeout (Machine.run (round H) s first) ↔ Converts now s := by
  intro s timeout
  have hheap : IsHeap Prod.snd s.scheduled := (run_follows hH ls).1
  have ht : timeout = pollTimeout now s := by
    simp only [timeout, runOnce]
    exact if_neg fun h => h hend
  rw [ht]
  by_cases hq : s.readyQueue = []
  · obtain rfl := pass_nil hfirst hq
    rw [Machine.run_nil, and_self]
    exact prompt_pollTimeout hheap
  · -- the callbacks may have set timers, but the timeout is 0
    have h0 : pollTimeout now s = 0 := by simp only [pollTimeout, ne_eq, hq, not_false_eq_true, if_true]
    refine ⟨fun h => (prompt_pollTimeout hheap).1 h.1, fun h => ⟨(prompt_pollTimeout hheap).2 h, ?_⟩⟩
    rw [h0]
    exact prompt_zero now _

theorem prompt_second : let s := Machine.run (step orderedHeap) (make : Eventloop ℕ) [.callAt 1000000000 1 0]
    pollTimeout 1 s = 999 ∧ Prompt 1 (s.runOnce orderedHeap 1 [] [] [] 1).1 s := by
  intro s
  have h := (prompt_iff orderedHeap_ordered [.callAt 1000000000 1 (0 : ℕ)] 1 1 [] [] [] trivial rfl).2 ?_
  · exact ⟨by decide, h.1⟩
  · intro _ e he _
    obtain rfl : ((0, 1000000000) : ℕ × ℤ) = e := Option.some.inj he
    decide

/-- a timer 25 days ahead, and nothing else: the 2160000000 milliseconds become a negative timeout -/
theorem asleep : let s := Machine.run (step orderedHeap) (make : Eventloop ℕ) [.callAt 2160000000000000 1 0]
    (s.runOnce orderedHeap 0 [] [] [] 0).1 = -2134967296 ∧ ¬ Prompt 0 (s.runOnce orderedHeap 0 [] [] [] 0).1 s := by
  intro s
  have ht : (s.runOnce orderedHeap 0 [] [] [] 0).1 = -2134967296 := by decide
  refine ⟨ht, fun h => ?_⟩
  have h0 := (h.timer (by decide) (by decide)).1
  rw [ht] at h0
  exact absurd h0 (by decide)

end MCoroRpc.Eventloop
