/-
Cancelling a handle (src/event_loop.cc: cancel; src/epoll.cc: cancel_wait).

A wait belongs to the handle under whose id m_coro_waits holds it. Handles are told apart by their ids, so another handle
is another id here. The kernel's interest set follows the events of the selector (Selector.Kernel).

- `Removed`: nothing that belongs to the handle is left.
- `Framed`: what belongs to no one or to another handle is as before; in particular the other direction of an fd.
- `Reached`: what holds in the states that are reached while epoll_ctl accepts every registration.

Main result: `cancel_framed`. Ids that are 0 make no difference to it.
-/
import MCoroRpc.Coro.TimerQueue
import MCoroRpc.Selector.Registry

namespace MCoroRpc

open Multimap

namespace Epoll

variable {e : Epoll} {d : Dir} {fd : ℤ} {w w' : ℕ}

/-- the cancellations of a list of ids -/
def withdrawAll (ws : List ℕ) (e : Epoll) : Epoll := ws.foldl (fun e w => e.cancelWait w) e

theorem Tracks.withdrawAll (ht : Tracks e) (ws : List ℕ) : Tracks (e.withdrawAll ws) := by
  induction ws generalizing e with
  | nil => exact ht
  | cons w ws ih => exact ih (ht.cancelWait w)

theorem Tracks.withdrawAll_waits (ht : Tracks e) {ws : List ℕ} :
    Waits (e.withdrawAll ws) d fd w ↔ Waits e d fd w ∧ w ∉ ws := by
  induction ws generalizing e with
  | nil => simp [Epoll.withdrawAll]
  | cons w' ws ih =>
    have hstep : Waits ((e.cancelWait w').withdrawAll ws) d fd w ↔ Waits (e.cancelWait w') d fd w ∧ w ∉ ws :=
      ih (ht.cancelWait w')
    rw [ht.cancelWait_waits] at hstep
    simp only [List.mem_cons, not_or, ← and_assoc]
    exact hstep

theorem Tracks.withdrawAll_lookup (ht : Tracks e) {ws : List ℕ} :
    (e.withdrawAll ws).waitToFd.lookup w = if w ∈ ws then none else e.waitToFd.lookup w := by
  induction ws generalizing e with
  | nil => rfl
  | cons w' ws ih =>
    have hstep : ((e.cancelWait w').withdrawAll ws).waitToFd.lookup w = _ := ih (ht.cancelWait w')
    calc ((e.cancelWait w').withdrawAll ws).waitToFd.lookup w
        = if w ∈ ws then none else if w = w' then none else e.waitToFd.lookup w := by
          rw [hstep, ht.cancelWait_lookup]
      _ = if w ∈ w' :: ws then none else e.waitToFd.lookup w := by
          by_cases hw : w ∈ ws <;> by_cases heq : w = w' <;> simp [hw, heq]

/-- a direction without any of the waiters stays as it is -/
theorem Tracks.withdrawAll_event (ht : Tracks e) {ws : List ℕ} (hno : ∀ w ∈ ws, ¬ Waits e d fd w) :
    ((e.withdrawAll ws).event fd).watches d = (e.event fd).watches d ∧
      ((e.withdrawAll ws).event fd).waiter d = (e.event fd).waiter d := by
  induction ws generalizing e with
  | nil => exact ⟨rfl, rfl⟩
  | cons w ws ih =>
    rcases ht.cancelWait_event (w := w) fd d with ⟨hw, -, -⟩ | ⟨-, hwatch, hwait⟩
    · exact absurd hw (hno w List.mem_cons_self)
    · have hno' : ∀ w' ∈ ws, ¬ Waits (e.cancelWait w) d fd w' := fun w' hw' hwaits =>
        hno w' (List.mem_cons_of_mem w hw') (ht.cancelWait_waits.1 hwaits).1
      obtain ⟨h1, h2⟩ := ih (ht.cancelWait w) hno'
      exact ⟨h1.trans hwatch, h2.trans hwait⟩

/-- an event that is still waited for stays edge-triggered -/
theorem Tracks.cancelWait_epollet (ht : Tracks e) (hw : Waits e d fd w) (hne : w ≠ w') :
    ((e.cancelWait w').event fd).epollet = (e.event fd).epollet := by
  have hkept : Waits (e.cancelWait w') d fd w := ht.cancelWait_waits.2 ⟨hw, hne⟩
  rcases @Epoll.cancelWait_event e w' fd with h | h | ⟨h, -⟩
  · rw [h]
  · rw [h]
    unfold Event.withdraw
    split_ifs <;> rfl
  · rw [Waits, h, Event.default_watches] at hkept
    cases hkept.1

theorem Tracks.withdrawAll_epollet (ht : Tracks e) {ws : List ℕ} (hw : Waits e d fd w) (hno : w ∉ ws) :
    ((e.withdrawAll ws).event fd).epollet = (e.event fd).epollet := by
  induction ws generalizing e with
  | nil => rfl
  | cons w' ws ih =>
    rw [List.mem_cons, not_or] at hno
    have hkept : Waits (e.cancelWait w') d fd w := ht.cancelWait_waits.2 ⟨hw, hno.1⟩
    exact (ih (ht.cancelWait w') hkept hno.2).trans (ht.cancelWait_epollet hw hno.1)

end Epoll

namespace Eventloop

open Epoll (Waits Tracks)

variable {κ : Type*} {H : HeapAlgorithms} {s s' : Eventloop κ} {c : ℕ}

/-- the waits that belong to a handle -/
def waitsOf (c : ℕ) (s : Eventloop κ) : List ℕ := (s.coroWaits.lookup c).getD []

theorem mem_waitsOf {w : ℕ} : w ∈ s.waitsOf c ↔ Holds s.coroWaits c w := by
  unfold waitsOf Holds
  cases s.coroWaits.lookup c with
  | none => simp
  | some l => simp

/-- nothing that belongs to the handle is left -/
structure Removed (c : ℕ) (s s' : Eventloop κ) : Prop where
  owner : s'.coroWaits.lookup c = none
  callback : ∀ w cb, s'.waitCallback.lookup w = some cb → cb.coroId ≠ c ∧ w ∉ s.waitsOf c
  scheduled : ∀ e ∈ s'.scheduled, e.1 ∉ s.waitsOf c
  epoll : ∀ d fd, ∀ w ∈ s.waitsOf c, ¬ Waits s'.epoll d fd w ∧ s'.epoll.waitToFd.lookup w = none

/-- what does not belong to the handle is as before -/
structure Framed (c : ℕ) (s s' : Eventloop κ) : Prop where
  owner : ∀ c', c' ≠ c → s'.coroWaits.lookup c' = s.coroWaits.lookup c'
  callback : ∀ w, w ∉ s.waitsOf c → s'.waitCallback.lookup w = s.waitCallback.lookup w
  scheduled : s'.scheduled.Perm (s.scheduled.filter (·.1 ∉ s.waitsOf c))
  heap : IsHeap Prod.snd s'.scheduled
  /-- each direction of each fd for itself -/
  event : ∀ d fd, (∀ w ∈ s.waitsOf c, ¬ Waits s.epoll d fd w) →
    (s'.epoll.event fd).watches d = (s.epoll.event fd).watches d ∧
      (s'.epoll.event fd).waiter d = (s.epoll.event fd).waiter d
  epollet : ∀ d fd w, w ∉ s.waitsOf c → Waits s.epoll d fd w →
    (s'.epoll.event fd).epollet = (s.epoll.event fd).epollet
  waitToFd : ∀ w, w ∉ s.waitsOf c → s'.epoll.waitToFd.lookup w = s.epoll.waitToFd.lookup w
  ready : s'.readyQueue = s.readyQueue
  rest : s'.nextWaitId = s.nextWaitId ∧ s'.stopped = s.stopped

/-! ## One cancellation -/

theorem cancelWaits_epoll (waits : List ℕ) : (s.cancelWaits H waits).epoll = s.epoll.withdrawAll waits := by
  induction waits generalizing s with
  | nil => rfl
  | cons w waits ih => exact ih

theorem cancelWaits_stopped (waits : List ℕ) : (s.cancelWaits H waits).stopped = s.stopped := by
  induction waits generalizing s with
  | nil => rfl
  | cons w waits ih => exact ih

/-- cancel, whether the handle has waits or not -/
theorem cancel_eq (c : ℕ) (s : Eventloop κ) : s.cancel H c =
    { s.cancelWaits H (s.waitsOf c) with coroWaits := (s.cancelWaits H (s.waitsOf c)).coroWaits.erase c } := by
  unfold cancel waitsOf
  cases hl : s.coroWaits.lookup c with
  | some waits => rfl
  | none =>
    have hsame : s.coroWaits.erase c = s.coroWaits := Finmap.ext_lookup fun c' => by
      rw [lookup_erase_ite]
      split_ifs with hc
      · rw [hc, hl]
      · rfl
    simp only [Option.getD_none, cancelWaits, List.foldl_nil, hsame]

theorem cancel_removed (h : Inv s) (ht : Tracks s.epoll) (c : ℕ) : Removed c s (s.cancel H c) where
  owner := by
    rw [cancel_eq]
    exact Finmap.lookup_erase _ _
  callback := by
    intro w cb hcb
    refine ⟨cancel_none h hcb, fun hw => ?_⟩
    rcases @cancel_lookup κ H s c w with ⟨hnone, -⟩ | ⟨-, hno⟩
    · cases hnone.symm.trans hcb
    · exact hno (mem_waitsOf.1 hw)
  scheduled := by
    intro e he
    rw [cancel_eq] at he
    have hin := (cancelWaits_scheduled h (s.waitsOf c)).mem_iff.1 he
    simpa using (List.mem_filter.1 hin).2
  epoll := by
    intro d fd w hw
    have hepoll : (s.cancel H c).epoll = s.epoll.withdrawAll (s.waitsOf c) := by
      rw [cancel_eq]
      exact cancelWaits_epoll _
    rw [hepoll, ht.withdrawAll_waits, ht.withdrawAll_lookup, if_pos hw]
    exact ⟨fun hwaits => hwaits.2 hw, rfl⟩

theorem cancel_leaves (hH : H.Ordered) (h : Inv s) (ht : Tracks s.epoll) (hheap : IsHeap Prod.snd s.scheduled) (c : ℕ) :
    Framed c s (s.cancel H c) := by
  have hepoll : (s.cancel H c).epoll = s.epoll.withdrawAll (s.waitsOf c) := by
    rw [cancel_eq]
    exact cancelWaits_epoll _
  obtain ⟨howners, hready, hnext⟩ := @cancelWaits_rest κ H s (s.waitsOf c)
  refine ⟨?_, ?_, ?_, cancel_heap hH hheap c, ?_, ?_, ?_, ?_, ?_⟩
  · intro c' hne
    rw [cancel_eq, howners]
    exact Finmap.lookup_erase_ne hne
  · intro w hw
    rw [cancel_eq]
    exact cancelWaits_lookup.trans (if_neg hw)
  · rw [cancel_eq]
    exact cancelWaits_scheduled h _
  · intro d fd hno
    rw [hepoll]
    exact ht.withdrawAll_event hno
  · intro d fd w hw hwaits
    rw [hepoll]
    exact ht.withdrawAll_epollet hwaits hw
  · intro w hw
    rw [hepoll, ht.withdrawAll_lookup, if_neg hw]
  · rw [cancel_eq]
    exact hready
  · rw [cancel_eq]
    exact ⟨hnext, cancelWaits_stopped _⟩

/-! ## Every state -/

/-- epoll_ctl accepts the registration -/
def Accepted (s : Eventloop κ) : Label κ → Prop
  | .addReader fd _ _ ctl => (s.epoll.add .read fd s.nextWaitId ctl).1 = true
  | .addWriter fd _ _ ctl => (s.epoll.add .write fd s.nextWaitId ctl).1 = true
  | _ => True

structure Reached (s : Eventloop κ) : Prop where
  inv : Inv s
  heap : IsHeap Prod.snd s.scheduled
  tracks : Tracks s.epoll
  /-- only ids that have been given wait -/
  young : ∀ d fd w, Waits s.epoll d fd w → w < s.nextWaitId

theorem make_reached : Reached (make : Eventloop κ) where
  inv := make_inv
  heap := isHeap_nil
  tracks := Epoll.make_tracks
  young := by
    intro d fd w hw
    have hoff := hw.1
    simp only [make, Epoll.make_event, Event.default_watches, Bool.false_eq_true] at hoff

/-- a label that leaves the selector alone -/
theorem Reached.same (h : Reached s) (hinv : Inv s') (hheap : IsHeap Prod.snd s'.scheduled) (hepoll : s'.epoll = s.epoll)
    (hnext : s.nextWaitId ≤ s'.nextWaitId) : Reached s' :=
  ⟨hinv, hheap, hepoll ▸ h.tracks, fun d fd w hw => lt_of_lt_of_le (h.young d fd w (hepoll ▸ hw)) hnext⟩

/-- a cancellation -/
theorem Reached.withdraw (h : Reached s) (ws : List ℕ) (hinv : Inv s') (hheap : IsHeap Prod.snd s'.scheduled)
    (hepoll : s'.epoll = s.epoll.withdrawAll ws) (hnext : s'.nextWaitId = s.nextWaitId) : Reached s' := by
  refine ⟨hinv, hheap, hepoll ▸ h.tracks.withdrawAll ws, ?_⟩
  intro d fd w hw
  rw [hepoll, h.tracks.withdrawAll_waits] at hw
  rw [hnext]
  exact h.young d fd w hw.1

theorem Reached.addWaiter (h : Reached s) (d : Dir) (fd : ℤ) (handle : ℕ) (cb : κ) (ctl : CtlOp → Bool)
    (hok : (s.epoll.add d fd s.nextWaitId ctl).1 = true) : Reached (s.addWaiter d fd handle cb ctl).2 := by
  have hnew : ∀ d fd, ¬ Waits s.epoll d fd s.nextWaitId := fun d fd hw => lt_irrefl _ (h.young d fd _ hw)
  have hepoll : (s.addWaiter d fd handle cb ctl).2.epoll = (s.epoll.add d fd s.nextWaitId ctl).2 := by
    unfold Eventloop.addWaiter
    dsimp only
    rw [if_pos hok]
  have hnext : (s.addWaiter d fd handle cb ctl).2.nextWaitId = s.nextWaitId + 1 := by
    unfold Eventloop.addWaiter
    dsimp only
    rw [if_pos hok]
    rfl
  refine ⟨addWaiter_inv h.inv d fd handle cb ctl, (addWaiter_scheduled (s := s) d fd handle cb ctl) ▸ h.heap, ?_, ?_⟩
  · rw [hepoll]
    exact h.tracks.add hnew hok
  · intro d' fd' w hw
    rw [hepoll, Epoll.add_waits hok] at hw
    rw [hnext]
    rcases hw with ⟨-, rfl⟩ | ⟨-, hold⟩
    · exact Nat.lt_succ_self _
    · exact Nat.lt_succ_of_lt (h.young d' fd' w hold)

/-- **One step** -/
theorem step_reached (hH : H.Ordered) (h : Reached s) (l : Label κ) (hl : Accepted s l) : Reached (s.step H l) := by
  have hinv := step_inv (H := H) h.inv l
  have hheap := step_heap hH h.heap l
  cases l with
  | callSoon handle cb => exact h.same hinv hheap rfl (Nat.le_succ _)
  | callAt time handle cb => exact h.same hinv hheap rfl (Nat.le_succ _)
  | addReader fd handle cb ctl => exact h.addWaiter .read fd handle cb ctl hl
  | addWriter fd handle cb ctl => exact h.addWaiter .write fd handle cb ctl hl
  | cancelWait w => exact h.withdraw [w] hinv hheap rfl rfl
  | cancel c =>
    have heq := @cancel_eq κ H c s
    refine h.withdraw (s.waitsOf c) hinv hheap ?_ ?_
    · exact (congrArg Eventloop.epoll heq).trans (cancelWaits_epoll _)
    · exact (congrArg Eventloop.nextWaitId heq).trans (cancelWaits_rest _).2.2
  | epollEvent events => exact h.same hinv hheap rfl le_rfl
  | expiredTimeout now => exact h.same hinv hheap (expire_rest now _).2.2.1 (expire_next now _).ge
  | executeReady => exact h.same hinv hheap (executeReady_rest s).2.2 (executeReady_rest s).1.ge
  | stop => exact h.same hinv hheap rfl le_rfl

/-- **Every run** -/
theorem run_reached (hH : H.Ordered) {ls : List (Label κ)} (hls : Machine.Along (step H) Accepted make ls) :
    Reached (Machine.run (step H) make ls) :=
  Machine.inv_run (I := Reached) (fun _ l hl h => step_reached hH h l hl) hls make_reached

/-- **Cancel**: whatever belongs to the handle goes, and nothing else, in every state that is reached while epoll_ctl
accepts the registrations -/
theorem cancel_framed (hH : H.Ordered) {ls : List (Label κ)} (hls : Machine.Along (step H) Accepted make ls) (c : ℕ) :
    let s := Machine.run (step H) make ls
    Removed c s (s.cancel H c) ∧ Framed c s (s.cancel H c) := by
  intro s
  have h : Reached s := run_reached hH hls
  exact ⟨cancel_removed h.inv h.tracks c, cancel_leaves hH h.inv h.tracks h.heap c⟩

/-- both directions of an fd, for two handles, with a timer and a ready callback for each -/
def twoHandles : List (Label ℕ) :=
  [.callSoon 1 0, .callSoon 2 0, .addReader 5 1 0 fun _ => true, .addWriter 5 2 0 fun _ => true, .callAt 3 1 0, .callAt 4 2 0]

theorem cancel_framed_two :
    let s := Machine.run (step orderedHeap) make twoHandles
    (s.cancel orderedHeap 1).readyQueue = [0, 1] ∧ ((s.cancel orderedHeap 1).epoll.event 5).writer = 3 ∧
      Removed 1 s (s.cancel orderedHeap 1) ∧ Framed 1 s (s.cancel orderedHeap 1) := by
  have hls : Machine.Along (step orderedHeap) Accepted make twoHandles :=
    ⟨trivial, trivial, rfl, rfl, trivial, trivial, trivial⟩
  exact ⟨by decide, by decide, cancel_framed orderedHeap_ordered hls 1⟩

end Eventloop

end MCoroRpc
