/-
Do the two books of the event loop agree, `m_coro_waits` and `m_wait_callback`?

A callback is always held under its owner (`Eventloop.Inv`). The other way round, cancel_wait takes the callback of an
id and leaves the id with its owner, unlike the wrapper of a callback, the failure path of a registration and cancel.

Main results:
- `agrees_iff`: the books agree in every state of a run exactly if no cancel_wait meets an id that has a callback.
- `left_with_owner`: a timer is cancelled; nothing is left to run and run_until_complete does not stop.
-/
import MCoroRpc.Coro.Eventloop

namespace MCoroRpc.Eventloop

open Multimap

variable {κ : Type*} {H : HeapAlgorithms} {s : Eventloop κ}

/-- the ids with an owner are those with a callback, and without callbacks nothing holds the loop back -/
structure Agrees (s : Eventloop κ) : Prop where
  waits : ∀ waitId, (∃ handle, Holds s.coroWaits handle waitId) ↔ s.Pending waitId
  idle : (∀ waitId, ¬ s.Pending waitId) → s.coroWaits = ∅
  /-- with an empty queue and no fd to watch, the loop stops; it does not when an executed callback has left its fd
  registered -/
  stops : (∀ waitId, ¬ s.Pending waitId) → s.readyQueue = [] → s.epoll.isStop = true → s.isStop = true

/-- the step takes no callback away by its id -/
def Covered (s : Eventloop κ) : Label κ → Prop
  | .cancelWait waitId => ¬ s.Pending waitId
  | _ => True

/-- every id with an owner has a callback -/
def Backed (s : Eventloop κ) : Prop := ∀ handle waitId, Holds s.coroWaits handle waitId → s.Pending waitId

theorem Inv.agrees (h : Inv s) (hb : Backed s) : Agrees s := by
  have hidle : (∀ waitId, ¬ s.Pending waitId) → s.coroWaits = ∅ := by
    intro hnone
    exact h.tight.eq_empty fun handle waitId hh => hnone waitId (hb handle waitId hh)
  refine ⟨?_, hidle, ?_⟩
  · intro waitId
    refine ⟨fun ⟨handle, hh⟩ => hb handle waitId hh, ?_⟩
    intro ⟨cb, hcb⟩
    exact ⟨cb.coroId, (h.callback waitId cb hcb).2⟩
  · intro hnone hready hepoll
    have hsched : s.scheduled = [] := by
      rw [List.eq_nil_iff_forall_not_mem]
      exact fun e he => hnone e.1 (h.scheduled e he).1
    simp [isStop, hready, hsched, hepoll, hidle hnone]

theorem enlist_backed (hb : Backed s) (handle : ℕ) (cb : κ) : Backed (s.enlist handle cb) := by
  intro handle' waitId hh
  rw [enlist_pending]
  rcases enlist_holds.1 hh with hh | ⟨-, he⟩
  · exact .inl (hb handle' waitId hh)
  · exact .inr he

theorem addWaiter_backed (h : Inv s) (hb : Backed s) (d : Dir) (fd : ℤ) (handle : ℕ) (cb : κ) (ctl : CtlOp → Bool) :
    Backed (s.addWaiter d fd handle cb ctl).2 := by
  have he := enlist_backed hb handle cb
  unfold addWaiter
  dsimp only
  split_ifs
  · exact he
  · -- the failed registration takes its id out of both books
    intro handle' waitId hh
    obtain ⟨hh, hne⟩ := holds_take.1 hh
    obtain ⟨cb', hcb⟩ := he handle' waitId hh
    have hid : waitId ≠ s.nextWaitId := by
      rintro rfl
      refine hne ⟨?_, rfl⟩
      rcases enlist_holds.1 hh with hh | ⟨rfl, -⟩
      · exact absurd hh (h.not_held _)
      · rfl
    exact ⟨cb', by rw [← hcb]; exact Finmap.lookup_erase_ne hid⟩

theorem cancelWait_backed (hb : Backed s) {waitId : ℕ} (hnone : ¬ s.Pending waitId) : Backed (s.cancelWait H waitId) := by
  intro handle waitId' hh
  obtain ⟨cb, hcb⟩ := hb handle waitId' hh
  have hne : waitId' ≠ waitId := by
    rintro rfl
    exact hnone ⟨cb, hcb⟩
  exact ⟨cb, by rw [cancelWait_lookup, if_neg hne, hcb]⟩

theorem cancel_backed (h : Inv s) (hb : Backed s) (handle : ℕ) : Backed (s.cancel H handle) := by
  intro handle' waitId hh
  obtain ⟨hh, hne⟩ := cancel_holds.1 hh
  obtain ⟨cb, hcb⟩ := hb handle' waitId hh
  rcases @cancel_lookup κ H s handle waitId with ⟨-, hown⟩ | ⟨hl, -⟩
  · exact absurd (h.owner _ _ _ hh hown) hne
  · exact ⟨cb, hl.trans hcb⟩

theorem executeReady_backed (h : Inv s) (hb : Backed s) : Backed s.executeReady.2 := by
  rcases executeReady_cases s with ⟨-, he⟩ | ⟨waitId, queue, -, -, he⟩ | ⟨waitId, queue, cb, -, hcb, he⟩
  · rw [he]
    exact hb
  · rw [he]
    exact hb
  · rw [he]
    intro handle waitId' hh'
    obtain ⟨hh, hne⟩ := holds_take.1 hh'
    obtain ⟨cb', hcb'⟩ := hb handle waitId' hh
    obtain ⟨hid, hown⟩ := h.callback waitId cb hcb
    have hother : waitId' ≠ waitId := by
      intro heq
      rw [heq] at hh hne
      exact hne ⟨h.owner _ _ _ hh hown, hid.symm⟩
    exact ⟨cb', by rw [← hcb']; exact Finmap.lookup_erase_ne hother⟩

theorem step_backed (h : Inv s) (hb : Backed s) {l : Label κ} (hc : Covered s l) : Backed (s.step H l) := by
  cases l with
  | callSoon handle cb => exact enlist_backed hb handle cb
  | callAt time handle cb => exact enlist_backed hb handle cb
  | addReader fd handle cb ctl => exact addWaiter_backed h hb .read fd handle cb ctl
  | addWriter fd handle cb ctl => exact addWaiter_backed h hb .write fd handle cb ctl
  | cancelWait waitId => exact cancelWait_backed hb hc
  | cancel handle => exact cancel_backed h hb handle
  | epollEvent events => exact hb
  | expiredTimeout now =>
    intro handle waitId hh
    obtain ⟨hwaits, hcbs, -⟩ := @expire_rest κ H s now s.scheduled.length
    obtain ⟨cb, hcb⟩ := hb handle waitId (hwaits ▸ hh)
    exact ⟨cb, (congrArg (Finmap.lookup waitId) hcbs).trans hcb⟩
  | executeReady => exact executeReady_backed h hb
  | stop => exact hb

/-- a callback that is taken away by its id is still held by its owner -/
theorem cancelWait_disagrees (h : Inv s) {waitId : ℕ} (hp : s.Pending waitId) : ¬ Agrees (s.cancelWait H waitId) := by
  intro ha
  obtain ⟨cb, hcb⟩ := hp
  obtain ⟨cb', hcb'⟩ := (ha.waits waitId).1 ⟨cb.coroId, (h.callback waitId cb hcb).2⟩
  rw [cancelWait_lookup, if_pos rfl] at hcb'
  cases hcb'

theorem make_backed : Backed (make : Eventloop κ) :=
  fun _ _ hh => absurd hh not_holds_empty

/-- **Books**: the ids with an owner are those with a callback, in every state of a run, exactly if no cancel_wait meets an
id that has a callback -/
theorem agrees_iff (H : HeapAlgorithms) (ls : List (Label κ)) :
    (∀ n, Agrees (Machine.run (step H) make (ls.take n))) ↔ Machine.Along (step H) Covered (make : Eventloop κ) ls := by
  refine Machine.along_iff (L := fun _ => True) (I := fun s => Inv s ∧ Backed s) (fun _ h => h.1.agrees h.2) ?_ ?_
    ⟨make_inv, make_backed⟩ (fun _ _ => trivial)
  · exact fun s l _ h hc => ⟨step_inv h.1 l, step_backed h.1 h.2 hc⟩
  · intro s l _ h hc
    cases l with
    | cancelWait waitId => exact cancelWait_disagrees h.1 (not_not.1 hc)
    | _ => exact absurd trivial hc

/-- without anything ready, scheduled or watched, a round of run_once changes nothing -/
theorem idle_fixed (hready : s.readyQueue = []) (hsched : s.scheduled = []) (hmap : s.epoll.eventMap = ∅) (now : ℤ)
    (events : List Epoll.Report) :
    s.executeReady.2 = s ∧ s.processEpollEvent events = s ∧ s.processExpiredTimeout H now = s := by
  refine ⟨?_, ?_, ?_⟩
  · simp only [executeReady, hready]
  · have hwoken : ∀ r, s.epoll.woken r = [] := by
      intro r
      simp only [Epoll.woken, hmap, Finmap.lookup_empty]
    have hnone : events.flatMap s.epoll.woken = [] := List.flatMap_eq_nil_iff.2 fun r _ => hwoken r
    simp only [processEpollEvent, hnone, List.append_nil]
  · simp [processExpiredTimeout, hsched, expire]

/-- a timer is set and cancelled: no callback is left and nothing that could make one ready, and the loop neither stops
nor changes any more -/
theorem left_with_owner : (¬ ∀ n, Agrees (Machine.run (step sortedHeap) (make : Eventloop Unit)
      ([.callAt 5 1 (), .cancelWait 0].take n))) ∧
    ∃ s, s = Machine.run (step sortedHeap) (make : Eventloop Unit) [.callAt 5 1 (), .cancelWait 0] ∧
      (∀ waitId, ¬ s.Pending waitId) ∧ s.isStop = false ∧ ∀ now events,
        s.executeReady.2 = s ∧ s.processEpollEvent events = s ∧ s.processExpiredTimeout sortedHeap now = s := by
  refine ⟨?_, _, rfl, ?_, by decide, fun now events => idle_fixed rfl rfl rfl now events⟩
  · intro h
    have hinv : Inv (Machine.run (step sortedHeap) (make : Eventloop Unit) [.callAt 5 1 ()]) := run_inv _
    exact cancelWait_disagrees hinv ⟨⟨1, 0, ()⟩, rfl⟩ (h 2)
  · intro waitId ⟨cb, hcb⟩
    have hlookup : (cancelWait sortedHeap 0 ((make : Eventloop Unit).callAt sortedHeap 5 1 ()).2).waitCallback.lookup
        waitId = some cb := hcb
    rw [cancelWait_lookup] at hlookup
    split_ifs at hlookup with he
    have hold : ((make : Eventloop Unit).enlist 1 ()).waitCallback.lookup waitId = some cb := hlookup
    rw [enlist_lookup, if_neg (show waitId ≠ (make : Eventloop Unit).nextWaitId from he)] at hold
    cases hold

end MCoroRpc.Eventloop
