/-
The event loop (include/coro/event_loop.hpp, src/event_loop.cc).

Every member function is one label. A callback is a value `κ`: executing a ready callback ends where the callback would
run, and what the callback does to the loop are the labels behind it. So a run of labels is a run of the loop in which
callbacks register and cancel in any order.

The vector `scheduled` is kept by the heap algorithms of the standard library; of these only the elements matter here
(`HeapAlgorithms`). What epoll_ctl and epoll_wait say is part of the labels.

- `Inv`: what holds in every state. `step_inv`: every label keeps it.
-/
import MCoroRpc.Core.Machine
import MCoroRpc.Selector.Epoll

namespace MCoroRpc

open Multimap

/-- an implementation of the heap algorithms -/
structure HeapAlgorithms where
  pushHeap : List (ℕ × ℤ) → List (ℕ × ℤ)
  popHeap : List (ℕ × ℤ) → List (ℕ × ℤ)
  makeHeap : List (ℕ × ℤ) → List (ℕ × ℤ)
  push_perm : ∀ v, (pushHeap v).Perm v
  /-- the first element is moved to the end -/
  pop_perm : ∀ x v, ∃ v', popHeap (x :: v) = v' ++ [x] ∧ v'.Perm v
  make_perm : ∀ v, (makeHeap v).Perm v

/-- a vector in the order of its times is a heap -/
def sortedHeap : HeapAlgorithms where
  pushHeap v := v.insertionSort fun a b => a.2 ≤ b.2
  popHeap
    | [] => []
    | x :: v => v ++ [x]
  makeHeap v := v.insertionSort fun a b => a.2 ≤ b.2
  push_perm v := List.perm_insertionSort _ v
  pop_perm _ v := ⟨v, rfl, .refl v⟩
  make_perm v := List.perm_insertionSort _ v

/-- a callback in its wrapper -/
structure WaitCallback (κ : Type*) where
  coroId : ℕ
  waitId : ℕ
  userCb : κ
deriving DecidableEq, Repr

structure Eventloop (κ : Type*) where
  nextWaitId : ℕ
  readyQueue : List ℕ
  coroWaits : Finmap fun _ : ℕ => List ℕ
  waitCallback : Finmap fun _ : ℕ => WaitCallback κ
  /-- wait ids and when they expire -/
  scheduled : List (ℕ × ℤ)
  stopped : Bool
  epoll : Epoll

namespace Eventloop

variable {κ : Type*} (H : HeapAlgorithms)

def make : Eventloop κ := ⟨0, [], ∅, ∅, [], false, .make⟩

/-- a new wait id, its callback and its owner: what every registration begins with -/
def enlist (handle : ℕ) (cb : κ) (s : Eventloop κ) : Eventloop κ :=
  { s with
    nextWaitId := s.nextWaitId + 1
    waitCallback := s.waitCallback.insert s.nextWaitId ⟨handle, s.nextWaitId, cb⟩
    coroWaits := put handle s.nextWaitId s.coroWaits }

def callSoon (handle : ℕ) (cb : κ) (s : Eventloop κ) : ℕ × Eventloop κ :=
  (s.nextWaitId, { s.enlist handle cb with readyQueue := s.readyQueue ++ [s.nextWaitId] })

def callAt (time : ℤ) (handle : ℕ) (cb : κ) (s : Eventloop κ) : ℕ × Eventloop κ :=
  (s.nextWaitId, { s.enlist handle cb with scheduled := H.pushHeap (s.scheduled ++ [(s.nextWaitId, time)]) })

/-- `add_reader` and `add_writer`; the id 0 is given for a failure -/
def addWaiter (d : Dir) (fd : ℤ) (handle : ℕ) (cb : κ) (ctl : CtlOp → Bool) (s : Eventloop κ) : ℕ × Eventloop κ :=
  let waitId := s.nextWaitId
  let t := s.enlist handle cb
  let r := s.epoll.add d fd waitId ctl
  if r.1 then (waitId, { t with epoll := r.2 })
  else
    (0, { t with epoll := r.2, waitCallback := t.waitCallback.erase waitId, coroWaits := take handle waitId t.coroWaits })

def addReader (fd : ℤ) (handle : ℕ) (cb : κ) (ctl : CtlOp → Bool) (s : Eventloop κ) : ℕ × Eventloop κ :=
  addWaiter .read fd handle cb ctl s

def addWriter (fd : ℤ) (handle : ℕ) (cb : κ) (ctl : CtlOp → Bool) (s : Eventloop κ) : ℕ × Eventloop κ :=
  addWaiter .write fd handle cb ctl s

/-- the first timer with this id goes; the heap is made anew if there is one -/
def unschedule (waitId : ℕ) (v : List (ℕ × ℤ)) : List (ℕ × ℤ) :=
  if v.any (·.1 == waitId) then H.makeHeap (v.eraseP (·.1 == waitId)) else v

def cancelWait (waitId : ℕ) (s : Eventloop κ) : Eventloop κ :=
  { s with
    waitCallback := s.waitCallback.erase waitId
    epoll := s.epoll.cancelWait waitId
    scheduled := unschedule H waitId s.scheduled }

/-- the loop of cancel -/
def cancelWaits (waits : List ℕ) (s : Eventloop κ) : Eventloop κ :=
  waits.foldl (fun s waitId => s.cancelWait H waitId) s

def cancel (handle : ℕ) (s : Eventloop κ) : Eventloop κ :=
  match s.coroWaits.lookup handle with
  | none => s
  | some waits =>
    let t := s.cancelWaits H waits
    { t with coroWaits := t.coroWaits.erase handle }

def processEpollEvent (events : List Epoll.Report) (s : Eventloop κ) : Eventloop κ :=
  { s with readyQueue := s.readyQueue ++ events.flatMap s.epoll.woken }

/-- the loop of process_expired_timeout; each round takes one timer -/
def expire (now : ℤ) : ℕ → Eventloop κ → Eventloop κ
  | 0, s => s
  | n + 1, s =>
    match s.scheduled with
    | [] => s
    | (waitId, time) :: v =>
      if time ≤ now then
        expire now n
          { s with scheduled := (H.popHeap ((waitId, time) :: v)).dropLast, readyQueue := s.readyQueue ++ [waitId] }
      else s

def processExpiredTimeout (now : ℤ) (s : Eventloop κ) : Eventloop κ := expire H now s.scheduled.length s

/-- one round of execute_ready_callback, as far as the callback -/
def executeReady (s : Eventloop κ) : Option (WaitCallback κ) × Eventloop κ :=
  match s.readyQueue with
  | [] => (none, s)
  | waitId :: queue =>
    match s.waitCallback.lookup waitId with
    | none => (none, { s with readyQueue := queue })
    | some cb =>
      (some cb,
        { s with
          readyQueue := queue
          waitCallback := s.waitCallback.erase waitId
          coroWaits := take cb.coroId cb.waitId s.coroWaits })

def isStop (s : Eventloop κ) : Bool :=
  s.stopped || s.readyQueue.isEmpty && s.scheduled.isEmpty && s.epoll.isStop && decide (s.coroWaits.keys = ∅)

inductive Label (κ : Type*) where
  | callSoon (handle : ℕ) (cb : κ)
  | callAt (time : ℤ) (handle : ℕ) (cb : κ)
  | addReader (fd : ℤ) (handle : ℕ) (cb : κ) (ctl : CtlOp → Bool)
  | addWriter (fd : ℤ) (handle : ℕ) (cb : κ) (ctl : CtlOp → Bool)
  | cancelWait (waitId : ℕ)
  | cancel (handle : ℕ)
  | epollEvent (events : List Epoll.Report)
  | expiredTimeout (now : ℤ)
  | executeReady
  | stop

def step (s : Eventloop κ) : Label κ → Eventloop κ
  | .callSoon handle cb => (s.callSoon handle cb).2
  | .callAt time handle cb => (s.callAt H time handle cb).2
  | .addReader fd handle cb ctl => (s.addReader fd handle cb ctl).2
  | .addWriter fd handle cb ctl => (s.addWriter fd handle cb ctl).2
  | .cancelWait waitId => s.cancelWait H waitId
  | .cancel handle => s.cancel H handle
  | .epollEvent events => s.processEpollEvent events
  | .expiredTimeout now => s.processExpiredTimeout H now
  | .executeReady => s.executeReady.2
  | .stop => { s with stopped := true }

/-! ## What holds in every state -/

/-- the id has a callback -/
def Pending (s : Eventloop κ) (waitId : ℕ) : Prop := ∃ cb, s.waitCallback.lookup waitId = some cb

structure Inv (s : Eventloop κ) : Prop where
  tight : Tight s.coroWaits
  held : ∀ handle waitId, Holds s.coroWaits handle waitId → waitId < s.nextWaitId
  owner : ∀ handle handle' waitId, Holds s.coroWaits handle waitId → Holds s.coroWaits handle' waitId → handle = handle'
  /-- every callback is held under its owner -/
  callback : ∀ waitId cb, s.waitCallback.lookup waitId = some cb →
    cb.waitId = waitId ∧ Holds s.coroWaits cb.coroId waitId
  ready : ∀ waitId ∈ s.readyQueue, waitId < s.nextWaitId
  scheduled : ∀ e ∈ s.scheduled, s.Pending e.1 ∧ e.1 ∉ s.readyQueue
  times : (s.scheduled.map Prod.fst).Nodup
  /-- no timer waits for an fd -/
  apart : ∀ e ∈ s.scheduled, ∀ d fd, (s.epoll.event fd).waiter d ≠ 0 → (s.epoll.event fd).waiter d ≠ e.1
  single : s.epoll.Single
  below : s.epoll.Below s.nextWaitId

variable {H} {s : Eventloop κ} {handle waitId : ℕ} {cb : κ}

theorem Inv.pending_lt (h : Inv s) (hp : s.Pending waitId) : waitId < s.nextWaitId := by
  obtain ⟨cb, hcb⟩ := hp
  exact h.held _ _ (h.callback waitId cb hcb).2

theorem Inv.not_held (h : Inv s) (handle : ℕ) : ¬ Holds s.coroWaits handle s.nextWaitId :=
  fun hh => absurd (h.held _ _ hh) (lt_irrefl _)

theorem make_inv : Inv (make : Eventloop κ) where
  tight := empty_tight
  held := fun handle waitId hh => absurd hh not_holds_empty
  owner := fun handle handle' waitId hh => absurd hh not_holds_empty
  callback := fun waitId cb hcb => absurd hcb lookup_empty_ne
  ready := fun waitId hmem => by cases hmem
  scheduled := fun e he => by cases he
  times := List.nodup_nil
  apart := fun e he => by cases he
  single := Epoll.make_single
  below := Epoll.make_below

/-! ### Registrations -/

theorem enlist_lookup : (s.enlist handle cb).waitCallback.lookup waitId =
    if waitId = s.nextWaitId then some ⟨handle, s.nextWaitId, cb⟩ else s.waitCallback.lookup waitId :=
  lookup_insert_ite

theorem enlist_holds {handle' : ℕ} : Holds (s.enlist handle cb).coroWaits handle' waitId ↔
    Holds s.coroWaits handle' waitId ∨ handle' = handle ∧ waitId = s.nextWaitId :=
  holds_put

theorem enlist_pending : (s.enlist handle cb).Pending waitId ↔ s.Pending waitId ∨ waitId = s.nextWaitId := by
  unfold Pending
  rw [enlist_lookup]
  split_ifs with h <;> simp [h]

theorem enlist_inv (h : Inv s) (handle : ℕ) (cb : κ) : Inv (s.enlist handle cb) where
  tight := put_tight h.tight
  held := by
    intro handle' waitId hh
    rcases enlist_holds.1 hh with hh | ⟨-, rfl⟩
    · exact Nat.lt_succ_of_lt (h.held _ _ hh)
    · exact Nat.lt_succ_self _
  owner := by
    intro handle1 handle2 waitId h1 h2
    rw [enlist_holds] at h1 h2
    rcases h1 with h1 | ⟨rfl, rfl⟩
    · rcases h2 with h2 | ⟨rfl, rfl⟩
      · exact h.owner _ _ _ h1 h2
      · exact absurd h1 (h.not_held _)
    · rcases h2 with h2 | ⟨rfl, -⟩
      · exact absurd h2 (h.not_held _)
      · rfl
  callback := by
    intro waitId cb' hcb
    rw [enlist_lookup] at hcb
    rw [enlist_holds]
    split_ifs at hcb with he
    · obtain rfl := Option.some.inj hcb
      exact ⟨he.symm, .inr ⟨rfl, he⟩⟩
    · obtain ⟨hid, hh⟩ := h.callback _ _ hcb
      exact ⟨hid, .inl hh⟩
  ready := fun waitId hmem => Nat.lt_succ_of_lt (h.ready waitId hmem)
  scheduled := fun e he => ⟨enlist_pending.2 (.inl (h.scheduled e he).1), (h.scheduled e he).2⟩
  times := h.times
  apart := h.apart
  single := h.single
  below := h.below.mono (Nat.le_succ _)

theorem callSoon_inv (h : Inv s) (handle : ℕ) (cb : κ) : Inv (s.callSoon handle cb).2 := by
  have he := enlist_inv h handle cb
  refine ⟨he.tight, he.held, he.owner, he.callback, ?_, ?_, he.times, he.apart, he.single, he.below⟩
  · intro waitId hmem
    rcases List.mem_append.1 hmem with hmem | hmem
    · exact he.ready waitId hmem
    · obtain rfl := List.mem_singleton.1 hmem
      exact Nat.lt_succ_self _
  · intro e hmem
    obtain ⟨hp, hready⟩ := h.scheduled e hmem
    refine ⟨(he.scheduled e hmem).1, ?_⟩
    intro hmem'
    rcases List.mem_append.1 hmem' with hmem' | hmem'
    · exact hready hmem'
    · exact absurd (List.mem_singleton.1 hmem') (Nat.ne_of_lt (h.pending_lt hp))

theorem callAt_inv (h : Inv s) (time : ℤ) (handle : ℕ) (cb : κ) : Inv (s.callAt H time handle cb).2 := by
  have he := enlist_inv h handle cb
  have hperm := H.push_perm (s.scheduled ++ [(s.nextWaitId, time)])
  have hmem : ∀ e ∈ H.pushHeap (s.scheduled ++ [(s.nextWaitId, time)]), e ∈ s.scheduled ∨ e = (s.nextWaitId, time) := by
    intro e hmem
    rcases List.mem_append.1 (hperm.mem_iff.1 hmem) with hmem | hmem
    · exact .inl hmem
    · exact .inr (List.mem_singleton.1 hmem)
  refine ⟨he.tight, he.held, he.owner, he.callback, he.ready, ?_, ?_, ?_, he.single, he.below⟩
  · intro e hmem'
    rcases hmem e hmem' with hold | rfl
    · exact he.scheduled e hold
    · refine ⟨enlist_pending.2 (.inr rfl), ?_⟩
      exact fun hready => absurd (h.ready _ hready) (lt_irrefl _)
  · apply (hperm.map Prod.fst).nodup_iff.2
    rw [List.map_append, List.nodup_append]
    refine ⟨h.times, List.nodup_singleton _, ?_⟩
    intro a ha b hb
    obtain ⟨e, hmem', rfl⟩ := List.mem_map.1 ha
    obtain rfl := List.mem_singleton.1 hb
    exact Nat.ne_of_lt (h.pending_lt (h.scheduled e hmem').1)
  · intro e hmem' d fd hne
    rcases hmem e hmem' with hold | rfl
    · exact he.apart e hold d fd hne
    · exact Nat.ne_of_lt (h.below d fd hne)

/-- an id that has not been given waits for nothing -/
theorem Inv.fresh_waiter (h : Inv s) (hne : s.nextWaitId ≠ 0) (d : Dir) (fd : ℤ) :
    (s.epoll.event fd).waiter d ≠ s.nextWaitId := by
  intro he
  exact absurd (h.below d fd (by rwa [he])) (by rw [he]; exact lt_irrefl _)

theorem add_single_fresh (h : Inv s) (d : Dir) (fd : ℤ) (ctl : CtlOp → Bool) :
    Epoll.Single (s.epoll.add d fd s.nextWaitId ctl).2 := by
  by_cases hz : s.nextWaitId = 0
  · -- the first id of all is 0, and an event with the waiter 0 has none
    intro d1 fd1 d2 fd2 hne heq
    have hold : ∀ d fd, (s.epoll.event fd).waiter d = 0 := fun d fd => by
      by_contra hn
      exact absurd (h.below d fd hn) (by rw [hz]; exact Nat.not_lt_zero _)
    rcases @Epoll.add_waiter s.epoll d d1 fd fd1 s.nextWaitId ctl with h1 | h1 | ⟨-, -, h1⟩
    · exact absurd h1 hne
    · exact absurd (h1.trans (hold d1 fd1)) hne
    · exact absurd (h1.trans hz) hne
  · exact Epoll.add_single h.single (h.fresh_waiter hz)

theorem addWaiter_lookup {d : Dir} {fd : ℤ} {ctl : CtlOp → Bool} {cb' : WaitCallback κ}
    (hcb : (s.addWaiter d fd handle cb ctl).2.waitCallback.lookup waitId = some cb') :
    (s.enlist handle cb).waitCallback.lookup waitId = some cb' := by
  unfold addWaiter at hcb
  dsimp only at hcb
  split_ifs at hcb
  · exact hcb
  · dsimp only at hcb
    rw [lookup_erase_ite] at hcb
    split_ifs at hcb
    exact hcb

theorem addWaiter_inv (h : Inv s) (d : Dir) (fd : ℤ) (handle : ℕ) (cb : κ) (ctl : CtlOp → Bool) :
    Inv (s.addWaiter d fd handle cb ctl).2 := by
  have he := enlist_inv h handle cb
  have hsingle := add_single_fresh h d fd ctl
  have hbelow : Epoll.Below (s.nextWaitId + 1) (s.epoll.add d fd s.nextWaitId ctl).2 :=
    Epoll.add_below (h.below.mono (Nat.le_succ _)) (Nat.lt_succ_self _)
  have hapart : ∀ e ∈ s.scheduled, ∀ d' fd', ((s.epoll.add d fd s.nextWaitId ctl).2.event fd').waiter d' ≠ 0 →
      ((s.epoll.add d fd s.nextWaitId ctl).2.event fd').waiter d' ≠ e.1 := by
    intro e hmem d' fd' hne
    rcases @Epoll.add_waiter s.epoll d d' fd fd' s.nextWaitId ctl with h1 | h1 | ⟨-, -, h1⟩
    · exact absurd h1 hne
    · rw [h1] at hne ⊢
      exact h.apart e hmem d' fd' hne
    · rw [h1]
      exact Nat.ne_of_gt (h.pending_lt (h.scheduled e hmem).1)
  unfold addWaiter
  dsimp only
  split_ifs with hok
  · exact ⟨he.tight, he.held, he.owner, he.callback, he.ready, he.scheduled, he.times, hapart, hsingle, hbelow⟩
  · refine ⟨take_tight he.tight, ?_, ?_, ?_, he.ready, ?_, he.times, hapart, hsingle, hbelow⟩
    · exact fun handle' waitId hh => he.held _ _ (holds_take.1 hh).1
    · exact fun handle1 handle2 waitId h1 h2 => he.owner _ _ _ (holds_take.1 h1).1 (holds_take.1 h2).1
    · intro waitId cb' hcb
      dsimp only at hcb
      rw [lookup_erase_ite] at hcb
      split_ifs at hcb with hid
      obtain ⟨hid', hh⟩ := he.callback _ _ hcb
      exact ⟨hid', holds_take.2 ⟨hh, fun hc => hid hc.2⟩⟩
    · intro e hmem
      obtain ⟨⟨cb', hcb⟩, hready⟩ := he.scheduled e hmem
      have hne : e.1 ≠ s.nextWaitId := Nat.ne_of_lt (h.pending_lt (h.scheduled e hmem).1)
      exact ⟨⟨cb', by rw [← hcb]; exact Finmap.lookup_erase_ne hne⟩, hready⟩

/-! ### Cancellations -/

theorem eraseP_eq_filter {v : List (ℕ × ℤ)} (hv : (v.map Prod.fst).Nodup) :
    v.eraseP (·.1 == waitId) = v.filter (·.1 ≠ waitId) := by
  induction v with
  | nil => rfl
  | cons a v ih =>
    rw [List.map_cons, List.nodup_cons] at hv
    by_cases ha : a.1 = waitId
    · have hall : v.filter (·.1 ≠ waitId) = v := by
        rw [List.filter_eq_self]
        intro b hb
        have hne : b.1 ≠ waitId := fun hb' => hv.1 (ha ▸ hb' ▸ List.mem_map_of_mem hb)
        simpa using hne
      rw [List.eraseP_cons_of_pos (by simpa using ha), List.filter_cons_of_neg (by simpa using ha), hall]
    · rw [List.eraseP_cons_of_neg (by simpa using ha), List.filter_cons_of_pos (by simpa using ha), ih hv.2]

theorem unschedule_perm {v : List (ℕ × ℤ)} (hv : (v.map Prod.fst).Nodup) :
    (unschedule H waitId v).Perm (v.filter (·.1 ≠ waitId)) := by
  rw [← eraseP_eq_filter hv]
  unfold unschedule
  split_ifs with hany
  · exact H.make_perm _
  · rw [List.eraseP_of_forall_not fun e he hid => hany (List.any_eq_true.2 ⟨e, he, hid⟩)]

theorem mem_unschedule {v : List (ℕ × ℤ)} (hv : (v.map Prod.fst).Nodup) {e : ℕ × ℤ} :
    e ∈ unschedule H waitId v ↔ e ∈ v ∧ e.1 ≠ waitId := by
  rw [(unschedule_perm hv).mem_iff, List.mem_filter]
  simp

theorem unschedule_nodup {v : List (ℕ × ℤ)} (hv : (v.map Prod.fst).Nodup) :
    ((unschedule H waitId v).map Prod.fst).Nodup := by
  unfold unschedule
  split_ifs
  · exact ((H.make_perm _).map Prod.fst).nodup_iff.2 (hv.sublist (List.eraseP_sublist.map Prod.fst))
  · exact hv

theorem cancelWait_lookup {waitId' : ℕ} : (s.cancelWait H waitId).waitCallback.lookup waitId' =
    if waitId' = waitId then none else s.waitCallback.lookup waitId' :=
  lookup_erase_ite

theorem cancelWait_inv (h : Inv s) (waitId : ℕ) : Inv (s.cancelWait H waitId) where
  tight := h.tight
  held := h.held
  owner := h.owner
  callback := by
    intro waitId' cb hcb
    rw [cancelWait_lookup] at hcb
    split_ifs at hcb
    exact h.callback waitId' cb hcb
  ready := h.ready
  scheduled := by
    intro e hmem
    obtain ⟨hmem, hne⟩ := (mem_unschedule h.times).1 hmem
    obtain ⟨⟨cb, hcb⟩, hready⟩ := h.scheduled e hmem
    exact ⟨⟨cb, by rw [cancelWait_lookup, if_neg hne, hcb]⟩, hready⟩
  times := unschedule_nodup h.times
  apart := by
    intro e hmem d fd hne
    rcases @Epoll.cancelWait_waiter s.epoll waitId d fd with h0 | hold
    · exact absurd h0 hne
    · have hne' : (s.epoll.event fd).waiter d ≠ 0 := fun hz => hne (hold.trans hz)
      exact fun he => h.apart e ((mem_unschedule h.times).1 hmem).1 d fd hne' (hold.symm.trans he)
  single := Epoll.cancelWait_single h.single
  below := Epoll.cancelWait_below h.below

theorem cancelWaits_inv (h : Inv s) (waits : List ℕ) : Inv (s.cancelWaits H waits) := by
  induction waits generalizing s with
  | nil => exact h
  | cons waitId waits ih => exact ih (cancelWait_inv h waitId)

theorem cancelWaits_lookup {waits : List ℕ} {waitId' : ℕ} : (s.cancelWaits H waits).waitCallback.lookup waitId' =
    if waitId' ∈ waits then none else s.waitCallback.lookup waitId' := by
  induction waits generalizing s with
  | nil => rfl
  | cons waitId waits ih =>
    have hstep : s.cancelWaits H (waitId :: waits) = (s.cancelWait H waitId).cancelWaits H waits := rfl
    rw [hstep, ih, cancelWait_lookup]
    by_cases hw : waitId' ∈ waits
    · simp [hw]
    · by_cases he : waitId' = waitId <;> simp [hw, he]

/-- cancelling touches neither the owners nor the ready queue -/
theorem cancelWaits_rest (waits : List ℕ) : (s.cancelWaits H waits).coroWaits = s.coroWaits ∧
    (s.cancelWaits H waits).readyQueue = s.readyQueue ∧ (s.cancelWaits H waits).nextWaitId = s.nextWaitId := by
  induction waits generalizing s with
  | nil => exact ⟨rfl, rfl, rfl⟩
  | cons waitId waits ih => exact ih (s := s.cancelWait H waitId)

/-- what cancel does: the callbacks of the owner go, and the owner -/
theorem cancel_lookup : (s.cancel H handle).waitCallback.lookup waitId = none ∧
      Holds s.coroWaits handle waitId ∨
    (s.cancel H handle).waitCallback.lookup waitId = s.waitCallback.lookup waitId ∧
      ¬ Holds s.coroWaits handle waitId := by
  unfold cancel Holds
  cases hl : s.coroWaits.lookup handle with
  | none => exact .inr ⟨rfl, by simp⟩
  | some waits =>
    dsimp only
    rw [cancelWaits_lookup]
    by_cases hw : waitId ∈ waits
    · exact .inl ⟨if_pos hw, waits, rfl, hw⟩
    · exact .inr ⟨if_neg hw, by simpa using hw⟩

theorem cancel_holds {handle' : ℕ} :
    Holds (s.cancel H handle).coroWaits handle' waitId ↔ Holds s.coroWaits handle' waitId ∧ handle' ≠ handle := by
  unfold cancel
  cases hl : s.coroWaits.lookup handle with
  | none =>
    refine ⟨fun hh => ⟨hh, ?_⟩, fun hh => hh.1⟩
    rintro rfl
    obtain ⟨l, hl', -⟩ := hh
    cases hl.symm.trans hl'
  | some waits =>
    dsimp only
    rw [(cancelWaits_rest waits).1]
    exact holds_erase

theorem cancel_inv (h : Inv s) (handle : ℕ) : Inv (s.cancel H handle) := by
  have hc : ∀ waitId cb, (s.cancel H handle).waitCallback.lookup waitId = some cb →
      cb.waitId = waitId ∧ Holds (s.cancel H handle).coroWaits cb.coroId waitId := by
    intro waitId cb hcb
    rcases @cancel_lookup κ H s handle waitId with ⟨hn, -⟩ | ⟨hl, hn⟩
    · cases hn.symm.trans hcb
    · obtain ⟨hid, hh⟩ := h.callback waitId cb (hl.symm.trans hcb)
      exact ⟨hid, cancel_holds.2 ⟨hh, fun he => hn (he ▸ hh)⟩⟩
  unfold cancel at hc ⊢
  cases hl : s.coroWaits.lookup handle with
  | none => exact h
  | some waits =>
    simp only [hl] at hc
    have ht := @cancelWaits_inv κ H s h waits
    refine ⟨erase_tight ht.tight, ?_, ?_, hc, ht.ready, ht.scheduled, ht.times, ht.apart, ht.single, ht.below⟩
    · exact fun handle' waitId hh => ht.held _ _ (holds_erase.1 hh).1
    · exact fun handle1 handle2 waitId h1 h2 => ht.owner _ _ _ (holds_erase.1 h1).1 (holds_erase.1 h2).1

/-! ### What a cancellation keeps -/

/-- the wait `i` is as before -/
structure Keeps (s t : Eventloop κ) (i : ℕ) : Prop where
  callback : t.waitCallback.lookup i = s.waitCallback.lookup i
  linked : ∀ d fd, s.epoll.Linked d fd i → t.epoll.Linked d fd i

/-- no callback is new, and the ready queue is as before -/
structure Less (s t : Eventloop κ) : Prop where
  callback : ∀ waitId cb, t.waitCallback.lookup waitId = some cb → s.waitCallback.lookup waitId = some cb
  ready : t.readyQueue = s.readyQueue

variable {t u : Eventloop κ} {i : ℕ}

theorem Keeps.refl : Keeps t t i := ⟨rfl, fun _ _ h => h⟩

theorem Keeps.trans (h1 : Keeps s t i) (h2 : Keeps t u i) : Keeps s u i :=
  ⟨h2.callback.trans h1.callback, fun d fd h => h2.linked d fd (h1.linked d fd h)⟩

theorem Less.refl : Less t t := ⟨fun _ _ h => h, rfl⟩

theorem Less.trans (h1 : Less s t) (h2 : Less t u) : Less s u :=
  ⟨fun waitId cb h => h1.callback waitId cb (h2.callback waitId cb h), h2.ready.trans h1.ready⟩

theorem cancelWait_keeps (h : i ≠ waitId) : Keeps t (t.cancelWait H waitId) i where
  callback := by rw [cancelWait_lookup, if_neg h]
  linked := fun _ _ hl => Epoll.cancelWait_linked hl h

theorem cancelWaits_keeps {waits : List ℕ} (h : i ∉ waits) : Keeps t (t.cancelWaits H waits) i := by
  induction waits generalizing t with
  | nil => exact Keeps.refl
  | cons waitId waits ih =>
    rw [List.mem_cons, not_or] at h
    exact (cancelWait_keeps h.1).trans (ih h.2)

theorem cancel_keeps (h : ¬ Holds t.coroWaits handle i) : Keeps t (t.cancel H handle) i := by
  unfold cancel
  cases hl : t.coroWaits.lookup handle with
  | none => exact Keeps.refl
  | some waits =>
    have hi : i ∉ waits := fun hi => h ⟨waits, hl, hi⟩
    have hk : Keeps t (t.cancelWaits H waits) i := cancelWaits_keeps hi
    exact ⟨hk.callback, hk.linked⟩

theorem cancelWait_less (waitId : ℕ) : Less t (t.cancelWait H waitId) := by
  refine ⟨?_, rfl⟩
  intro waitId' cb hcb
  rw [cancelWait_lookup] at hcb
  split_ifs at hcb
  exact hcb

theorem cancel_less (handle : ℕ) : Less t (t.cancel H handle) := by
  refine ⟨?_, ?_⟩
  · intro waitId cb hcb
    rcases @cancel_lookup κ H t handle waitId with ⟨hl, -⟩ | ⟨hl, -⟩
    · cases hl.symm.trans hcb
    · exact hl.symm.trans hcb
  · unfold cancel
    cases t.coroWaits.lookup handle with
    | none => rfl
    | some waits => exact (cancelWaits_rest waits).2.1

/-- behind cancel the owner has no callback -/
theorem cancel_none (h : Inv t) {cb : WaitCallback κ} (hcb : (t.cancel H handle).waitCallback.lookup waitId = some cb) :
    cb.coroId ≠ handle := by
  rintro rfl
  have hheld := (h.callback waitId cb ((cancel_less cb.coroId).callback waitId cb hcb)).2
  rcases @cancel_lookup κ H t cb.coroId waitId with ⟨hn, -⟩ | ⟨-, hn⟩
  · cases hn.symm.trans hcb
  · exact hn hheld

/-! ### Readiness and execution -/

theorem epollEvent_inv (h : Inv s) (events : List Epoll.Report) : Inv (s.processEpollEvent events) := by
  have hwoken : ∀ waitId ∈ events.flatMap s.epoll.woken,
      waitId ≠ 0 ∧ ∃ d fd, (s.epoll.event fd).waiter d = waitId := by
    intro waitId hmem
    obtain ⟨r, -, hr⟩ := List.mem_flatMap.1 hmem
    obtain ⟨h0, d, hd⟩ := Epoll.mem_woken hr
    exact ⟨h0, d, r.fd, hd⟩
  refine ⟨h.tight, h.held, h.owner, h.callback, ?_, ?_, h.times, h.apart, h.single, h.below⟩
  · intro waitId hmem
    rcases List.mem_append.1 hmem with hmem | hmem
    · exact h.ready waitId hmem
    · obtain ⟨h0, d, fd, rfl⟩ := hwoken waitId hmem
      exact h.below d fd h0
  · intro e hmem
    obtain ⟨hp, hready⟩ := h.scheduled e hmem
    refine ⟨hp, ?_⟩
    intro hmem'
    rcases List.mem_append.1 hmem' with hmem' | hmem'
    · exact hready hmem'
    · obtain ⟨h0, d, fd, hd⟩ := hwoken _ hmem'
      exact h.apart e hmem d fd (by rwa [hd]) hd

/-- one round of process_expired_timeout -/
theorem expireRound_inv (h : Inv s) {e : ℕ × ℤ} {v : List (ℕ × ℤ)} (hs : s.scheduled = e :: v) :
    Inv { s with scheduled := (H.popHeap (e :: v)).dropLast, readyQueue := s.readyQueue ++ [e.1] } := by
  obtain ⟨v', hpop, hperm⟩ := H.pop_perm e v
  rw [hpop, List.dropLast_concat]
  have htimes := h.times
  rw [hs, List.map_cons, List.nodup_cons] at htimes
  have hmem : ∀ e' ∈ v', e' ∈ s.scheduled := by
    intro e' he'
    rw [hs]
    exact List.mem_cons_of_mem e (hperm.mem_iff.1 he')
  refine ⟨h.tight, h.held, h.owner, h.callback, ?_, ?_, ?_, ?_, h.single, h.below⟩
  · intro waitId hready
    rcases List.mem_append.1 hready with hready | hready
    · exact h.ready waitId hready
    · obtain rfl := List.mem_singleton.1 hready
      exact h.pending_lt (h.scheduled e (by rw [hs]; exact List.mem_cons_self)).1
  · intro e' he'
    obtain ⟨hp, hready⟩ := h.scheduled e' (hmem e' he')
    refine ⟨hp, ?_⟩
    intro hready'
    rcases List.mem_append.1 hready' with hready' | hready'
    · exact hready hready'
    · rw [← List.mem_singleton.1 hready'] at htimes
      exact htimes.1 (List.mem_map_of_mem (hperm.mem_iff.1 he'))
  · exact (hperm.map Prod.fst).nodup_iff.2 htimes.2
  · exact fun e' he' => h.apart e' (hmem e' he')

theorem expire_inv (h : Inv s) (now : ℤ) (n : ℕ) : Inv (s.expire H now n) := by
  induction n generalizing s with
  | zero => exact h
  | succ n ih =>
    unfold expire
    cases hs : s.scheduled with
    | nil => exact h
    | cons e v =>
      dsimp only
      split_ifs
      · exact ih (expireRound_inv h hs)
      · exact h

/-- timers that expire become ready; nothing else changes -/
theorem expire_rest (now : ℤ) (n : ℕ) : (s.expire H now n).coroWaits = s.coroWaits ∧
    (s.expire H now n).waitCallback = s.waitCallback ∧ (s.expire H now n).epoll = s.epoll ∧
    ∀ i ∈ s.readyQueue, i ∈ (s.expire H now n).readyQueue := by
  induction n generalizing s with
  | zero => exact ⟨rfl, rfl, rfl, fun _ hi => hi⟩
  | succ n ih =>
    unfold expire
    cases s.scheduled with
    | nil => exact ⟨rfl, rfl, rfl, fun _ hi => hi⟩
    | cons e v =>
      dsimp only
      split_ifs
      · obtain ⟨hwaits, hcb, hepoll, hready⟩ :=
          ih (s := { s with scheduled := (H.popHeap (e :: v)).dropLast, readyQueue := s.readyQueue ++ [e.1] })
        exact ⟨hwaits, hcb, hepoll, fun i hi => hready i (List.mem_append_left _ hi)⟩
      · exact ⟨rfl, rfl, rfl, fun _ hi => hi⟩

/-- what a round of execute_ready_callback does -/
theorem executeReady_cases (s : Eventloop κ) :
    s.readyQueue = [] ∧ s.executeReady = (none, s) ∨
    (∃ waitId queue, s.readyQueue = waitId :: queue ∧ s.waitCallback.lookup waitId = none ∧
      s.executeReady = (none, { s with readyQueue := queue })) ∨
    ∃ waitId queue cb, s.readyQueue = waitId :: queue ∧ s.waitCallback.lookup waitId = some cb ∧
      s.executeReady = (some cb, { s with
        readyQueue := queue
        waitCallback := s.waitCallback.erase waitId
        coroWaits := take cb.coroId cb.waitId s.coroWaits }) := by
  unfold executeReady
  cases hq : s.readyQueue with
  | nil => exact .inl ⟨rfl, rfl⟩
  | cons waitId queue =>
    cases hcb : s.waitCallback.lookup waitId with
    | none => exact .inr (.inl ⟨waitId, queue, rfl, hcb, by simp only [hcb]⟩)
    | some cb => exact .inr (.inr ⟨waitId, queue, cb, rfl, hcb, by simp only [hcb]⟩)

/-- it leaves the counter, the timers and epoll as they are -/
theorem executeReady_rest (s : Eventloop κ) : s.executeReady.2.nextWaitId = s.nextWaitId ∧
    s.executeReady.2.scheduled = s.scheduled ∧ s.executeReady.2.epoll = s.epoll := by
  rcases executeReady_cases s with ⟨-, he⟩ | ⟨waitId, queue, -, -, he⟩ | ⟨waitId, queue, cb, -, -, he⟩ <;> rw [he] <;>
    exact ⟨rfl, rfl, rfl⟩

theorem executeReady_inv (h : Inv s) : Inv s.executeReady.2 := by
  rcases executeReady_cases s with ⟨-, he⟩ | ⟨waitId, queue, hq, -, he⟩ | ⟨waitId, queue, cb, hq, hcb, he⟩
  · rw [he]
    exact h
  all_goals
    rw [he]
    have hqueue : ∀ i ∈ queue, i ∈ s.readyQueue := fun i hi => by rw [hq]; exact List.mem_cons_of_mem _ hi
  · exact ⟨h.tight, h.held, h.owner, h.callback, fun i hi => h.ready i (hqueue i hi),
      fun e he' => ⟨(h.scheduled e he').1, fun hi => (h.scheduled e he').2 (hqueue _ hi)⟩, h.times, h.apart, h.single,
      h.below⟩
  · obtain ⟨hid, -⟩ := h.callback waitId cb hcb
    refine ⟨take_tight h.tight, fun o i hh => h.held o i (holds_take.1 hh).1,
      fun o o' i h1 h2 => h.owner o o' i (holds_take.1 h1).1 (holds_take.1 h2).1, ?_,
      fun i hi => h.ready i (hqueue i hi), ?_, h.times, h.apart, h.single, h.below⟩
    · intro i cb' hcb'
      dsimp only at hcb'
      rw [lookup_erase_ite] at hcb'
      split_ifs at hcb' with hi
      obtain ⟨hid', hh⟩ := h.callback i cb' hcb'
      exact ⟨hid', holds_take.2 ⟨hh, fun hc => hi (hc.2.trans hid)⟩⟩
    · intro e he'
      obtain ⟨⟨cb', hcb'⟩, hready⟩ := h.scheduled e he'
      have hne : e.1 ≠ waitId := by
        intro heq
        exact hready (by rw [hq, heq]; exact List.mem_cons_self)
      exact ⟨⟨cb', by rw [← hcb']; exact Finmap.lookup_erase_ne hne⟩, fun hi => hready (hqueue _ hi)⟩

/-! ### Where the callbacks come from -/

/-- a round registers nothing -/
theorem executeReady_origin {cb : WaitCallback κ} (hcb : s.executeReady.2.waitCallback.lookup waitId = some cb) :
    s.waitCallback.lookup waitId = some cb := by
  rcases executeReady_cases s with ⟨-, he⟩ | ⟨w, queue, -, -, he⟩ | ⟨w, queue, cb', hq, -, he⟩
  · rwa [he] at hcb
  · rwa [he] at hcb
  · rw [he] at hcb
    dsimp only at hcb
    rw [lookup_erase_ite] at hcb
    split_ifs at hcb
    exact hcb

/-- the callback that a label registers -/
def Label.userCb : Label κ → Option κ
  | .callSoon _ cb | .callAt _ _ cb | .addReader _ _ cb _ | .addWriter _ _ cb _ => some cb
  | .cancelWait _ | .cancel _ | .epollEvent _ | .expiredTimeout _ | .executeReady | .stop => none

theorem enlist_origin {cb' : WaitCallback κ} (hcb : (s.enlist handle cb).waitCallback.lookup waitId = some cb') :
    s.waitCallback.lookup waitId = some cb' ∨ some cb = some cb'.userCb := by
  rw [enlist_lookup] at hcb
  split_ifs at hcb
  · exact .inr (by rw [← Option.some.inj hcb])
  · exact .inl hcb

/-- behind a step the loop has callbacks that it had before, and that of the label -/
theorem step_origin (l : Label κ) {cb : WaitCallback κ} (hcb : (s.step H l).waitCallback.lookup waitId = some cb) :
    s.waitCallback.lookup waitId = some cb ∨ l.userCb = some cb.userCb := by
  cases l with
  | callSoon handle k => exact enlist_origin hcb
  | callAt time handle k => exact enlist_origin hcb
  | addReader fd handle k ctl => exact enlist_origin (addWaiter_lookup hcb)
  | addWriter fd handle k ctl => exact enlist_origin (addWaiter_lookup hcb)
  | cancelWait waitId' => exact .inl ((cancelWait_less waitId').callback waitId cb hcb)
  | cancel handle => exact .inl ((cancel_less handle).callback waitId cb hcb)
  | epollEvent events => exact .inl hcb
  | expiredTimeout now =>
    refine .inl (Eq.trans ?_ hcb)
    exact congrArg (fun m => m.lookup waitId) (expire_rest (H := H) (s := s) now s.scheduled.length).2.1.symm
  | executeReady => exact .inl (executeReady_origin hcb)
  | stop => exact .inl hcb

/-- **One step** -/
theorem step_inv (h : Inv s) (l : Label κ) : Inv (s.step H l) := by
  cases l with
  | callSoon handle cb => exact callSoon_inv h handle cb
  | callAt time handle cb => exact callAt_inv h time handle cb
  | addReader fd handle cb ctl => exact addWaiter_inv h .read fd handle cb ctl
  | addWriter fd handle cb ctl => exact addWaiter_inv h .write fd handle cb ctl
  | cancelWait waitId => exact cancelWait_inv h waitId
  | cancel handle => exact cancel_inv h handle
  | epollEvent events => exact epollEvent_inv h events
  | expiredTimeout now => exact expire_inv h now _
  | executeReady => exact executeReady_inv h
  | stop => exact ⟨h.tight, h.held, h.owner, h.callback, h.ready, h.scheduled, h.times, h.apart, h.single, h.below⟩

/-- **Every run** -/
theorem run_inv (ls : List (Label κ)) : Inv (Machine.run (step H) make ls) :=
  Machine.inv_run_of_step (I := Inv) (fun _ l h => step_inv h l) make_inv _

end Eventloop

end MCoroRpc
