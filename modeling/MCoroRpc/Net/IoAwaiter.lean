/-
Coroutines that wait for an fd (include/net/ioawaiter.hpp), on one event loop with other users.

co_await of a ReadAwaiter or a WriteAwaiter suspends the coroutine whatever add_reader or add_writer has returned. The
awaiter keeps the wait id in an `int` and gives this to cancel_wait when it is destroyed: when its coroutine goes on, or is
cancelled.

Main results:
- `Reachable.ready`: what can be reached is made ready by the next report of its fd.
- `no_lost`: in every run whose steps meet `Sound`, each coroutine that waits and is not ready can be reached by a report.
- `lost`: a registration fails; a second coroutine waits for the same fd.
-/
import MCoroRpc.Core.CInt
import MCoroRpc.Coro.Eventloop

namespace MCoroRpc

open Multimap CInt
open Eventloop (Keeps Less cancelWait_keeps cancelWait_less cancel_keeps cancel_less)

/-- an awaiter that a coroutine is suspended in -/
structure IoAwaiter where
  dir : Dir
  fd : ℤ
  /-- the id that add_reader or add_writer has given to the wait -/
  id : ℕ
  /-- `m_wait_id`, an int -/
  waitId : ℤ
deriving DecidableEq, Repr

/-- an event loop whose callbacks resume a coroutine in an awaiter, or do something else -/
structure IoLoop where
  loop : Eventloop (Option ℕ)
  /-- by the id of the coroutine -/
  suspended : Finmap fun _ : ℕ => IoAwaiter

namespace IoLoop

variable (H : HeapAlgorithms)

def start : IoLoop := ⟨.make, ∅⟩

/-- conversion of an int to uint64_t -/
def toUInt64 (x : ℤ) : ℕ := (x % 18446744073709551616).toNat

/-- co_await in a running coroutine -/
def await (coro : ℕ) (d : Dir) (fd : ℤ) (ctl : CtlOp → Bool) (s : IoLoop) : IoLoop :=
  let r := s.loop.addWaiter d fd coro (some coro) ctl
  ⟨r.2, s.suspended.insert coro ⟨d, fd, s.loop.nextWaitId, toInt r.1⟩⟩

/-- the destructor of the awaiter -/
def drop {κ : Type*} (a : IoAwaiter) (loop : Eventloop κ) : Eventloop κ :=
  if a.waitId ≠ 0 then loop.cancelWait H (toUInt64 a.waitId) else loop

/-- a callback runs; a coroutine that goes on destroys its awaiter -/
def executeReady (s : IoLoop) : IoLoop :=
  let r := s.loop.executeReady
  match r.1 with
  | some ⟨_, _, some coro⟩ =>
    match s.suspended.lookup coro with
    | some a => ⟨drop H a r.2, s.suspended.erase coro⟩
    | none => { s with loop := r.2 }
  | _ => { s with loop := r.2 }

/-- Task::cancel of a coroutine that waits: its awaiter is destroyed, and its promise, which cancels once more -/
def cancelTask (coro : ℕ) (s : IoLoop) : IoLoop :=
  match s.suspended.lookup coro with
  | some a => ⟨(drop H a (s.loop.cancel H coro)).cancel H coro, s.suspended.erase coro⟩
  | none => s

inductive Label where
  | await (coro : ℕ) (d : Dir) (fd : ℤ) (ctl : CtlOp → Bool)
  | executeReady
  | cancelTask (coro : ℕ)
  | callSoon (handle : ℕ)
  | callAt (time : ℤ) (handle : ℕ)
  /-- by another user of the loop -/
  | cancelWait (waitId : ℕ)
  /-- by another user of the loop -/
  | cancel (handle : ℕ)
  | epollEvent (events : List Epoll.Report)
  | expiredTimeout (now : ℤ)
  | stop

/-- a coroutine that waits does nothing -/
def step (s : IoLoop) : Label → IoLoop
  | .await coro d fd ctl => if s.suspended.lookup coro = none then s.await coro d fd ctl else s
  | .executeReady => s.executeReady H
  | .cancelTask coro => s.cancelTask H coro
  | .callSoon handle => { s with loop := s.loop.step H (.callSoon handle none) }
  | .callAt time handle => { s with loop := s.loop.step H (.callAt time handle none) }
  | .cancelWait waitId => { s with loop := s.loop.step H (.cancelWait waitId) }
  | .cancel handle => { s with loop := s.loop.step H (.cancel handle) }
  | .epollEvent events => { s with loop := s.loop.step H (.epollEvent events) }
  | .expiredTimeout now => { s with loop := s.loop.step H (.expiredTimeout now) }
  | .stop => { s with loop := s.loop.step H .stop }

/-- a report of the fd resumes the coroutine -/
structure Reachable (s : IoLoop) (coro : ℕ) (a : IoAwaiter) : Prop where
  callback : ∃ cb, s.loop.waitCallback.lookup a.id = some cb ∧ cb.userCb = some coro
  linked : s.loop.epoll.Linked a.dir a.fd a.id
  /-- the waiter 0 is nobody -/
  named : a.id ≠ 0

/-- every coroutine that waits and is not ready can be reached -/
def NoLost (s : IoLoop) : Prop :=
  ∀ coro a, s.suspended.lookup coro = some a → a.id ∉ s.loop.readyQueue → Reachable s coro a

/-- the destructor of `a` cancels nobody else's wait -/
def DropsOwn (s : IoLoop) (coro : ℕ) (a : IoAwaiter) : Prop :=
  ∀ coro' b, s.suspended.lookup coro' = some b → coro' ≠ coro → a.waitId ≠ 0 → toUInt64 a.waitId ≠ b.id

/-- epoll_ctl accepts what co_await registers, the id is not 0, and no one else waits for the fd in this direction;
cancellations are of one's own waits -/
def Sound (s : IoLoop) : Label → Prop
  | .await coro d fd ctl => s.suspended.lookup coro = none →
      ctl (if (s.loop.epoll.event fd).blank then .add else .mod) = true ∧ s.loop.nextWaitId ≠ 0 ∧
      ∀ coro' b, s.suspended.lookup coro' = some b → b.dir = d → b.fd = fd → b.id ∈ s.loop.readyQueue
  | .executeReady => ∀ waitId cb coro a, s.loop.readyQueue.head? = some waitId →
      s.loop.waitCallback.lookup waitId = some cb → cb.userCb = some coro → s.suspended.lookup coro = some a →
      DropsOwn s coro a
  | .cancelTask coro => ∀ a, s.suspended.lookup coro = some a → DropsOwn s coro a
  | .cancelWait waitId => ∀ coro b, s.suspended.lookup coro = some b → waitId ≠ b.id
  | .cancel handle => s.suspended.lookup handle = none
  | _ => True

/-! ## The invariant -/

structure Inv (s : IoLoop) : Prop where
  loop : s.loop.Inv
  waits : ∀ coro a, s.suspended.lookup coro = some a →
    s.loop.waitCallback.lookup a.id = some ⟨coro, a.id, some coro⟩ ∧ a.id ≠ 0
  /-- a callback that resumes a coroutine is that of its awaiter -/
  resumes : ∀ waitId cb coro, s.loop.waitCallback.lookup waitId = some cb → cb.userCb = some coro →
    ∃ a, s.suspended.lookup coro = some a ∧ a.id = waitId
  links : ∀ coro a, s.suspended.lookup coro = some a → a.id ∉ s.loop.readyQueue →
    s.loop.epoll.Linked a.dir a.fd a.id

variable {H} {s : IoLoop}

theorem Inv.noLost (h : Inv s) : NoLost s := by
  intro coro a ha hready
  obtain ⟨hcb, h0⟩ := h.waits coro a ha
  exact ⟨⟨_, hcb, rfl⟩, h.links coro a ha hready, h0⟩

/-- a report of its fd and direction makes the coroutine ready -/
theorem Reachable.ready {coro : ℕ} {a : IoAwaiter} (h : Reachable s coro a) {events : List Epoll.Report}
    {r : Epoll.Report} (hr : r ∈ events) (hfd : r.fd = a.fd) (hhas : r.has a.dir = true) :
    a.id ∈ (s.loop.processEpollEvent events).readyQueue := by
  apply List.mem_append_right
  exact List.mem_flatMap.2 ⟨r, hr, Epoll.woken_linked h.linked h.named hfd hhas⟩

theorem Inv.inj (h : Inv s) {coro coro' : ℕ} {a b : IoAwaiter} (ha : s.suspended.lookup coro = some a)
    (hb : s.suspended.lookup coro' = some b) (hid : a.id = b.id) : coro = coro' := by
  have h1 := (h.waits coro a ha).1
  rw [hid, (h.waits coro' b hb).1, Option.some.injEq, WaitCallback.mk.injEq] at h1
  exact h1.1.symm

theorem start_inv : Inv start where
  loop := Eventloop.make_inv
  waits := fun _ _ ha => absurd ha lookup_empty_ne
  resumes := fun _ _ _ hcb => absurd hcb lookup_empty_ne
  links := fun _ _ ha => absurd ha lookup_empty_ne

/-! ## What the destructor keeps -/

section Drop

variable {κ : Type*} {t : Eventloop κ} {i : ℕ}

theorem drop_keeps {a : IoAwaiter} (h : a.waitId ≠ 0 → toUInt64 a.waitId ≠ i) : Keeps t (drop H a t) i := by
  unfold drop
  split_ifs with h0
  · exact cancelWait_keeps (h h0).symm
  · exact Keeps.refl

theorem drop_less (a : IoAwaiter) : Less t (drop H a t) := by
  unfold drop
  split_ifs
  · exact cancelWait_less _
  · exact Less.refl

theorem drop_inv (h : t.Inv) (a : IoAwaiter) : (drop H a t).Inv := by
  unfold drop
  split_ifs
  · exact Eventloop.cancelWait_inv h _
  · exact h

end Drop

variable {u : Eventloop (Option ℕ)}

/-- others cancel their own waits -/
theorem less_inv (h : Inv s) (hu : u.Inv) (hless : Less s.loop u)
    (hkeep : ∀ coro a, s.suspended.lookup coro = some a → Keeps s.loop u a.id) : Inv { s with loop := u } where
  loop := hu
  waits := by
    intro coro a ha
    obtain ⟨hcb, h0⟩ := h.waits coro a ha
    exact ⟨(hkeep coro a ha).callback.trans hcb, h0⟩
  resumes := fun waitId cb coro hcb hr => h.resumes waitId cb coro (hless.callback waitId cb hcb) hr
  links := by
    intro coro a ha hready
    dsimp only at hready
    rw [hless.ready] at hready
    exact (hkeep coro a ha).linked _ _ (h.links coro a ha hready)

/-- the coroutine leaves its awaiter -/
theorem leave_inv (h : Inv s) (hu : u.Inv) {coro : ℕ} {a : IoAwaiter} (ha : s.suspended.lookup coro = some a)
    (hless : ∀ waitId cb, u.waitCallback.lookup waitId = some cb → s.loop.waitCallback.lookup waitId = some cb)
    (hgone : u.waitCallback.lookup a.id = none)
    (hothers : ∀ coro' b, s.suspended.lookup coro' = some b → coro' ≠ coro → Keeps s.loop u b.id ∧
      (b.id ∉ u.readyQueue → b.id ∉ s.loop.readyQueue)) : Inv ⟨u, s.suspended.erase coro⟩ where
  loop := hu
  waits := by
    intro coro' b hb
    rw [lookup_erase_ite] at hb
    split_ifs at hb with hne
    obtain ⟨hcb, h0⟩ := h.waits coro' b hb
    exact ⟨(hothers coro' b hb hne).1.callback.trans hcb, h0⟩
  resumes := by
    intro waitId cb coro' hcb hr
    obtain ⟨b, hb, rfl⟩ := h.resumes waitId cb coro' (hless waitId cb hcb) hr
    have hne : coro' ≠ coro := by
      rintro rfl
      obtain rfl : a = b := Option.some.inj (ha.symm.trans hb)
      cases hgone.symm.trans hcb
    exact ⟨b, by rw [← hb]; exact Finmap.lookup_erase_ne hne, rfl⟩
  links := by
    intro coro' b hb hready
    rw [lookup_erase_ite] at hb
    split_ifs at hb with hne
    obtain ⟨hkeep, hq⟩ := hothers coro' b hb hne
    exact hkeep.linked _ _ (h.links coro' b hb (hq hready))

/-! ## One step -/

/-- another user registers a callback -/
theorem enlist_inv (h : Inv s) (handle : ℕ) (hu : u.Inv)
    (hcb : u.waitCallback = (s.loop.enlist handle none).waitCallback) (hepoll : u.epoll = s.loop.epoll)
    (hready : ∀ i ∈ s.loop.readyQueue, i ∈ u.readyQueue) : Inv { s with loop := u } := by
  have hold : ∀ coro a, s.suspended.lookup coro = some a → a.id ≠ s.loop.nextWaitId := by
    intro coro a ha
    exact Nat.ne_of_lt (h.loop.pending_lt ⟨_, (h.waits coro a ha).1⟩)
  refine ⟨hu, ?_, ?_, ?_⟩
  · intro coro a ha
    obtain ⟨hcb', h0⟩ := h.waits coro a ha
    refine ⟨?_, h0⟩
    dsimp only
    rw [hcb, Eventloop.enlist_lookup, if_neg (hold coro a ha)]
    exact hcb'
  · intro waitId cb coro hl hr
    dsimp only at hl
    rw [hcb, Eventloop.enlist_lookup] at hl
    split_ifs at hl
    · rw [← Option.some.inj hl] at hr
      cases hr
    · exact h.resumes waitId cb coro hl hr
  · intro coro a ha hnot
    dsimp only at hnot ⊢
    rw [hepoll]
    exact h.links coro a ha fun hi => hnot (hready _ hi)

/-- callbacks are made ready -/
theorem ready_inv (h : Inv s) (hu : u.Inv) (hcb : u.waitCallback = s.loop.waitCallback) (hepoll : u.epoll = s.loop.epoll)
    (hready : ∀ i ∈ s.loop.readyQueue, i ∈ u.readyQueue) : Inv { s with loop := u } := by
  refine ⟨hu, ?_, ?_, ?_⟩
  · intro coro a ha
    dsimp only
    rw [hcb]
    exact h.waits coro a ha
  · intro waitId cb coro hl hr
    dsimp only at hl
    rw [hcb] at hl
    exact h.resumes waitId cb coro hl hr
  · intro coro a ha hnot
    dsimp only at hnot ⊢
    rw [hepoll]
    exact h.links coro a ha fun hi => hnot (hready _ hi)

theorem await_inv (h : Inv s) {coro : ℕ} {d : Dir} {fd : ℤ} {ctl : CtlOp → Bool}
    (hfree : s.suspended.lookup coro = none) (hs : Sound s (.await coro d fd ctl)) : Inv (s.await coro d fd ctl) := by
  obtain ⟨hctl, h0, hplace⟩ := hs hfree
  have hok : (s.loop.epoll.add d fd s.loop.nextWaitId ctl).1 = true := by
    unfold Epoll.add
    dsimp only
    rw [if_pos hctl]
  have hr : s.loop.addWaiter d fd coro (some coro) ctl = (s.loop.nextWaitId,
      { s.loop.enlist coro (some coro) with epoll := (s.loop.epoll.add d fd s.loop.nextWaitId ctl).2 }) := by
    unfold Eventloop.addWaiter
    dsimp only
    rw [if_pos hok]
  have hinv := Eventloop.addWaiter_inv h.loop d fd coro (some coro) ctl
  unfold await
  rw [hr] at hinv ⊢
  have hold : ∀ coro' b, s.suspended.lookup coro' = some b → b.id ≠ s.loop.nextWaitId := by
    intro coro' b hb
    exact Nat.ne_of_lt (h.loop.pending_lt ⟨_, (h.waits coro' b hb).1⟩)
  refine ⟨hinv, ?_, ?_, ?_⟩
  · intro coro' b hb
    dsimp only at hb ⊢
    rw [lookup_insert_ite] at hb
    rw [Eventloop.enlist_lookup]
    split_ifs at hb with hc
    · obtain rfl := Option.some.inj hb
      rw [if_pos rfl, hc]
      exact ⟨rfl, h0⟩
    · rw [if_neg (hold coro' b hb)]
      exact h.waits coro' b hb
  · intro waitId cb coro' hl hres
    dsimp only at hl ⊢
    rw [Eventloop.enlist_lookup] at hl
    rw [lookup_insert_ite]
    split_ifs at hl with hid
    · obtain rfl := Option.some.inj hl
      obtain rfl : coro = coro' := Option.some.inj hres
      exact ⟨_, if_pos rfl, hid.symm⟩
    · obtain ⟨b, hb, hbid⟩ := h.resumes waitId cb coro' hl hres
      have hne : coro' ≠ coro := by
        rintro rfl
        cases hfree.symm.trans hb
      exact ⟨b, by rw [if_neg hne, hb], hbid⟩
  · intro coro' b hb hready
    dsimp only at hb hready ⊢
    rw [lookup_insert_ite] at hb
    split_ifs at hb with hc
    · obtain rfl := Option.some.inj hb
      exact Epoll.add_links hok
    · apply Epoll.add_linked hok h.loop.single (h.links coro' b hb hready) (h.waits coro' b hb).2 (hold coro' b hb)
      exact fun hp => hready (hplace coro' b hb hp.1 hp.2)

theorem cancelTask_inv (h : Inv s) {coro : ℕ} (hs : Sound s (.cancelTask coro)) : Inv (s.cancelTask H coro) := by
  unfold cancelTask
  cases ha : s.suspended.lookup coro with
  | none => exact h
  | some a =>
    have hown := hs a ha
    have hcancel := Eventloop.cancel_inv (H := H) h.loop coro
    have hdrop := drop_inv (H := H) hcancel a
    apply leave_inv h (Eventloop.cancel_inv hdrop coro) ha
    · exact (((cancel_less coro).trans (drop_less a)).trans (cancel_less coro)).callback
    · -- the first cancel takes the callback of the awaiter
      have hheld := (h.loop.callback a.id _ (h.waits coro a ha).1).2
      cases hl : ((drop H a (s.loop.cancel H coro)).cancel H coro).waitCallback.lookup a.id with
      | none => rfl
      | some cb =>
        have hl' := ((drop_less a).trans (cancel_less coro)).callback a.id cb hl
        rcases @Eventloop.cancel_lookup _ H s.loop coro a.id with ⟨hn, -⟩ | ⟨-, hn⟩
        · cases hn.symm.trans hl'
        · exact absurd hheld hn
    · intro coro' b hb hne
      have hheld := (h.loop.callback b.id _ (h.waits coro' b hb).1).2
      have hnot : ¬ Holds s.loop.coroWaits coro b.id := fun hh => hne (h.loop.owner _ _ _ hheld hh)
      have hnot' : ¬ Holds (drop H a (s.loop.cancel H coro)).coroWaits coro b.id := by
        intro hh
        have hrest : (drop H a (s.loop.cancel H coro)).coroWaits = (s.loop.cancel H coro).coroWaits := by
          unfold drop
          split_ifs <;> rfl
        rw [hrest] at hh
        exact (Eventloop.cancel_holds.1 hh).2 rfl
      refine ⟨((cancel_keeps hnot).trans (drop_keeps (hown coro' b hb hne))).trans (cancel_keeps hnot'), ?_⟩
      rw [(((cancel_less coro).trans (drop_less a)).trans (cancel_less coro)).ready]
      exact id

/-- the front of the ready queue has been taken, and its callback if there was one -/
structure Taken {κ : Type*} (t u : Eventloop κ) (waitId : ℕ) : Prop where
  queue : t.readyQueue = waitId :: u.readyQueue
  lookup : ∀ i, u.waitCallback.lookup i = if i = waitId then none else t.waitCallback.lookup i
  epoll : u.epoll = t.epoll

theorem Taken.not_ready {κ : Type*} {t u : Eventloop κ} {waitId i : ℕ} (ht : Taken t u waitId) (hne : i ≠ waitId)
    (hi : i ∉ u.readyQueue) : i ∉ t.readyQueue := by
  intro hmem
  rw [ht.queue] at hmem
  rcases List.mem_cons.1 hmem with hmem | hmem
  · exact hne hmem
  · exact hi hmem

theorem Taken.less {κ : Type*} {t u : Eventloop κ} {waitId i : ℕ} {cb : WaitCallback κ} (ht : Taken t u waitId)
    (hl : u.waitCallback.lookup i = some cb) : t.waitCallback.lookup i = some cb := by
  rw [ht.lookup] at hl
  split_ifs at hl
  exact hl

theorem Taken.keeps {κ : Type*} {t u : Eventloop κ} {waitId i : ℕ} (ht : Taken t u waitId) (hne : i ≠ waitId) :
    Keeps t u i where
  callback := by rw [ht.lookup, if_neg hne]
  linked := fun d fd hl => by rw [ht.epoll]; exact hl

/-- the callback is nobody's that waits -/
theorem taken_inv (h : Inv s) (hu : u.Inv) {waitId : ℕ} (ht : Taken s.loop u waitId)
    (hne : ∀ coro a, s.suspended.lookup coro = some a → a.id ≠ waitId) : Inv { s with loop := u } where
  loop := hu
  waits := by
    intro coro a ha
    obtain ⟨hl, h0⟩ := h.waits coro a ha
    exact ⟨(ht.keeps (hne coro a ha)).callback.trans hl, h0⟩
  resumes := fun i cb coro hl => h.resumes i cb coro (ht.less hl)
  links := by
    intro coro a ha hi
    exact (ht.keeps (hne coro a ha)).linked _ _ (h.links coro a ha (ht.not_ready (hne coro a ha) hi))

/-- the callback resumes a coroutine, which destroys its awaiter -/
theorem resumed_inv (h : Inv s) (hu : u.Inv) {coro : ℕ} {a : IoAwaiter} (ht : Taken s.loop u a.id)
    (ha : s.suspended.lookup coro = some a) (hown : DropsOwn s coro a) :
    Inv ⟨drop H a u, s.suspended.erase coro⟩ := by
  apply leave_inv h (drop_inv hu a) ha
  · exact fun i cb hl => ht.less ((drop_less a).callback i cb hl)
  · cases hl : (drop H a u).waitCallback.lookup a.id with
    | none => rfl
    | some cb =>
      have hl' := (drop_less a).callback a.id cb hl
      rw [ht.lookup, if_pos rfl] at hl'
      cases hl'
  · intro coro' b hb hne
    have hbid : b.id ≠ a.id := fun hid => hne (h.inj hb ha hid)
    refine ⟨(ht.keeps hbid).trans (drop_keeps (hown coro' b hb hne)), ?_⟩
    rw [(drop_less a).ready]
    exact ht.not_ready hbid

theorem executeReady_inv (h : Inv s) (hs : Sound s .executeReady) : Inv (s.executeReady H) := by
  have hinv := Eventloop.executeReady_inv h.loop
  rcases Eventloop.executeReady_cases s.loop with ⟨-, he⟩ | ⟨waitId, queue, hq, hcb, he⟩ | ⟨waitId, queue, cb, hq, hcb, he⟩
  · simp only [executeReady, he]
    exact h
  · have ht : Taken s.loop s.loop.executeReady.2 waitId := by
      rw [he]
      refine ⟨hq, fun i => ?_, rfl⟩
      split_ifs with hi
      · rw [hi]
        exact hcb
      · rfl
    rw [he] at hinv ht
    simp only [executeReady, he]
    apply taken_inv h hinv ht
    -- the id that is skipped is not that of a coroutine that waits
    rintro coro a ha rfl
    cases hcb.symm.trans (h.waits coro a ha).1
  · have ht : Taken s.loop s.loop.executeReady.2 waitId := by
      rw [he]
      exact ⟨hq, fun i => lookup_erase_ite, rfl⟩
    rw [he] at hinv ht
    obtain ⟨coroId, wid, userCb⟩ := cb
    cases userCb with
    | none =>
      simp only [executeReady, he]
      apply taken_inv h hinv ht
      rintro coro a ha rfl
      cases hcb.symm.trans (h.waits coro a ha).1
    | some coro =>
      obtain ⟨a, ha, rfl⟩ := h.resumes waitId _ coro hcb rfl
      simp only [executeReady, he, ha]
      exact resumed_inv h hinv ht ha (hs a.id _ coro a (by rw [hq]; rfl) hcb rfl ha)

theorem step_inv (h : Inv s) {l : Label} (hs : Sound s l) : Inv (s.step H l) := by
  cases l with
  | await coro d fd ctl =>
    by_cases hfree : s.suspended.lookup coro = none
    · simp only [step, hfree, if_true]
      exact await_inv h hfree hs
    · simp only [step, hfree, if_false]
      exact h
  | executeReady => exact executeReady_inv h hs
  | cancelTask coro => exact cancelTask_inv h hs
  | callSoon handle =>
    exact enlist_inv h handle (Eventloop.callSoon_inv h.loop handle none) rfl rfl fun i hi => List.mem_append_left _ hi
  | callAt time handle => exact enlist_inv h handle (Eventloop.callAt_inv h.loop time handle none) rfl rfl fun i hi => hi
  | cancelWait waitId =>
    exact less_inv h (Eventloop.cancelWait_inv h.loop waitId) (cancelWait_less waitId)
      fun coro a ha => cancelWait_keeps (hs coro a ha).symm
  | cancel handle =>
    refine less_inv h (Eventloop.cancel_inv h.loop handle) (cancel_less handle) fun coro a ha => cancel_keeps ?_
    intro hh
    obtain rfl := h.loop.owner _ _ _ (h.loop.callback a.id _ (h.waits coro a ha).1).2 hh
    have hnone : s.suspended.lookup coro = none := hs
    cases hnone.symm.trans ha
  | epollEvent events =>
    exact ready_inv h (Eventloop.epollEvent_inv h.loop events) rfl rfl fun i hi => List.mem_append_left _ hi
  | expiredTimeout now =>
    obtain ⟨-, hcb, hepoll, hready⟩ := @Eventloop.expire_rest _ H s.loop now s.loop.scheduled.length
    exact ready_inv h (Eventloop.expire_inv h.loop now _) hcb hepoll hready
  | stop => exact ready_inv h (Eventloop.step_inv (H := H) h.loop .stop) rfl rfl fun i hi => hi

/-- **No lost waiter**: in every run in which epoll_ctl accepts what is registered, no wait has the id 0, no two coroutines
wait for the same direction of an fd and cancellations are of one's own waits, each coroutine that waits and is not ready
can be reached -/
theorem no_lost (H : HeapAlgorithms) {ls : List Label} (hs : Machine.Along (step H) Sound start ls) :
    NoLost (Machine.run (step H) start ls) :=
  Inv.noLost (Machine.inv_run (P := Sound) (I := Inv) (fun _ _ hl h => step_inv h hl) hs start_inv)

/-- one coroutine waits to read and another one to write, and the first is woken -/
def duplex : List Label :=
  [.callSoon 9, .await 1 .read 5 fun _ => true, .await 2 .write 5 fun _ => true, .epollEvent [⟨5, true, false⟩]]

theorem no_lost_duplex : NoLost (Machine.run (step sortedHeap) start duplex) := by
  refine no_lost sortedHeap ⟨trivial, ?_, ?_, trivial, trivial⟩
  · refine fun _ => ⟨rfl, by decide, ?_⟩
    intro coro' b hb
    cases hb
  · refine fun _ => ⟨rfl, by decide, ?_⟩
    intro coro' b hb hdir
    have hb' : ((∅ : Finmap fun _ : ℕ => IoAwaiter).insert 1 ⟨.read, 5, 1, toInt (1 : ℕ)⟩).lookup coro' = some b := hb
    rw [lookup_insert_ite, Finmap.lookup_empty] at hb'
    split_ifs at hb'
    rw [← Option.some.inj hb'] at hdir
    cases hdir

/-- a registration fails, and its coroutine stays suspended; two coroutines wait to read from one fd, and no report
reaches the first -/
theorem lost : (¬ NoLost (Machine.run (step sortedHeap) start [.callSoon 9, .await 1 .read 5 fun _ => false])) ∧
    ¬ NoLost (Machine.run (step sortedHeap) start
      [.callSoon 9, .await 1 .read 5 fun _ => true, .await 2 .read 5 fun _ => true]) := by
  constructor
  · intro h
    obtain ⟨cb, hcb, -⟩ := (h 1 ⟨.read, 5, 1, toInt (0 : ℕ)⟩ rfl (by decide)).callback
    cases hcb
  · intro h
    have hback := (h 1 ⟨.read, 5, 1, toInt (1 : ℕ)⟩ rfl (by decide)).linked.back
    cases hback

end IoLoop

end MCoroRpc
