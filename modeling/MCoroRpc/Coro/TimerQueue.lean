/-
The timers of the event loop (src/event_loop.cc: call_at, cancel_wait, cancel, process_expired_timeout).

`Timers` says what the queue is for: the waits that have been registered, less those that were cancelled, by their id or
by their owner, and those that have expired. The loop keeps a vector instead, which the heap algorithms of the standard
library put in order; `HeapAlgorithms.Ordered` is what these promise.

- `expire_moves`: process_expired_timeout moves what is due, the earliest first.
- `step_follows`: every label does to the vector what it does to the waits.

Main result: `timer_queue`.
-/
import MCoroRpc.Core.Heap
import MCoroRpc.Coro.Eventloop

namespace MCoroRpc

open Multimap

/-- the heap algorithms keep heaps, and make_heap makes one of any vector -/
structure HeapAlgorithms.Ordered (H : HeapAlgorithms) : Prop where
  push : ∀ v e, IsHeap Prod.snd v → IsHeap Prod.snd (H.pushHeap (v ++ [e]))
  pop : ∀ e v, IsHeap Prod.snd (e :: v) → IsHeap Prod.snd (H.popHeap (e :: v)).dropLast
  make : ∀ v, IsHeap Prod.snd (H.makeHeap v)

/-- the vector in the order of its times -/
def inOrder (v : List (ℕ × ℤ)) : List (ℕ × ℤ) := v.insertionSort fun a b => a.2 ≤ b.2

theorem inOrder_perm (v : List (ℕ × ℤ)) : (inOrder v).Perm v := List.perm_insertionSort _ v

/-- what is left of a vector is put in order after every operation -/
def orderedHeap : HeapAlgorithms where
  pushHeap := inOrder
  popHeap v := inOrder v.tail ++ v.take 1
  makeHeap := inOrder
  push_perm := inOrder_perm
  pop_perm _ v := ⟨inOrder v, rfl, inOrder_perm v⟩
  make_perm := inOrder_perm

theorem inOrder_heap (v : List (ℕ × ℤ)) : IsHeap Prod.snd (inOrder v) := by
  have htotal : Std.Total fun a b : ℕ × ℤ => a.2 ≤ b.2 := ⟨fun a b => le_total a.2 b.2⟩
  have htrans : IsTrans (ℕ × ℤ) fun a b => a.2 ≤ b.2 := ⟨fun _ _ _ => le_trans⟩
  exact isHeap_of_pairwise (List.pairwise_insertionSort _ v)

theorem orderedHeap_ordered : orderedHeap.Ordered where
  push := fun v e _ => inOrder_heap (v ++ [e])
  pop := by
    intro e v _
    have hpop : (orderedHeap.popHeap (e :: v)).dropLast = inOrder v := List.dropLast_concat
    rw [hpop]
    exact inOrder_heap v
  make := inOrder_heap

/-! ## What the queue is for -/

/-- a wait for a time -/
structure TimedWait where
  waitId : ℕ
  handle : ℕ
  time : ℤ
deriving DecidableEq, Repr

/-- the waits that are registered, not cancelled and not expired -/
structure Timers where
  nextWaitId : ℕ
  waits : List TimedWait

namespace Timers

def make : Timers := ⟨0, []⟩

/-- the waits as the loop stores them -/
def entries (t : Timers) : List (ℕ × ℤ) := t.waits.map fun w => (w.waitId, w.time)

def step {κ : Type*} (t : Timers) : Eventloop.Label κ → Timers
  | .callAt time handle _ => ⟨t.nextWaitId + 1, t.waits ++ [⟨t.nextWaitId, handle, time⟩]⟩
  | .cancelWait waitId => { t with waits := t.waits.filter (·.waitId ≠ waitId) }
  | .cancel handle => { t with waits := t.waits.filter (·.handle ≠ handle) }
  | .expiredTimeout now => { t with waits := t.waits.filter (now < ·.time) }
  | .callSoon .. | .addReader .. | .addWriter .. => { t with nextWaitId := t.nextWaitId + 1 }
  | .epollEvent _ | .executeReady | .stop => t

end Timers

namespace Eventloop

variable {κ : Type*} {H : HeapAlgorithms} {s : Eventloop κ}

/-! ## Expiry -/

/-- from `s` to `s'` the timers that are due at `now` go to the ready queue, each once, the earliest first; the others
stay -/
def Moves (now : ℤ) (s s' : Eventloop κ) : Prop :=
  ∃ due : List (ℕ × ℤ), s'.readyQueue = s.readyQueue ++ due.map Prod.fst ∧
    due.Perm (s.scheduled.filter (·.2 ≤ now)) ∧ due.Pairwise (fun a b => a.2 ≤ b.2) ∧
    s'.scheduled.Perm (s.scheduled.filter (now < ·.2))

theorem expire_moves (hH : H.Ordered) (now : ℤ) {n : ℕ} (hn : s.scheduled.length ≤ n)
    (hheap : IsHeap Prod.snd s.scheduled) :
    Moves now s (s.expire H now n) ∧ IsHeap Prod.snd (s.expire H now n).scheduled := by
  induction n generalizing s with
  | zero =>
    have hnil : s.scheduled = [] := List.length_eq_zero_iff.1 (Nat.le_zero.1 hn)
    refine ⟨⟨[], by simp [expire], ?_, .nil, ?_⟩, hheap⟩
    · rw [hnil, List.filter_nil]
    · unfold expire
      rw [hnil, List.filter_nil]
  | succ n ih =>
    unfold expire
    cases hs : s.scheduled with
    | nil => exact ⟨⟨[], by simp, by simp [hs], .nil, by simp [hs]⟩, by simp only [hs]; exact isHeap_nil⟩
    | cons e v =>
      rw [hs] at hheap hn
      have hfront : ∀ e' ∈ e :: v, e.2 ≤ e'.2 := fun e' he' => hheap.front_le he'
      dsimp only
      split_ifs with hdue
      · obtain ⟨v', hpop, hperm⟩ := H.pop_perm e v
        have hpop' : (H.popHeap (e :: v)).dropLast = v' := by rw [hpop, List.dropLast_concat]
        have hheap' := hH.pop e v hheap
        rw [hpop'] at hheap' ⊢
        have hlen : v'.length ≤ n := by
          rw [hperm.length_eq]
          exact Nat.le_of_succ_le_succ hn
        obtain ⟨⟨due, hready, hmem, hsorted, hrest⟩, hend⟩ :=
          ih (s := { s with scheduled := v', readyQueue := s.readyQueue ++ [e.1] }) hlen hheap'
        refine ⟨⟨e :: due, ?_, ?_, ?_, ?_⟩, hend⟩
        · rw [hready]
          simp
        · rw [hs, List.filter_cons_of_pos (by simpa using hdue)]
          exact (hmem.trans (hperm.filter _)).cons e
        · refine List.pairwise_cons.2 ⟨?_, hsorted⟩
          intro e' he'
          have hin : e' ∈ v' := List.mem_of_mem_filter (hmem.mem_iff.1 he')
          exact hfront e' (List.mem_cons_of_mem e (hperm.mem_iff.1 hin))
        · rw [hs, List.filter_cons_of_neg (by simpa using hdue)]
          exact hrest.trans (hperm.filter _)
      · -- nothing is due: the front is the earliest
        have hlate : ∀ e' ∈ e :: v, now < e'.2 := fun e' he' => lt_of_lt_of_le (not_le.1 hdue) (hfront e' he')
        refine ⟨⟨[], by simp, ?_, .nil, ?_⟩, by rw [hs]; exact hheap⟩
        · rw [hs, List.filter_eq_nil_iff.2 fun e' he' => by simpa using hlate e' he']
        · rw [hs, List.filter_eq_self.2 fun e' he' => by simpa using hlate e' he']

/-! ## The vector and the waits -/

/-- the vector holds the waits, and each has its callback under its owner -/
structure Follows (s : Eventloop κ) (t : Timers) : Prop where
  next : s.nextWaitId = t.nextWaitId
  entries : s.scheduled.Perm t.entries
  owner : ∀ w ∈ t.waits, ∃ cb, s.waitCallback.lookup w.waitId = some cb ∧ cb.coroId = w.handle

variable {t : Timers}

theorem Follows.lt (h : Inv s) (ha : Follows s t) {w : TimedWait} (hw : w ∈ t.waits) : w.waitId < s.nextWaitId := by
  obtain ⟨cb, hcb, -⟩ := ha.owner w hw
  exact h.pending_lt ⟨cb, hcb⟩

/-- a wait of the queue is scheduled -/
theorem Follows.scheduled (ha : Follows s t) {w : TimedWait} (hw : w ∈ t.waits) : (w.waitId, w.time) ∈ s.scheduled :=
  ha.entries.mem_iff.2 (List.mem_map_of_mem hw)

/-- a registration of another kind -/
theorem Follows.enlist (h : Inv s) (ha : Follows s t) (handle : ℕ) (cb : κ) :
    Follows (s.enlist handle cb) { t with nextWaitId := t.nextWaitId + 1 } where
  next := by rw [← ha.next]; rfl
  entries := ha.entries
  owner := by
    intro w hw
    obtain ⟨cb', hcb, howner⟩ := ha.owner w hw
    exact ⟨cb', by rw [enlist_lookup, if_neg (Nat.ne_of_lt (ha.lt h hw)), hcb], howner⟩

theorem callAt_follows (h : Inv s) (ha : Follows s t) (time : ℤ) (handle : ℕ) (cb : κ) :
    Follows (s.callAt H time handle cb).2 (t.step (.callAt time handle cb)) where
  next := (ha.enlist h handle cb).next
  entries := by
    have hentries : (t.step (.callAt time handle cb)).entries = t.entries ++ [(s.nextWaitId, time)] := by
      simp [Timers.step, Timers.entries, ha.next]
    calc (H.pushHeap (s.scheduled ++ [(s.nextWaitId, time)])).Perm _ := H.push_perm _
      List.Perm _ (t.entries ++ [(s.nextWaitId, time)]) := ha.entries.append_right _
      _ = _ := hentries.symm
  owner := by
    intro w hw
    rcases List.mem_append.1 hw with hw | hw
    · exact (ha.enlist h handle cb).owner w hw
    · obtain rfl := List.mem_singleton.1 hw
      exact ⟨⟨handle, s.nextWaitId, cb⟩, by rw [← ha.next]; exact Finmap.lookup_insert _, rfl⟩

/-- a failed registration takes back what it has enlisted -/
theorem addWaiter_follows (h : Inv s) (ha : Follows s t) (d : Dir) (fd : ℤ) (handle : ℕ) (cb : κ)
    (ctl : CtlOp → Bool) : Follows (s.addWaiter d fd handle cb ctl).2 { t with nextWaitId := t.nextWaitId + 1 } := by
  have he := ha.enlist h handle cb
  unfold addWaiter
  dsimp only
  split_ifs
  · exact ⟨he.next, he.entries, he.owner⟩
  · refine ⟨he.next, he.entries, ?_⟩
    intro w hw
    obtain ⟨cb', hcb, howner⟩ := he.owner w hw
    exact ⟨cb', by rw [lookup_erase_ite, if_neg (Nat.ne_of_lt (ha.lt h hw)), hcb], howner⟩

theorem entries_filter (p : ℕ → Prop) [DecidablePred p] :
    t.entries.filter (fun e => p e.1) = Timers.entries { t with waits := t.waits.filter fun w => p w.waitId } := by
  simp only [Timers.entries, List.filter_map]
  rfl

theorem cancelWaits_scheduled (h : Inv s) (waits : List ℕ) :
    (s.cancelWaits H waits).scheduled.Perm (s.scheduled.filter (·.1 ∉ waits)) := by
  induction waits generalizing s with
  | nil => simp [cancelWaits]
  | cons waitId waits ih =>
    have hone : (s.cancelWait H waitId).scheduled.Perm (s.scheduled.filter (·.1 ≠ waitId)) := unschedule_perm h.times
    calc ((s.cancelWait H waitId).cancelWaits H waits).scheduled.Perm
          ((s.cancelWait H waitId).scheduled.filter (·.1 ∉ waits)) := ih (cancelWait_inv h waitId)
      List.Perm _ ((s.scheduled.filter (·.1 ≠ waitId)).filter (·.1 ∉ waits)) := hone.filter _
      _ = s.scheduled.filter (·.1 ∉ waitId :: waits) := by
        rw [List.filter_filter]
        congr 1
        funext e
        simp [Bool.and_comm]

theorem cancelWait_follows (h : Inv s) (ha : Follows s t) (waitId : ℕ) :
    Follows (s.cancelWait H waitId) { t with waits := t.waits.filter (·.waitId ≠ waitId) } where
  next := ha.next
  entries := by
    rw [← entries_filter (· ≠ waitId)]
    exact (unschedule_perm h.times).trans (ha.entries.filter _)
  owner := by
    intro w hw
    obtain ⟨hw, hne⟩ := List.mem_filter.1 hw
    obtain ⟨cb, hcb, howner⟩ := ha.owner w hw
    exact ⟨cb, by rw [cancelWait_lookup, if_neg (by simpa using hne), hcb], howner⟩

/-- a wait of the queue is held under its owner, and under no one else -/
theorem Follows.holds (h : Inv s) (ha : Follows s t) {w : TimedWait} (hw : w ∈ t.waits) {handle : ℕ} :
    Holds s.coroWaits handle w.waitId ↔ w.handle = handle := by
  obtain ⟨cb, hcb, howner⟩ := ha.owner w hw
  rw [← howner]
  have hheld := (h.callback _ _ hcb).2
  constructor
  · exact fun hh => h.owner _ _ _ hheld hh
  · rintro rfl
    exact hheld

theorem cancel_follows (h : Inv s) (ha : Follows s t) (handle : ℕ) :
    Follows (s.cancel H handle) { t with waits := t.waits.filter (·.handle ≠ handle) } := by
  have howner : ∀ w ∈ t.waits.filter (·.handle ≠ handle), ∃ cb,
      (s.cancel H handle).waitCallback.lookup w.waitId = some cb ∧ cb.coroId = w.handle := by
    intro w hw
    obtain ⟨hw, hne⟩ := List.mem_filter.1 hw
    obtain ⟨cb, hcb, howner⟩ := ha.owner w hw
    rcases @cancel_lookup κ H s handle w.waitId with ⟨-, hheld⟩ | ⟨hkept, -⟩
    · exact absurd ((ha.holds h hw).1 hheld) (by simpa using hne)
    · exact ⟨cb, hkept.trans hcb, howner⟩
  have hentries : (s.cancel H handle).nextWaitId = s.nextWaitId ∧
      (s.cancel H handle).scheduled.Perm
        (Timers.entries { t with waits := t.waits.filter (·.handle ≠ handle) }) := by
    unfold cancel
    cases hl : s.coroWaits.lookup handle with
    | none =>
      have hall : t.waits.filter (·.handle ≠ handle) = t.waits := by
        rw [List.filter_eq_self]
        intro w hw
        have hne : w.handle ≠ handle := by
          intro heq
          obtain ⟨l, hl', -⟩ := (ha.holds h hw).2 heq
          cases hl.symm.trans hl'
        simpa using hne
      rw [hall]
      exact ⟨rfl, ha.entries⟩
    | some waits =>
      have hmem : ∀ w ∈ t.waits, (w.waitId ∈ waits ↔ w.handle = handle) := by
        intro w hw
        rw [← ha.holds h hw]
        exact ⟨fun hin => ⟨waits, hl, hin⟩, fun ⟨l, hl', hin⟩ => by rwa [Option.some.inj (hl.symm.trans hl')]⟩
      refine ⟨(cancelWaits_rest waits).2.2, ?_⟩
      have hfilter : t.waits.filter (·.waitId ∉ waits) = t.waits.filter (·.handle ≠ handle) :=
        List.filter_congr fun w hw => by simpa using hmem w hw
      rw [← hfilter, ← entries_filter (· ∉ waits)]
      exact (cancelWaits_scheduled h waits).trans (ha.entries.filter _)
  exact ⟨hentries.1.trans ha.next, hentries.2, howner⟩

theorem expire_next (now : ℤ) (n : ℕ) : (s.expire H now n).nextWaitId = s.nextWaitId := by
  induction n generalizing s with
  | zero => rfl
  | succ n ih =>
    unfold expire
    cases s.scheduled with
    | nil => rfl
    | cons e v =>
      dsimp only
      split_ifs
      · exact ih
      · rfl

theorem expired_follows (hH : H.Ordered) (ha : Follows s t) (hheap : IsHeap Prod.snd s.scheduled) (now : ℤ) :
    Follows (s.processExpiredTimeout H now) { t with waits := t.waits.filter (now < ·.time) } := by
  obtain ⟨⟨due, -, -, -, hrest⟩, -⟩ := expire_moves hH now le_rfl hheap
  refine ⟨(expire_next now _).trans ha.next, ?_, ?_⟩
  · have hfilter : t.entries.filter (now < ·.2) =
        Timers.entries { t with waits := t.waits.filter (now < ·.time) } := by
      simp only [Timers.entries, List.filter_map]
      rfl
    rw [← hfilter]
    exact hrest.trans (ha.entries.filter _)
  · intro w hw
    obtain ⟨cb, hcb, howner⟩ := ha.owner w (List.mem_of_mem_filter hw)
    exact ⟨cb, by rw [← hcb, processExpiredTimeout, (expire_rest now _).2.1], howner⟩

/-- a callback that is executed is none of a timer that still waits -/
theorem executeReady_follows (h : Inv s) (ha : Follows s t) : Follows s.executeReady.2 t := by
  rcases executeReady_cases s with ⟨-, he⟩ | ⟨waitId, queue, hq, -, he⟩ | ⟨waitId, queue, cb, hq, hcb, he⟩
  · rw [he]
    exact ha
  · rw [he]
    exact ⟨ha.next, ha.entries, ha.owner⟩
  · rw [he]
    refine ⟨ha.next, ha.entries, ?_⟩
    intro w hw
    obtain ⟨cb', hcb', howner⟩ := ha.owner w hw
    have hne : w.waitId ≠ waitId := by
      intro heq
      apply (h.scheduled _ (ha.scheduled hw)).2
      rw [hq]
      exact List.mem_cons.2 (.inl heq)
    exact ⟨cb', by rw [lookup_erase_ite, if_neg hne, hcb'], howner⟩

/-! ## Every state -/

theorem unschedule_heap (hH : H.Ordered) {v : List (ℕ × ℤ)} (hheap : IsHeap Prod.snd v) (waitId : ℕ) :
    IsHeap Prod.snd (unschedule H waitId v) := by
  unfold unschedule
  split_ifs
  · exact hH.make _
  · exact hheap

theorem cancelWaits_heap (hH : H.Ordered) (hheap : IsHeap Prod.snd s.scheduled) (waits : List ℕ) :
    IsHeap Prod.snd (s.cancelWaits H waits).scheduled := by
  induction waits generalizing s with
  | nil => exact hheap
  | cons waitId waits ih => exact ih (unschedule_heap hH hheap waitId)

theorem cancel_heap (hH : H.Ordered) (hheap : IsHeap Prod.snd s.scheduled) (handle : ℕ) :
    IsHeap Prod.snd (s.cancel H handle).scheduled := by
  unfold cancel
  cases s.coroWaits.lookup handle with
  | none => exact hheap
  | some waits => exact cancelWaits_heap hH hheap waits

theorem addWaiter_scheduled (d : Dir) (fd : ℤ) (handle : ℕ) (cb : κ) (ctl : CtlOp → Bool) :
    (s.addWaiter d fd handle cb ctl).2.scheduled = s.scheduled := by
  unfold addWaiter
  dsimp only
  split_ifs <;> rfl

/-- **One step**: the vector stays a heap -/
theorem step_heap (hH : H.Ordered) (hheap : IsHeap Prod.snd s.scheduled) (l : Label κ) :
    IsHeap Prod.snd (s.step H l).scheduled := by
  cases l with
  | callSoon handle cb => exact hheap
  | callAt time handle cb => exact hH.push s.scheduled _ hheap
  | addReader fd handle cb ctl => exact (addWaiter_scheduled (s := s) .read fd handle cb ctl) ▸ hheap
  | addWriter fd handle cb ctl => exact (addWaiter_scheduled (s := s) .write fd handle cb ctl) ▸ hheap
  | cancelWait waitId => exact unschedule_heap hH hheap waitId
  | cancel handle => exact cancel_heap hH hheap handle
  | epollEvent events => exact hheap
  | expiredTimeout now => exact (expire_moves hH now le_rfl hheap).2
  | executeReady => exact (executeReady_rest s).2.1 ▸ hheap
  | stop => exact hheap

/-- **One step**: what a label does to the waits it does to the vector -/
theorem step_follows (hH : H.Ordered) (h : Inv s) (hheap : IsHeap Prod.snd s.scheduled) (ha : Follows s t) (l : Label κ) :
    Follows (s.step H l) (t.step l) := by
  cases l with
  | callSoon handle cb =>
    have he := ha.enlist h handle cb
    exact ⟨he.next, he.entries, he.owner⟩
  | callAt time handle cb => exact callAt_follows h ha time handle cb
  | addReader fd handle cb ctl => exact addWaiter_follows h ha .read fd handle cb ctl
  | addWriter fd handle cb ctl => exact addWaiter_follows h ha .write fd handle cb ctl
  | cancelWait waitId => exact cancelWait_follows h ha waitId
  | cancel handle => exact cancel_follows h ha handle
  | epollEvent events => exact ⟨ha.next, ha.entries, ha.owner⟩
  | expiredTimeout now => exact expired_follows hH ha hheap now
  | executeReady => exact executeReady_follows h ha
  | stop => exact ⟨ha.next, ha.entries, ha.owner⟩

theorem make_heap : IsHeap Prod.snd (make : Eventloop κ).scheduled := isHeap_nil

theorem make_follows : Follows (make : Eventloop κ) Timers.make := by
  refine ⟨rfl, .nil, ?_⟩
  intro w hw
  cases hw

/-- **Every run**: the vector is a heap, and holds the waits -/
theorem run_follows (hH : H.Ordered) (ls : List (Label κ)) :
    IsHeap Prod.snd (Machine.run (step H) make ls).scheduled ∧
      Follows (Machine.run (step H) make ls) (Machine.run Timers.step .make ls) := by
  have hrun : ∀ (ls : List (Label κ)) (s : Eventloop κ) (t : Timers), Inv s → IsHeap Prod.snd s.scheduled → Follows s t →
      IsHeap Prod.snd (Machine.run (step H) s ls).scheduled ∧
        Follows (Machine.run (step H) s ls) (Machine.run Timers.step t ls) := by
    intro ls
    induction ls with
    | nil => exact fun s t _ hheap ha => ⟨hheap, ha⟩
    | cons l ls ih =>
      exact fun s t h hheap ha => ih _ _ (step_inv h l) (step_heap hH hheap l) (step_follows hH h hheap ha l)
  exact hrun ls make .make make_inv make_heap make_follows

/-- **The timer queue**: in every state the vector is a heap that holds the waits that are registered, not cancelled and
not expired, each once; and process_expired_timeout moves those that are due, the earliest first, and no other -/
theorem timer_queue (hH : H.Ordered) (ls : List (Label κ)) :
    let s := Machine.run (step H) make ls
    IsHeap Prod.snd s.scheduled ∧ s.scheduled.Perm (Machine.run Timers.step .make ls).entries ∧
      (s.scheduled.map Prod.fst).Nodup ∧ (∀ e ∈ s.scheduled, e.1 ∉ s.readyQueue) ∧
      ∀ now, Moves now s (s.processExpiredTimeout H now) := by
  intro s
  obtain ⟨hheap, ha⟩ := run_follows hH ls
  have h : Inv s := run_inv ls
  exact ⟨hheap, ha.entries, h.times, fun e he => (h.scheduled e he).2, fun now => (expire_moves hH now le_rfl hheap).1⟩

/-- four timers, two of them at one time, and two cancellations -/
def fourTimers : List (Label ℕ) :=
  [.callAt 3 1 0, .callAt 5 2 0, .callAt 5 3 0, .callAt 8 1 0, .cancelWait 1, .cancel 1]

theorem timer_queue_four :
    let s := Machine.run (step orderedHeap) make fourTimers
    s.scheduled = [(2, 5)] ∧ (s.processExpiredTimeout orderedHeap 5).readyQueue = [2] ∧
      IsHeap Prod.snd s.scheduled ∧ s.scheduled.Perm (Machine.run Timers.step .make fourTimers).entries ∧
      (s.scheduled.map Prod.fst).Nodup ∧ (∀ e ∈ s.scheduled, e.1 ∉ s.readyQueue) ∧
      ∀ now, Moves now s (s.processExpiredTimeout orderedHeap now) :=
  ⟨by decide, by decide, timer_queue orderedHeap_ordered fourTimers⟩

end Eventloop

end MCoroRpc
