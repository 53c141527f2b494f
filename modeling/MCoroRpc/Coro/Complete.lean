/-
When run_until_complete returns, and what it leaves undone (src/event_loop.cc).

The loop makes iterations of run_once until is_stop. What happens in an iteration (the clock, what the callbacks do, what
epoll reports) is its label; behind is_stop the labels change nothing, so the loop has returned in a state exactly if
is_stop holds there.

- `runOnce_run`: an iteration is a run of the event loop.
- `stale_iff`: an owner holds an id without a callback exactly if a cancel_wait took the callback away and the owner has
  not been cancelled since.
- `nothing_lost`: when the loop has returned and nobody has called stop, every callback that was ever registered has been
  executed once or cancelled.
- `returns_iff`: with nothing ready, scheduled or watched, the loop returns exactly if no callback is left and every owner
  whose callback was taken by cancel_wait has been cancelled since.
-/
import MCoroRpc.Coro.Bookkeeping
import MCoroRpc.Coro.Discipline
import MCoroRpc.Coro.RunOnce

namespace MCoroRpc.Eventloop

open Multimap

variable {κ : Type*} (H : HeapAlgorithms)

/-! ## Model -/

/-- what happens in one iteration -/
structure Iteration (κ : Type*) where
  now : ℤ
  /-- the rounds of the first execute_ready_callback, and what each callback does -/
  first : List (List (Label κ))
  events : List Epoll.Report
  second : List (List (Label κ))
  later : ℤ

/-- one turn of `while (!is_stop())` -/
def iterate (s : Eventloop κ) (it : Iteration κ) : Eventloop κ :=
  if s.isStop then s else (s.runOnce H it.now it.first it.events it.second it.later).2

def runUntilComplete (s : Eventloop κ) (its : List (Iteration κ)) : Eventloop κ := Machine.run (iterate H) s its

/-- the iteration can take place: each execute_ready_callback goes round until nothing is ready -/
structure Takes (s : Eventloop κ) (it : Iteration κ) : Prop where
  first : Machine.Along (round H) InPass s it.first
  firstEnds : (Machine.run (round H) s it.first).readyQueue = []
  second : Machine.Along (round H) InPass ((Machine.run (round H) s it.first).processEpollEvent it.events) it.second
  secondEnds :
    (Machine.run (round H) ((Machine.run (round H) s it.first).processEpollEvent it.events) it.second).readyQueue = []

/-- the calls of an iteration, one after another -/
def Iteration.labels (it : Iteration κ) : List (Label κ) :=
  it.first.flatMap (.executeReady :: ·) ++ .epollEvent it.events :: it.second.flatMap (.executeReady :: ·) ++
    [.expiredTimeout it.later]

/-- the calls of run_until_complete -/
def calls (s : Eventloop κ) : List (Iteration κ) → List (Label κ)
  | [] => []
  | it :: its => if s.isStop then [] else it.labels ++ calls (s.iterate H it) its

/-- an owner holds an id without a callback -/
def Stale (s : Eventloop κ) (handle waitId : ℕ) : Prop := Holds s.coroWaits handle waitId ∧ ¬ s.Pending waitId

/-- nothing is ready, scheduled or watched, and nobody has called stop -/
structure Quiet (s : Eventloop κ) : Prop where
  ready : s.readyQueue = []
  scheduled : s.scheduled = []
  watched : s.epoll.eventMap = ∅
  running : s.stopped = false

variable {H} {s : Eventloop κ} {handle waitId : ℕ}

/-! ## Iterations are runs -/

theorem rounds_run (s : Eventloop κ) (rounds : List (List (Label κ))) :
    Machine.run (round H) s rounds = Machine.run (step H) s (rounds.flatMap (.executeReady :: ·)) := by
  induction rounds generalizing s with
  | nil => rfl
  | cons calls rounds ih =>
    calc Machine.run (round H) s (calls :: rounds) = Machine.run (round H) (round H s calls) rounds := rfl
      _ = Machine.run (step H) (Machine.run (step H) s (.executeReady :: calls)) _ := ih _
      _ = _ := by rw [← Machine.run_append, ← List.flatMap_cons]

theorem runOnce_run (s : Eventloop κ) (it : Iteration κ) :
    (s.runOnce H it.now it.first it.events it.second it.later).2 = Machine.run (step H) s it.labels := by
  simp only [runOnce, Iteration.labels, Machine.run_append, Machine.run_cons, rounds_run, Machine.run_nil]
  rfl

theorem iterate_of_isStop (h : s.isStop = true) (it : Iteration κ) : s.iterate H it = s := if_pos h

theorem runUntilComplete_of_isStop (h : s.isStop = true) (its : List (Iteration κ)) : s.runUntilComplete H its = s := by
  induction its with
  | nil => rfl
  | cons it its ih =>
    rw [runUntilComplete, Machine.run_cons, iterate_of_isStop h]
    exact ih

theorem runUntilComplete_run (s : Eventloop κ) (its : List (Iteration κ)) :
    s.runUntilComplete H its = Machine.run (step H) s (s.calls H its) := by
  induction its generalizing s with
  | nil => rfl
  | cons it its ih =>
    by_cases h : s.isStop = true
    · rw [runUntilComplete_of_isStop h, calls, if_pos h]
      rfl
    · have hiterate : s.iterate H it = Machine.run (step H) s it.labels := (if_neg h).trans (runOnce_run s it)
      rw [calls, if_neg h, Machine.run_append, ← hiterate, ← ih]
      rfl

/-! ## What is left with its owner -/

/-- how a step changes what is held and what has a callback -/
theorem stale_congr {s' : Eventloop κ} (hholds : Holds s'.coroWaits handle waitId ↔ Holds s.coroWaits handle waitId)
    (hpending : s'.Pending waitId ↔ s.Pending waitId) : Stale s' handle waitId ↔ Stale s handle waitId :=
  and_congr hholds (not_congr hpending)

theorem enlist_stale (h : Inv s) (owner : ℕ) (cb : κ) :
    Stale (s.enlist owner cb) handle waitId ↔ Stale s handle waitId := by
  unfold Stale
  rw [enlist_holds, enlist_pending]
  by_cases hid : waitId = s.nextWaitId
  · subst hid
    simp [h.not_held handle]
  · simp [hid]

/-- a registration that fails takes its id out of both books again -/
theorem addWaiter_stale (h : Inv s) (d : Dir) (fd : ℤ) (owner : ℕ) (cb : κ) (ctl : CtlOp → Bool) :
    Stale (s.addWaiter d fd owner cb ctl).2 handle waitId ↔ Stale s handle waitId := by
  unfold addWaiter
  dsimp only
  split_ifs
  · exact enlist_stale h owner cb
  · rw [← enlist_stale h owner cb]
    unfold Stale Pending
    dsimp only
    rw [holds_take, lookup_erase_ite]
    by_cases hid : waitId = s.nextWaitId
    · -- the new id has a callback in the enlisted loop, and no other owner
      have hpending : ∃ cb', (s.enlist owner cb).waitCallback.lookup waitId = some cb' :=
        enlist_pending.2 (.inr hid)
      have howner : ¬ (Holds (s.enlist owner cb).coroWaits handle waitId ∧ ¬ (handle = owner ∧ waitId = s.nextWaitId)) := by
        rintro ⟨hh, hne⟩
        rcases enlist_holds.1 hh with hh | hnew
        · exact h.not_held handle (hid ▸ hh)
        · exact hne hnew
      exact iff_of_false (fun hl => howner hl.1) fun hr => hr.2 hpending
    · rw [if_neg hid]
      simp [hid]

theorem cancelWait_stale (h : Inv s) (i : ℕ) : Stale (s.cancelWait H i) handle waitId ↔
    Stale s handle waitId ∨ waitId = i ∧ ∃ cb, s.waitCallback.lookup i = some cb ∧ cb.coroId = handle := by
  have hholds : Holds (s.cancelWait H i).coroWaits handle waitId ↔ Holds s.coroWaits handle waitId := Iff.rfl
  unfold Stale Pending
  rw [hholds, cancelWait_lookup]
  split_ifs with hid
  · subst hid
    constructor
    · rintro ⟨hh, -⟩
      cases hcb : s.waitCallback.lookup waitId with
      | none => exact .inl ⟨hh, by simp⟩
      | some cb => exact .inr ⟨rfl, cb, rfl, h.owner _ _ waitId (h.callback waitId cb hcb).2 hh⟩
    · rintro (⟨hh, -⟩ | ⟨-, cb, hcb, rfl⟩)
      · exact ⟨hh, by simp⟩
      · exact ⟨(h.callback waitId cb hcb).2, by simp⟩
  · simp [hid]

theorem cancel_stale (h : Inv s) (owner : ℕ) :
    Stale (s.cancel H owner) handle waitId ↔ Stale s handle waitId ∧ handle ≠ owner := by
  unfold Stale
  rw [cancel_holds]
  have hpending : Holds s.coroWaits handle waitId → handle ≠ owner →
      ((s.cancel H owner).Pending waitId ↔ s.Pending waitId) := by
    intro hh hne
    unfold Pending
    rcases @cancel_lookup κ H s owner waitId with ⟨-, hheld⟩ | ⟨hsame, -⟩
    · exact absurd (h.owner _ _ waitId hh hheld) hne
    · rw [hsame]
  constructor
  · rintro ⟨⟨hh, hne⟩, hno⟩
    exact ⟨⟨hh, (not_congr (hpending hh hne)).1 hno⟩, hne⟩
  · rintro ⟨⟨hh, hno⟩, hne⟩
    exact ⟨⟨hh, hne⟩, (not_congr (hpending hh hne)).2 hno⟩

theorem executeReady_stale (h : Inv s) : Stale s.executeReady.2 handle waitId ↔ Stale s handle waitId := by
  rcases executeReady_cases s with ⟨-, he⟩ | ⟨i, queue, -, -, he⟩ | ⟨i, queue, cb, -, hcb, he⟩
  · rw [he]
  · rw [he]
    rfl
  · rw [he]
    obtain ⟨hid, hheld⟩ := h.callback i cb hcb
    unfold Stale Pending
    dsimp only
    rw [holds_take, lookup_erase_ite, hid]
    by_cases hi : waitId = i
    · subst hi
      refine iff_of_false ?_ fun hr => hr.2 ⟨cb, hcb⟩
      rintro ⟨⟨hh, hne⟩, -⟩
      exact hne ⟨h.owner _ _ waitId hh hheld, rfl⟩
    · rw [if_neg hi]
      simp [hi]

/-- only a cancel_wait leaves an id with its owner, and only a cancel of the owner takes it away -/
theorem step_stale (h : Inv s) (l : Label κ) : Stale (s.step H l) handle waitId ↔
    Stale s handle waitId ∧ l ≠ .cancel handle ∨
      l = .cancelWait waitId ∧ ∃ cb, s.waitCallback.lookup waitId = some cb ∧ cb.coroId = handle := by
  cases l with
  | cancelWait i =>
    refine (cancelWait_stale h i).trans (or_congr (by simp) ?_)
    constructor
    · rintro ⟨rfl, hcb⟩
      exact ⟨rfl, hcb⟩
    · rintro ⟨heq, hcb⟩
      obtain rfl : i = waitId := by simpa using heq
      exact ⟨rfl, hcb⟩
  | cancel owner => exact (cancel_stale h owner).trans (by simp [eq_comm])
  | callSoon owner cb => exact (enlist_stale h owner cb).trans (by simp)
  | callAt time owner cb => exact (enlist_stale h owner cb).trans (by simp)
  | addReader fd owner cb ctl => exact (addWaiter_stale h .read fd owner cb ctl).trans (by simp)
  | addWriter fd owner cb ctl => exact (addWaiter_stale h .write fd owner cb ctl).trans (by simp)
  | epollEvent events => exact (stale_congr (s := s) Iff.rfl Iff.rfl).trans (by simp)
  | expiredTimeout now =>
    obtain ⟨hwaits, hcbs, -, -⟩ := expire_rest (H := H) (s := s) now s.scheduled.length
    refine (stale_congr (s := s) ?_ ?_).trans (by simp)
    · exact iff_of_eq (congrArg (fun m => Holds m handle waitId) hwaits)
    · exact iff_of_eq (congrArg (fun m => ∃ cb, Finmap.lookup waitId m = some cb) hcbs)
  | executeReady => exact (executeReady_stale h).trans (by simp)
  | stop => exact (stale_congr (s := s) Iff.rfl Iff.rfl).trans (by simp)

/-- a cancel_wait has taken the callback of the id, and its owner has not been cancelled since -/
def Taken (H : HeapAlgorithms) (ls : List (Label κ)) (handle waitId : ℕ) : Prop :=
  ∃ ls1 ls2 cb, ls = ls1 ++ .cancelWait waitId :: ls2 ∧
    (Machine.run (step H) make ls1).waitCallback.lookup waitId = some cb ∧ cb.coroId = handle ∧ .cancel handle ∉ ls2

theorem taken_snoc (ls : List (Label κ)) (l : Label κ) : Taken H (ls ++ [l]) handle waitId ↔
    Taken H ls handle waitId ∧ l ≠ .cancel handle ∨
      l = .cancelWait waitId ∧
        ∃ cb, (Machine.run (step H) make ls).waitCallback.lookup waitId = some cb ∧ cb.coroId = handle := by
  simp only [Taken, exists_and_left]
  rw [Machine.exists_split_snoc]
  simp only [List.mem_append, List.mem_singleton, List.not_mem_nil, not_or, not_false_eq_true, and_true, ne_comm (a := l)]
  constructor
  · intro h
    rcases h with ⟨ls1, ls2, rfl, cb, hcb, hid, hno, hl⟩ | h
    · exact .inl ⟨⟨ls1, ls2, rfl, cb, hcb, hid, hno⟩, hl⟩
    · exact .inr h
  · intro h
    rcases h with ⟨⟨ls1, ls2, rfl, cb, hcb, hid, hno⟩, hl⟩ | h
    · exact .inl ⟨ls1, ls2, rfl, cb, hcb, hid, hno, hl⟩
    · exact .inr h

theorem stale_iff (ls : List (Label κ)) :
    Stale (Machine.run (step H) make ls) handle waitId ↔ Taken H ls handle waitId := by
  induction ls using List.reverseRecOn with
  | nil =>
    refine iff_of_false (fun h => not_holds_empty h.1) ?_
    rintro ⟨ls1, ls2, -, heq, -⟩
    simp at heq
  | append_singleton ls l ih =>
    rw [Machine.run_append, taken_snoc, ← ih]
    exact step_stale (run_inv ls) l

/-! ## With nothing to wait for -/

/-- nothing can happen in an iteration -/
theorem Quiet.runOnce (h : Quiet s) {it : Iteration κ} (ht : Takes H s it) :
    (s.runOnce H it.now it.first it.events it.second it.later).2 = s := by
  obtain ⟨-, hevents, hexpired⟩ := idle_fixed (H := H) h.ready h.scheduled h.watched it.later it.events
  have hfirst : it.first = [] := pass_nil ht.first h.ready
  have hsecond : it.second = [] := by
    have hpass := ht.second
    rw [hfirst, Machine.run_nil, hevents] at hpass
    exact pass_nil hpass h.ready
  simp only [Eventloop.runOnce, hfirst, hsecond, Machine.run_nil, hevents, hexpired]

theorem Quiet.runUntilComplete (h : Quiet s) {its : List (Iteration κ)}
    (hits : Machine.Along (iterate H) (Takes H) s its) : s.runUntilComplete H its = s := by
  induction its with
  | nil => rfl
  | cons it its ih =>
    have hfixed : s.iterate H it = s := by
      unfold iterate
      split_ifs
      · rfl
      · exact h.runOnce hits.1
    have hrest := hits.2
    rw [hfixed] at hrest
    rw [Eventloop.runUntilComplete, Machine.run_cons, hfixed]
    exact ih hrest

/-- a loop that stops by itself waits for nothing -/
theorem not_holds_of_isStop (h : s.isStop = true) (hrunning : s.stopped = false) : ¬ Holds s.coroWaits handle waitId := by
  rintro ⟨waits, hwaits, -⟩
  have hkeys : s.coroWaits.keys = ∅ := by
    simp only [isStop, hrunning, Bool.false_or, Bool.and_eq_true, decide_eq_true_eq] at h
    exact h.2
  have hmem : handle ∈ s.coroWaits.keys := Finmap.mem_keys.2 (Finmap.mem_iff.2 ⟨waits, hwaits⟩)
  rw [hkeys] at hmem
  exact Finset.notMem_empty handle hmem

theorem Quiet.isStop_iff (h : Quiet s) (hinv : Inv s) :
    s.isStop = true ↔ ∀ handle waitId, ¬ Holds s.coroWaits handle waitId := by
  constructor
  · exact fun hstop handle waitId => not_holds_of_isStop hstop h.running
  · intro hnone
    have hempty : s.coroWaits = ∅ := hinv.tight.eq_empty hnone
    simp [isStop, Epoll.isStop, h.ready, h.scheduled, h.watched, hempty]

/-- nothing is held exactly if no callback is left and no id is stale -/
theorem holds_iff (h : Inv s) : (∀ handle waitId, ¬ Holds s.coroWaits handle waitId) ↔
    (∀ waitId, ¬ s.Pending waitId) ∧ ∀ handle waitId, ¬ Stale s handle waitId := by
  constructor
  · intro hnone
    exact ⟨fun waitId ⟨cb, hcb⟩ => hnone _ _ (h.callback waitId cb hcb).2, fun handle waitId hs => hnone _ _ hs.1⟩
  · rintro ⟨hpending, hstale⟩ handle waitId hh
    exact hstale handle waitId ⟨hh, hpending waitId⟩

/-- **Return**: when nothing is ready, scheduled or watched, run_until_complete returns exactly if no callback is left and
every owner from which a cancel_wait took one has been cancelled since -/
theorem returns_iff (ls : List (Label κ)) (hquiet : Quiet (Machine.run (step H) make ls)) :
    (∃ its, Machine.Along (iterate H) (Takes H) (Machine.run (step H) make ls) its ∧
        ((Machine.run (step H) make ls).runUntilComplete H its).isStop = true) ↔
      (∀ waitId, ¬ (Machine.run (step H) make ls).Pending waitId) ∧ ∀ handle waitId, ¬ Taken H ls handle waitId := by
  have hinv : Inv (Machine.run (step H) make ls) := run_inv ls
  have hstale : (∀ handle waitId, ¬ Taken H ls handle waitId) ↔
      ∀ handle waitId, ¬ Stale (Machine.run (step H) make ls) handle waitId :=
    forall_congr' fun handle => forall_congr' fun waitId => not_congr (stale_iff ls).symm
  rw [hstale, ← holds_iff hinv, ← hquiet.isStop_iff hinv]
  constructor
  · rintro ⟨its, hits, hstop⟩
    rwa [hquiet.runUntilComplete hits] at hstop
  · exact fun hstop => ⟨[], trivial, hstop⟩

/-- a timer that is set and cancelled by its id: run_until_complete never returns -/
theorem returns_iff_timer : ¬ ∃ its, Machine.Along (iterate sortedHeap) (Takes sortedHeap)
        (Machine.run (step sortedHeap) (make : Eventloop Unit) [.callAt 5 1 (), .cancelWait 0]) its ∧
      ((Machine.run (step sortedHeap) (make : Eventloop Unit) [.callAt 5 1 (), .cancelWait 0]).runUntilComplete
        sortedHeap its).isStop = true := by
  intro hreturns
  have htaken := ((returns_iff [.callAt 5 1 (), .cancelWait 0] ⟨rfl, rfl, rfl, rfl⟩).1 hreturns).2 1 0
  exact htaken ⟨[.callAt 5 1 ()], [], ⟨1, 0, ()⟩, rfl, rfl, rfl, List.not_mem_nil⟩

/-! ## Nothing is lost -/

namespace Traced

variable {t : Traced κ} {i : ℕ}

/-- what becomes of an id that has had a callback -/
def Accounted (t : Traced κ) (i : ℕ) : Prop := t.loop.Pending i ∨ i ∈ t.executed ∨ i ∈ t.cancelled

theorem addWaiter_pending {s : Eventloop κ} (h : Inv s) (hp : s.Pending i) (d : Dir) (fd : ℤ) (handle : ℕ) (cb : κ)
    (ctl : CtlOp → Bool) : (s.addWaiter d fd handle cb ctl).2.Pending i := by
  have hold : (s.enlist handle cb).Pending i := enlist_pending.2 (.inl hp)
  unfold addWaiter
  dsimp only
  split_ifs
  · exact hold
  · obtain ⟨cb', hcb⟩ := hold
    refine ⟨cb', ?_⟩
    dsimp only
    rw [lookup_erase_ite, if_neg (Nat.ne_of_lt (h.pending_lt hp))]
    exact hcb

theorem step_accounted (h : TInv t) (l : Label κ) (hp : t.loop.Pending i) : Accounted (t.step H l) i := by
  cases l with
  | callSoon handle cb => exact .inl (enlist_pending.2 (.inl hp))
  | callAt time handle cb => exact .inl (enlist_pending.2 (.inl hp))
  | addReader fd handle cb ctl => exact .inl (addWaiter_pending h.loop hp .read fd handle cb ctl)
  | addWriter fd handle cb ctl => exact .inl (addWaiter_pending h.loop hp .write fd handle cb ctl)
  | cancelWait waitId =>
    by_cases hid : i = waitId
    · right; right
      subst hid
      apply List.mem_append_right
      rw [if_pos (h.loop.pending_lt hp)]
      exact List.mem_singleton_self i
    · left
      obtain ⟨cb, hcb⟩ := hp
      refine ⟨cb, ?_⟩
      change (t.loop.cancelWait H waitId).waitCallback.lookup i = some cb
      rw [cancelWait_lookup, if_neg hid]
      exact hcb
  | cancel handle =>
    rcases @cancel_lookup κ H t.loop handle i with ⟨-, hheld⟩ | ⟨hsame, -⟩
    · right; right
      apply List.mem_append_right
      exact List.mem_map.2 ⟨(i, handle), List.mem_filter.2 ⟨h.owner handle i hheld, by simp⟩, rfl⟩
    · left
      obtain ⟨cb, hcb⟩ := hp
      exact ⟨cb, hsame.trans hcb⟩
  | epollEvent events => exact .inl hp
  | expiredTimeout now =>
    left
    obtain ⟨cb, hcb⟩ := hp
    have hcbs := (expire_rest (H := H) (s := t.loop) now t.loop.scheduled.length).2.1
    exact ⟨cb, (congrArg (Finmap.lookup i) hcbs).trans hcb⟩
  | executeReady =>
    obtain ⟨cb, hcb⟩ := hp
    rcases executeReady_cases t.loop with ⟨-, he⟩ | ⟨waitId, queue, -, -, he⟩ | ⟨waitId, queue, cb', -, hcb', he⟩
    · exact .inl ⟨cb, by rw [step, Eventloop.step, he]; exact hcb⟩
    · exact .inl ⟨cb, by rw [step, Eventloop.step, he]; exact hcb⟩
    · by_cases hid : i = waitId
      · right; left
        have hown : cb'.waitId = i := hid ▸ (h.loop.callback waitId cb' hcb').1
        apply List.mem_append_right
        rw [he]
        exact List.mem_singleton.2 hown.symm
      · left
        refine ⟨cb, ?_⟩
        rw [step, Eventloop.step, he]
        exact (Finmap.lookup_erase_ne hid).trans hcb
  | stop => exact .inl hp

theorem run_accounted (h : TInv t) (ha : Accounted t i) (ls : List (Label κ)) :
    Accounted (Machine.run (step H) t ls) i := by
  refine (Machine.inv_run_of_step (I := fun t => TInv t ∧ Accounted t i) ?_ ⟨h, ha⟩ ls).2
  rintro t l ⟨h, hp | hex | hcan⟩
  · exact ⟨step_tinv h l, step_accounted h l hp⟩
  · obtain ⟨new, hnew, -⟩ := step_executed (H := H) h l
    exact ⟨step_tinv h l, .inr (.inl (hnew ▸ List.mem_append_left _ hex))⟩
  · exact ⟨step_tinv h l, .inr (.inr (step_cancelled l i hcan))⟩

/-- **Nothing is lost**: when run_until_complete has returned and nobody has called stop, each callback that was
registered, before it or by a callback, has been executed once or cancelled -/
theorem nothing_lost (ls : List (Label κ)) (its : List (Iteration κ))
    (hreturned : ((Machine.run (Eventloop.step H) make ls).runUntilComplete H its).isStop = true)
    (hrunning : ((Machine.run (Eventloop.step H) make ls).runUntilComplete H its).stopped = false) (n : ℕ) :
    let all := ls ++ (Machine.run (Eventloop.step H) make ls).calls H its
    ∀ i, (Machine.run (Eventloop.step H) make (all.take n)).Pending i →
      (Machine.run (step H) start all).executed.count i = 1 ∨ i ∈ (Machine.run (step H) start all).cancelled := by
  intro all i hp
  have hinv : TInv (Machine.run (step H) start all) := run_tinv_of start_inv all
  have hloop : (Machine.run (step H) start all).loop = (Machine.run (Eventloop.step H) make ls).runUntilComplete H its := by
    rw [run_loop, runUntilComplete_run, ← Machine.run_append]
    rfl
  have hbefore : Accounted (Machine.run (step H) start (all.take n)) i := by
    left
    rw [run_loop]
    exact hp
  have haccounted : Accounted (Machine.run (step H) start all) i := by
    have hrun := run_accounted (H := H) (run_tinv_of start_inv (all.take n)) hbefore (all.drop n)
    rwa [← Machine.run_append, List.take_append_drop] at hrun
  rcases haccounted with ⟨cb, hcb⟩ | hex | hcan
  · -- the callback would be held by its owner
    have hheld := (hinv.loop.callback i cb hcb).2
    rw [hloop] at hheld
    exact absurd hheld (not_holds_of_isStop hreturned hrunning)
  · exact .inl (List.count_eq_one_of_mem hinv.once hex)
  · exact .inr hcan

/-- a callback registers another one in its round -/
theorem nothing_lost_two : let s := Machine.run (Eventloop.step sortedHeap) (make : Eventloop Unit) [.callSoon 1 ()]
    let its : List (Iteration Unit) := [⟨0, [[.callSoon 2 ()], []], [], [], 0⟩]
    (Machine.run (step sortedHeap) start ([.callSoon 1 ()] ++ s.calls sortedHeap its)).executed.count 1 = 1 ∨
      1 ∈ (Machine.run (step sortedHeap) start ([.callSoon 1 ()] ++ s.calls sortedHeap its)).cancelled := by
  intro s its
  exact nothing_lost [.callSoon 1 ()] its (by decide) (by decide) 3 1 ⟨⟨2, 1, ()⟩, rfl⟩

end Traced

end MCoroRpc.Eventloop
