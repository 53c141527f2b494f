/-
The life of a Timer (include/coro/timer.hpp, src/timer.cc, src/handle.cc; sleep_for of include/coro/sleep.hpp).

Any number of timers on one event loop, with the clock. Every member function of a Timer is one label, as is every member
function of the loop (Coro.Eventloop); reading the clock gives what the label `advance` has made of it. Executing a ready
callback runs the timer that it belongs to; what the timer's own callback does are the labels behind it, so a callback
that destroys its timer is `executeReady` followed by `destroy`.

Four things keep a callback from being called: the flag of the timer, the wait id, the vector of the loop, and the
destructor of Handle, which cancels by the handle. The log says what has happened to whom, for the statement only.

- `Inv`: a callback of a timer is pending only while the timer exists, under its handle, and it stands in the vector until
  it is due; a timer that is not marked has not ended.
- `timer_life`: the callback of a timer is called once at most, when it is due, and not behind cancel, abort or the
  destructor.
-/
import MCoroRpc.Coro.TimerQueue

namespace MCoroRpc

namespace TimerLoop

/-- what the loop holds: `run` of a timer, or any other callback -/
inductive Callback (κ : Type*) where
  | run (t : ℕ)
  | user (cb : κ)

structure Timer (κ : Type*) where
  /-- the id of the Handle -/
  id : ℕ
  /-- `m_when` -/
  time : ℤ
  /-- `m_callback`; a std::function may be empty -/
  callback : Option κ
  cancelled : Bool
  waitId : ℕ

inductive Event where
  | constructed (t : ℕ) (time : ℤ)
  | cancelled (t : ℕ)
  | aborted (t : ℕ)
  | destroyed (t : ℕ)
  /-- `m_callback` is called -/
  | called (t : ℕ) (now : ℤ)
  /-- `run` of a timer that does not exist -/
  | dangling (t : ℕ)
deriving DecidableEq, Repr

def Event.timer : Event → ℕ
  | .constructed t _ | .cancelled t | .aborted t | .destroyed t | .called t _ | .dangling t => t

/-- behind it the callback of the timer must not be called -/
def Event.Ends (t : ℕ) : Event → Prop
  | .cancelled t' | .aborted t' | .destroyed t' | .called t' _ => t' = t
  | .constructed _ _ | .dangling _ => False

end TimerLoop

structure TimerLoop (κ : Type*) where
  loop : Eventloop (TimerLoop.Callback κ)
  /-- what the clock says -/
  now : ℤ
  /-- the timers that exist -/
  timers : Finmap fun _ : ℕ => TimerLoop.Timer κ
  /-- the next timer to be constructed -/
  nextTimer : ℕ
  log : List TimerLoop.Event

namespace TimerLoop

open Multimap

variable {κ : Type*} (H : HeapAlgorithms)

/-! ## Model -/

def make (now : ℤ) : TimerLoop κ := ⟨.make, now, ∅, 0, []⟩

def withLoop (loop : Eventloop (Callback κ)) (s : TimerLoop κ) : TimerLoop κ := { s with loop := loop }

def record (e : Event) (s : TimerLoop κ) : TimerLoop κ := { s with log := s.log ++ [e] }

def update (t : ℕ) (x : Timer κ) (s : TimerLoop κ) : TimerLoop κ := { s with timers := s.timers.insert t x }

/-- the ids of the handles are 32 bits and come round: any id may be given -/
def construct (id : ℕ) (time : ℤ) (callback : Option κ) (s : TimerLoop κ) : TimerLoop κ :=
  { s.record (.constructed s.nextTimer time) with
    timers := s.timers.insert s.nextTimer ⟨id, time, callback, false, 0⟩
    nextTimer := s.nextTimer + 1 }

def start (t : ℕ) (x : Timer κ) (s : TimerLoop κ) : TimerLoop κ :=
  (s.withLoop (s.loop.callAt H x.time x.id (.run t)).2).update t
    { x with waitId := (s.loop.callAt H x.time x.id (.run t)).1 }

/-- the loop calls `run`, which may set off `m_callback` -/
def run (t : ℕ) (s : TimerLoop κ) : TimerLoop κ :=
  match s.timers.lookup t with
  | none => s.record (.dangling t)
  | some x =>
    if x.cancelled then s
    else
      let s' := s.update t { x with cancelled := true, callback := none, waitId := 0 }
      if x.callback.isSome then s'.record (.called t s.now) else s'

/-- the body of `cancel` and of `abort` -/
def halt (t : ℕ) (x : Timer κ) (s : TimerLoop κ) : TimerLoop κ :=
  if x.cancelled then s
  else if x.waitId ≠ 0 then (s.withLoop (s.loop.cancelWait H x.waitId)).update t { x with cancelled := true }
  else s.update t { x with cancelled := true }

def cancel (t : ℕ) (x : Timer κ) (s : TimerLoop κ) : TimerLoop κ := (s.halt H t x).record (.cancelled t)

def abort (t : ℕ) (x : Timer κ) (s : TimerLoop κ) : TimerLoop κ := (s.halt H t x).record (.aborted t)

/-- `~Timer` and then `~Handle`, whose state no code has set to CANCELLED before -/
def destroy (t : ℕ) (x : Timer κ) (s : TimerLoop κ) : TimerLoop κ :=
  let s' := s.halt H t x
  { (s'.withLoop (s'.loop.cancel H x.id)).record (.destroyed t) with timers := s'.timers.erase t }

def executeReady (s : TimerLoop κ) : TimerLoop κ :=
  match s.loop.executeReady with
  | (some ⟨_, _, .run t⟩, loop) => (s.withLoop loop).run t
  | (_, loop) => s.withLoop loop

/-- the code has the timer only while it exists -/
def onTimer (t : ℕ) (f : Timer κ → TimerLoop κ → TimerLoop κ) (s : TimerLoop κ) : TimerLoop κ :=
  match s.timers.lookup t with
  | none => s
  | some x => f x s

inductive Label (κ : Type*) where
  | construct (id : ℕ) (time : ℤ) (callback : Option κ)
  | start (t : ℕ)
  | cancel (t : ℕ)
  | abort (t : ℕ)
  | destroy (t : ℕ)
  | advance (d : ℕ)
  | epollEvent (events : List Epoll.Report)
  | expiredTimeout
  | executeReady
  /-- what other code does to the loop -/
  | callSoon (handle : ℕ) (cb : κ)
  | callAt (time : ℤ) (handle : ℕ) (cb : κ)
  | addWaiter (d : Dir) (fd : ℤ) (handle : ℕ) (cb : κ) (ctl : CtlOp → Bool)
  | cancelWait (waitId : ℕ)
  | cancelHandle (handle : ℕ)
  | stop

def step (s : TimerLoop κ) : Label κ → TimerLoop κ
  | .construct id time callback => s.construct id time callback
  | .start t => s.onTimer t (start H t)
  | .cancel t => s.onTimer t (cancel H t)
  | .abort t => s.onTimer t (abort H t)
  | .destroy t => s.onTimer t (destroy H t)
  | .advance d => { s with now := s.now + d }
  | .epollEvent events => s.withLoop (s.loop.processEpollEvent events)
  | .expiredTimeout => s.withLoop (s.loop.processExpiredTimeout H s.now)
  | .executeReady => s.executeReady
  | .callSoon handle cb => s.withLoop (s.loop.callSoon handle (.user cb)).2
  | .callAt time handle cb => s.withLoop (s.loop.callAt H time handle (.user cb)).2
  | .addWaiter d fd handle cb ctl => s.withLoop (s.loop.addWaiter d fd handle (.user cb) ctl).2
  | .cancelWait waitId => s.withLoop (s.loop.cancelWait H waitId)
  | .cancelHandle handle => s.withLoop (s.loop.cancel H handle)
  | .stop => s.withLoop { s.loop with stopped := true }

/-- what the log of every run shows -/
structure Proper (log : List Event) : Prop where
  /-- the callback of a timer is not called behind cancel, abort, the destructor or another call -/
  last : log.Pairwise fun e e' => ∀ t now, e.Ends t → e' ≠ .called t now
  /-- it is called when it is due: the timer has one deadline, and it has passed -/
  due : ∀ t now, .called t now ∈ log → ∃ time, (∀ time', .constructed t time' ∈ log ↔ time' = time) ∧ time ≤ now
  /-- no timer runs that does not exist -/
  alive : ∀ t, .dangling t ∉ log

/-! ## Invariant -/

structure Inv (s : TimerLoop κ) : Prop where
  loop : s.loop.Inv
  runs : ∀ w cb t, s.loop.waitCallback.lookup w = some cb → cb.userCb = .run t → ∃ x, s.timers.lookup t = some x ∧
    cb.coroId = x.id ∧ ((w, x.time) ∈ s.loop.scheduled ∨ x.time ≤ s.now)
  young : ∀ t x, s.timers.lookup t = some x → t < s.nextTimer
  past : ∀ e ∈ s.log, e.timer < s.nextTimer
  deadline : ∀ t x, s.timers.lookup t = some x → ∀ time, .constructed t time ∈ s.log ↔ time = x.time
  unmarked : ∀ t x, s.timers.lookup t = some x → x.cancelled = false → ∀ e ∈ s.log, ¬ e.Ends t
  proper : Proper s.log

variable {H} {s : TimerLoop κ} {t : ℕ} {x : Timer κ}

theorem make_inv (now : ℤ) : Inv (make now : TimerLoop κ) where
  loop := Eventloop.make_inv
  runs := fun _ _ _ hcb => absurd hcb lookup_empty_ne
  young := fun _ _ ht => absurd ht lookup_empty_ne
  past := fun _ he => by cases he
  deadline := fun _ _ ht => absurd ht lookup_empty_ne
  unmarked := fun _ _ ht => absurd ht lookup_empty_ne
  proper :=
    { last := .nil
      due := fun _ _ he => by cases he
      alive := fun _ he => by cases he }

/-! ### The loop changes -/

/-- no callback of a timer is new, and each keeps its place in the vector until it is due -/
structure Fewer (now : ℤ) (loop loop' : Eventloop (Callback κ)) : Prop where
  inv : loop'.Inv
  runs : ∀ w cb t, loop'.waitCallback.lookup w = some cb → cb.userCb = .run t → loop.waitCallback.lookup w = some cb ∧
    ∀ time, (w, time) ∈ loop.scheduled → (w, time) ∈ loop'.scheduled ∨ time ≤ now

theorem Inv.withLoop (h : Inv s) {loop : Eventloop (Callback κ)} (hf : Fewer s.now s.loop loop) :
    Inv (s.withLoop loop) where
  loop := hf.inv
  runs := by
    intro w cb t hcb hrun
    obtain ⟨hold, hkeep⟩ := hf.runs w cb t hcb hrun
    obtain ⟨x, hx, hid, hplace⟩ := h.runs w cb t hold hrun
    exact ⟨x, hx, hid, hplace.elim (hkeep x.time) .inr⟩
  young := h.young
  past := h.past
  deadline := h.deadline
  unmarked := h.unmarked
  proper := h.proper

variable {loop : Eventloop (Callback κ)} {now : ℤ}

theorem enlist_user (handle : ℕ) (k : κ) (w : ℕ) (cb : WaitCallback (Callback κ)) (t : ℕ)
    (hcb : (loop.enlist handle (.user k)).waitCallback.lookup w = some cb) (hrun : cb.userCb = .run t) :
    loop.waitCallback.lookup w = some cb := by
  rcases Eventloop.enlist_origin hcb with hold | hnew
  · exact hold
  · rw [hrun] at hnew
    cases hnew

theorem callSoon_fewer (hl : loop.Inv) (handle : ℕ) (k : κ) : Fewer now loop (loop.callSoon handle (.user k)).2 where
  inv := Eventloop.callSoon_inv hl handle _
  runs := fun w cb t hcb hrun => ⟨enlist_user handle k w cb t hcb hrun, fun _ hmem => .inl hmem⟩

theorem callAt_fewer (hl : loop.Inv) (time : ℤ) (handle : ℕ) (k : κ) :
    Fewer now loop (loop.callAt H time handle (.user k)).2 where
  inv := Eventloop.callAt_inv hl time handle _
  runs := fun w cb t hcb hrun => by
    refine ⟨enlist_user handle k w cb t hcb hrun, fun _ hmem => .inl ?_⟩
    exact (H.push_perm _).mem_iff.2 (List.mem_append_left _ hmem)

theorem addWaiter_fewer (hl : loop.Inv) (d : Dir) (fd : ℤ) (handle : ℕ) (k : κ) (ctl : CtlOp → Bool) :
    Fewer now loop (loop.addWaiter d fd handle (.user k) ctl).2 where
  inv := Eventloop.addWaiter_inv hl d fd handle _ ctl
  runs := fun w cb t hcb hrun => by
    refine ⟨enlist_user handle k w cb t (Eventloop.addWaiter_lookup hcb) hrun, fun _ hmem => .inl ?_⟩
    rw [Eventloop.addWaiter_scheduled]
    exact hmem

theorem cancelWait_fewer (hl : loop.Inv) (waitId : ℕ) : Fewer now loop (loop.cancelWait H waitId) where
  inv := Eventloop.cancelWait_inv hl waitId
  runs := fun w cb t hcb hrun => by
    refine ⟨(Eventloop.cancelWait_less waitId).callback w cb hcb, fun _ hmem => .inl ?_⟩
    rw [Eventloop.cancelWait_lookup] at hcb
    split_ifs at hcb with hne
    exact (Eventloop.mem_unschedule hl.times).2 ⟨hmem, hne⟩

theorem cancel_fewer (hl : loop.Inv) (handle : ℕ) : Fewer now loop (loop.cancel H handle) where
  inv := Eventloop.cancel_inv hl handle
  runs := fun w cb t hcb hrun => by
    refine ⟨(Eventloop.cancel_less handle).callback w cb hcb, fun _ hmem => .inl ?_⟩
    -- what has kept its callback is not held under the handle
    rcases @Eventloop.cancel_lookup _ H loop handle w with ⟨hnone, -⟩ | ⟨-, hnot⟩
    · cases hnone.symm.trans hcb
    · unfold Eventloop.cancel
      cases hwaits : loop.coroWaits.lookup handle with
      | none => exact hmem
      | some waits =>
        refine (Eventloop.cancelWaits_scheduled hl waits).mem_iff.2 (List.mem_filter.2 ⟨hmem, ?_⟩)
        simpa using fun hw => hnot ⟨waits, hwaits, hw⟩

theorem epollEvent_fewer (hl : loop.Inv) (events : List Epoll.Report) :
    Fewer now loop (loop.processEpollEvent events) where
  inv := Eventloop.epollEvent_inv hl events
  runs := fun _ _ _ hcb _ => ⟨hcb, fun _ hmem => .inl hmem⟩

/-- an expired timer leaves the vector -/
theorem mem_expire (n : ℕ) {e : ℕ × ℤ} (he : e ∈ loop.scheduled) :
    e ∈ (loop.expire H now n).scheduled ∨ e.2 ≤ now := by
  induction n generalizing loop with
  | zero => exact .inl he
  | succ n ih =>
    unfold Eventloop.expire
    cases hs : loop.scheduled with
    | nil =>
      rw [hs] at he
      cases he
    | cons e' v =>
      dsimp only
      split_ifs with hdue
      · rw [hs] at he
        rcases List.mem_cons.1 he with rfl | he
        · exact .inr hdue
        · obtain ⟨v', hpop, hperm⟩ := H.pop_perm e' v
          apply ih
          change e ∈ (H.popHeap (e' :: v)).dropLast
          rw [hpop, List.dropLast_concat]
          exact hperm.mem_iff.2 he
      · exact .inl he

theorem expired_fewer (hl : loop.Inv) : Fewer now loop (loop.processExpiredTimeout H now) where
  inv := Eventloop.expire_inv hl now _
  runs := fun w cb t hcb _ => by
    have hsame := (Eventloop.expire_rest (H := H) (s := loop) now loop.scheduled.length).2.1
    refine ⟨?_, fun _ hmem => mem_expire _ hmem⟩
    rw [← hsame]
    exact hcb

theorem executeReady_fewer (hl : loop.Inv) : Fewer now loop loop.executeReady.2 where
  inv := Eventloop.executeReady_inv hl
  runs := fun w cb t hcb _ => by
    rw [(Eventloop.executeReady_rest loop).2.1]
    exact ⟨Eventloop.executeReady_origin hcb, fun _ hmem => .inl hmem⟩

theorem stop_fewer (hl : loop.Inv) : Fewer now loop { loop with stopped := true } where
  inv := Eventloop.step_inv (H := sortedHeap) hl .stop
  runs := fun _ _ _ hcb _ => ⟨hcb, fun _ hmem => .inl hmem⟩

/-! ### A timer changes -/

/-- a timer is marked, or has a new wait id -/
theorem Inv.update (h : Inv s) (ht : s.timers.lookup t = some x) {x' : Timer κ} (hid : x'.id = x.id)
    (htime : x'.time = x.time) (hmark : x'.cancelled = false → x.cancelled = false) : Inv (s.update t x') := by
  have hother : ∀ t' y, (s.timers.insert t x').lookup t' = some y → ∃ y', s.timers.lookup t' = some y' ∧
      y.time = y'.time ∧ (y.cancelled = false → y'.cancelled = false) := by
    intro t' y hy
    rw [lookup_insert_ite] at hy
    split_ifs at hy with he
    · obtain rfl := Option.some.inj hy
      exact ⟨x, he ▸ ht, htime, hmark⟩
    · exact ⟨y, hy, rfl, id⟩
  refine ⟨h.loop, ?_, ?_, h.past, ?_, ?_, h.proper⟩
  · intro w cb t' hcb hrun
    obtain ⟨y, hy, howner, hplace⟩ := h.runs w cb t' hcb hrun
    by_cases he : t' = t
    · obtain rfl := he
      obtain rfl := Option.some.inj (ht.symm.trans hy)
      exact ⟨x', Finmap.lookup_insert _, howner.trans hid.symm, htime.symm ▸ hplace⟩
    · exact ⟨y, (Finmap.lookup_insert_of_ne _ he).trans hy, howner, hplace⟩
  · intro t' y hy
    obtain ⟨y', hy', -⟩ := hother t' y hy
    exact h.young t' y' hy'
  · intro t' y hy time
    obtain ⟨y', hy', htime', -⟩ := hother t' y hy
    rw [htime']
    exact h.deadline t' y' hy' time
  · intro t' y hy hno
    obtain ⟨y', hy', -, hmark'⟩ := hother t' y hy
    exact h.unmarked t' y' hy' (hmark' hno)

/-- something happens to a timer: if it ends it is marked, and only one that has not ended is called -/
theorem Inv.record (h : Inv s) (ht : s.timers.lookup t = some x) {e : Event} (he : e.Ends t) (hmark : x.cancelled = true)
    (hcalled : ∀ now, e = .called t now → (∀ e' ∈ s.log, ¬ e'.Ends t) ∧ x.time ≤ now) : Inv (s.record e) := by
  have htimer : ∀ t', e.Ends t' → t' = t := by
    intro t' he'
    cases e <;> first | exact he'.symm.trans he | cases he
  have hnot : ∀ t' time, Event.constructed t' time ∈ s.log ++ [e] ↔ Event.constructed t' time ∈ s.log := by
    intro t' time
    rw [List.mem_append, List.mem_singleton]
    exact or_iff_left fun heq => by subst heq; cases he
  refine ⟨h.loop, h.runs, h.young, ?_, ?_, ?_, ?_, ?_, ?_⟩
  · intro e' he'
    rcases List.mem_append.1 he' with he' | he'
    · exact h.past e' he'
    · obtain rfl := List.mem_singleton.1 he'
      have hlt := h.young t x ht
      cases e' <;> first | exact he ▸ hlt | cases he
  · intro t' y hy time
    exact (hnot t' time).trans (h.deadline t' y hy time)
  · intro t' y hy hno e' he'
    rcases List.mem_append.1 he' with he' | he'
    · exact h.unmarked t' y hy hno e' he'
    · obtain rfl := List.mem_singleton.1 he'
      intro hends
      obtain rfl := htimer t' hends
      obtain rfl := Option.some.inj (ht.symm.trans hy)
      cases hno.symm.trans hmark
  · refine List.pairwise_append.2 ⟨h.proper.last, List.pairwise_singleton _ _, ?_⟩
    intro e1 h1 e2 h2 t' now hends heq
    obtain rfl := List.mem_singleton.1 h2
    obtain rfl : t' = t := htimer t' (by rw [heq]; exact rfl)
    exact (hcalled now heq).1 e1 h1 hends
  · intro t' now hmem
    have hdeadline : ∀ time, (∀ time', Event.constructed t' time' ∈ s.log ↔ time' = time) →
        ∀ time', Event.constructed t' time' ∈ s.log ++ [e] ↔ time' = time :=
      fun time honly time' => (hnot t' time').trans (honly time')
    rcases List.mem_append.1 hmem with hmem | hmem
    · obtain ⟨time, honly, hdue⟩ := h.proper.due t' now hmem
      exact ⟨time, hdeadline time honly, hdue⟩
    · obtain rfl := List.mem_singleton.1 hmem
      obtain rfl : t' = t := he
      exact ⟨x.time, hdeadline x.time (h.deadline t' x ht), (hcalled now rfl).2⟩
  · intro t' hmem
    rcases List.mem_append.1 hmem with hmem | hmem
    · exact h.proper.alive t' hmem
    · obtain rfl := List.mem_singleton.1 hmem
      cases he

theorem mem_constructed {log : List Event} {time time' : ℤ} {t' : ℕ} :
    Event.constructed t' time' ∈ log ++ [.constructed t time] ↔
      Event.constructed t' time' ∈ log ∨ t' = t ∧ time' = time := by
  simp

/-- the log of a timer that it does not know yet -/
theorem Proper.constructed {log : List Event} (h : Proper log) (hnew : ∀ e ∈ log, e.timer ≠ t) (time : ℤ) :
    Proper (log ++ [.constructed t time]) where
  last := by
    refine List.pairwise_append.2 ⟨h.last, List.pairwise_singleton _ _, ?_⟩
    intro e1 _ e2 h2 t' now _ heq
    obtain rfl := List.mem_singleton.1 h2
    cases heq
  due := by
    intro t' now hmem
    have hold : Event.called t' now ∈ log := by simpa using hmem
    obtain ⟨time', honly, hdue⟩ := h.due t' now hold
    have hne : t' ≠ t := hnew _ hold
    refine ⟨time', fun time'' => ?_, hdue⟩
    exact mem_constructed.trans (by simpa [hne] using honly time'')
  alive := fun t' hmem => h.alive t' (by simpa using hmem)

theorem construct_inv (h : Inv s) (id : ℕ) (time : ℤ) (callback : Option κ) : Inv (s.construct id time callback) := by
  have hnew : ∀ t x, s.timers.lookup t = some x → t ≠ s.nextTimer := fun t x ht => Nat.ne_of_lt (h.young t x ht)
  have hlookup : ∀ t y, (s.timers.insert s.nextTimer ⟨id, time, callback, false, 0⟩).lookup t = some y →
      t = s.nextTimer ∧ y = ⟨id, time, callback, false, 0⟩ ∨ t ≠ s.nextTimer ∧ s.timers.lookup t = some y := by
    intro t y hy
    rw [lookup_insert_ite] at hy
    split_ifs at hy with he
    · exact .inl ⟨he, (Option.some.inj hy).symm⟩
    · exact .inr ⟨he, hy⟩
  have hpast : ∀ e ∈ s.log, e.timer ≠ s.nextTimer := fun e he => Nat.ne_of_lt (h.past e he)
  have hnone : ∀ time', Event.constructed s.nextTimer time' ∉ s.log := fun time' he => hpast _ he rfl
  refine ⟨h.loop, ?_, ?_, ?_, ?_, ?_, h.proper.constructed hpast time⟩
  · intro w cb t hcb hrun
    obtain ⟨y, hy, hrest⟩ := h.runs w cb t hcb hrun
    exact ⟨y, (Finmap.lookup_insert_of_ne _ (hnew t y hy)).trans hy, hrest⟩
  · intro t y hy
    rcases hlookup t y hy with ⟨rfl, -⟩ | ⟨-, hy⟩
    · exact Nat.lt_succ_self _
    · exact Nat.lt_succ_of_lt (h.young t y hy)
  · intro e he
    rcases List.mem_append.1 he with he | he
    · exact Nat.lt_succ_of_lt (h.past e he)
    · obtain rfl := List.mem_singleton.1 he
      exact Nat.lt_succ_self _
  · intro t y hy time'
    refine mem_constructed.trans ?_
    rcases hlookup t y hy with ⟨rfl, rfl⟩ | ⟨hne, hy⟩
    · simp [hnone]
    · simpa [hne] using h.deadline t y hy time'
  · intro t y hy hno e he
    rcases List.mem_append.1 he with he | he
    · rcases hlookup t y hy with ⟨rfl, -⟩ | ⟨-, hy⟩
      · intro hends
        have hne := hpast e he
        cases e <;> first | exact hne hends | cases hends
      · exact h.unmarked t y hy hno e he
    · obtain rfl := List.mem_singleton.1 he
      exact not_false

theorem start_inv (h : Inv s) (ht : s.timers.lookup t = some x) : Inv (s.start H t x) := by
  have hsched : ∀ e, e ∈ (s.loop.callAt H x.time x.id (.run t)).2.scheduled ↔
      e ∈ s.loop.scheduled ∨ e = (s.loop.nextWaitId, x.time) := by
    intro e
    refine (H.push_perm _).mem_iff.trans ?_
    rw [List.mem_append, List.mem_singleton]
  have hcalled : Inv (s.withLoop (s.loop.callAt H x.time x.id (.run t)).2) := by
    refine ⟨Eventloop.callAt_inv h.loop x.time x.id _, ?_, h.young, h.past, h.deadline, h.unmarked, h.proper⟩
    intro w cb t' hcb hrun
    replace hcb : (s.loop.enlist x.id (.run t)).waitCallback.lookup w = some cb := hcb
    rw [Eventloop.enlist_lookup] at hcb
    split_ifs at hcb with hw
    · obtain rfl := Option.some.inj hcb
      obtain rfl : t = t' := Callback.run.inj hrun
      exact ⟨x, ht, rfl, .inl ((hsched _).2 (.inr (by rw [hw])))⟩
    · obtain ⟨y, hy, howner, hplace⟩ := h.runs w cb t' hcb hrun
      exact ⟨y, hy, howner, hplace.imp_left fun hmem => (hsched _).2 (.inl hmem)⟩
  exact hcalled.update ht rfl rfl id

/-- behind cancel and abort the timer is marked -/
theorem halt_inv (h : Inv s) (ht : s.timers.lookup t = some x) : Inv (s.halt H t x) ∧
    ∃ x', (s.halt H t x).timers.lookup t = some x' ∧ x'.id = x.id ∧ x'.cancelled = true := by
  unfold halt
  split_ifs with hmark hid
  · exact ⟨h, x, ht, rfl, hmark⟩
  · refine ⟨(h.withLoop (cancelWait_fewer h.loop _)).update ht rfl rfl fun hno => Bool.noConfusion hno, ?_⟩
    exact ⟨_, Finmap.lookup_insert _, rfl, rfl⟩
  · refine ⟨h.update ht rfl rfl fun hno => Bool.noConfusion hno, ?_⟩
    exact ⟨_, Finmap.lookup_insert _, rfl, rfl⟩

theorem cancel_inv (h : Inv s) (ht : s.timers.lookup t = some x) : Inv (s.cancel H t x) := by
  obtain ⟨hinv, x', hx', -, hmark⟩ := halt_inv (H := H) h ht
  exact hinv.record hx' rfl hmark fun now hn => by cases hn

theorem abort_inv (h : Inv s) (ht : s.timers.lookup t = some x) : Inv (s.abort H t x) := by
  obtain ⟨hinv, x', hx', -, hmark⟩ := halt_inv (H := H) h ht
  exact hinv.record hx' rfl hmark fun now hn => by cases hn

/-- a timer that no callback belongs to -/
theorem Inv.erase (h : Inv s) (hno : ∀ w cb, s.loop.waitCallback.lookup w = some cb → cb.userCb ≠ .run t) :
    Inv { s with timers := s.timers.erase t } := by
  have hold : ∀ t' y, (s.timers.erase t).lookup t' = some y → s.timers.lookup t' = some y := by
    intro t' y hy
    rw [lookup_erase_ite] at hy
    split_ifs at hy
    exact hy
  refine ⟨h.loop, ?_, fun t' y hy => h.young t' y (hold t' y hy), h.past, fun t' y hy => h.deadline t' y (hold t' y hy),
    fun t' y hy => h.unmarked t' y (hold t' y hy), h.proper⟩
  intro w cb t' hcb hrun
  obtain ⟨y, hy, hrest⟩ := h.runs w cb t' hcb hrun
  have hne : t' ≠ t := by
    rintro rfl
    exact hno w cb hcb hrun
  exact ⟨y, (Finmap.lookup_erase_ne hne).trans hy, hrest⟩

/-- ~Handle leaves the timer no callback, whatever its wait id is -/
theorem destroy_inv (h : Inv s) (ht : s.timers.lookup t = some x) : Inv (s.destroy H t x) := by
  obtain ⟨hinv, x', hx', hid, hmark⟩ := halt_inv (H := H) h ht
  have hcancelled := hinv.withLoop (cancel_fewer (H := H) hinv.loop x.id)
  have hrecord : Inv (((s.halt H t x).withLoop ((s.halt H t x).loop.cancel H x.id)).record (.destroyed t)) :=
    hcancelled.record hx' rfl hmark fun now hn => by cases hn
  refine hrecord.erase ?_
  intro w cb hcb hrun
  obtain ⟨y, hy, howner, -⟩ := hcancelled.runs w cb t hcb hrun
  obtain rfl := Option.some.inj (hx'.symm.trans hy)
  exact Eventloop.cancel_none hinv.loop hcb (howner.trans hid)

/-! ### A callback is executed -/

/-- the wait of the callback has been taken -/
theorem run_inv (h : Inv s) (ht : s.timers.lookup t = some x) (hdue : x.time ≤ s.now) : Inv (s.run t) := by
  simp only [run, ht]
  split_ifs with hmark hcb
  · exact h
  · have hmarked : Inv (s.update t { x with cancelled := true, callback := none, waitId := 0 }) :=
      h.update ht rfl rfl fun hno => Bool.noConfusion hno
    apply hmarked.record (x := { x with cancelled := true, callback := none, waitId := 0 })
    · exact Finmap.lookup_insert _
    · exact (rfl : t = t)
    · rfl
    · intro now hn
      obtain rfl : s.now = now := (Event.called.inj hn).2
      exact ⟨h.unmarked t x ht (by simpa using hmark), hdue⟩
  · exact h.update ht rfl rfl fun hno => Bool.noConfusion hno

/-- a callback that is executed was ready, so the timer it belongs to is due -/
theorem executeReady_inv (h : Inv s) : Inv s.executeReady := by
  have hrest : Inv (s.withLoop s.loop.executeReady.2) := h.withLoop (executeReady_fewer h.loop)
  unfold executeReady
  rcases Eventloop.executeReady_cases s.loop with ⟨-, he⟩ | ⟨waitId, queue, -, -, he⟩ | ⟨waitId, queue, cb, hq, hcb, he⟩
  · rw [he] at hrest ⊢
    exact hrest
  · rw [he] at hrest ⊢
    exact hrest
  · rw [he] at hrest ⊢
    obtain ⟨coroId, waitId', userCb⟩ := cb
    cases userCb with
    | user k => exact hrest
    | run t =>
      obtain ⟨x, hx, -, hplace⟩ := h.runs waitId _ t hcb rfl
      refine run_inv hrest hx ?_
      rcases hplace with hmem | hdue
      · have hready := (h.loop.scheduled _ hmem).2
        rw [hq] at hready
        exact absurd List.mem_cons_self hready
      · exact hdue

theorem advance_inv (h : Inv s) (d : ℕ) : Inv { s with now := s.now + d } := by
  refine ⟨h.loop, ?_, h.young, h.past, h.deadline, h.unmarked, h.proper⟩
  intro w cb t hcb hrun
  obtain ⟨x, hx, howner, hplace⟩ := h.runs w cb t hcb hrun
  refine ⟨x, hx, howner, hplace.imp_right fun hdue => ?_⟩
  calc x.time ≤ s.now := hdue
    _ ≤ s.now + d := Int.le_add_of_nonneg_right (Int.natCast_nonneg d)

theorem onTimer_inv (h : Inv s) {f : Timer κ → TimerLoop κ → TimerLoop κ}
    (hf : ∀ x, s.timers.lookup t = some x → Inv (f x s)) : Inv (s.onTimer t f) := by
  unfold onTimer
  cases ht : s.timers.lookup t with
  | none => exact h
  | some x => exact hf x ht

/-- **One step** -/
theorem step_inv (h : Inv s) (l : Label κ) : Inv (s.step H l) := by
  cases l with
  | construct id time callback => exact construct_inv h id time callback
  | start t => exact onTimer_inv h fun x => start_inv h
  | cancel t => exact onTimer_inv h fun x => cancel_inv h
  | abort t => exact onTimer_inv h fun x => abort_inv h
  | destroy t => exact onTimer_inv h fun x => destroy_inv h
  | advance d => exact advance_inv h d
  | epollEvent events => exact h.withLoop (epollEvent_fewer h.loop events)
  | expiredTimeout => exact h.withLoop (expired_fewer h.loop)
  | executeReady => exact executeReady_inv h
  | callSoon handle cb => exact h.withLoop (callSoon_fewer h.loop handle cb)
  | callAt time handle cb => exact h.withLoop (callAt_fewer h.loop time handle cb)
  | addWaiter d fd handle cb ctl => exact h.withLoop (addWaiter_fewer h.loop d fd handle cb ctl)
  | cancelWait waitId => exact h.withLoop (cancelWait_fewer h.loop waitId)
  | cancelHandle handle => exact h.withLoop (cancel_fewer h.loop handle)
  | stop => exact h.withLoop (stop_fewer h.loop)

/-- **The life of a timer**: in every run the callback of a timer is called once at most, when it is due, and not behind
cancel, abort or the destructor; and no timer is run that does not exist -/
theorem timer_life (H : HeapAlgorithms) (now : ℤ) (ls : List (Label κ)) :
    Proper (Machine.run (step H) (make now) ls).log := by
  have hinv : Inv (Machine.run (step H) (make now) ls) :=
    Machine.inv_run_of_step (I := Inv) (fun _ l h => step_inv h l) (make_inv now) _
  exact hinv.proper

/-- a timer that is started twice and destroyed by its callback, and one that is cancelled when it is due -/
example : (Machine.run (step sortedHeap) (make 0 : TimerLoop ℕ)
    [.construct 1 5 (some 7), .start 0, .start 0, .construct 2 5 (some 8), .start 1, .advance 6, .expiredTimeout,
      .executeReady, .destroy 0, .cancel 1, .executeReady, .executeReady]).log =
    [.constructed 0 5, .constructed 1 5, .called 0 6, .destroyed 0, .cancelled 1] := by
  decide

end TimerLoop

end MCoroRpc
