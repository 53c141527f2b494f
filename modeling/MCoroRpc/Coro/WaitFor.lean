/-
wait_for (include/coro/wait_for.hpp) and the timer it starts (src/timer.cc).

A `WaitFor` is the coroutine behind its `co_await task`, its timer, and the callbacks of the two that stand in the ready
queue of the loop, which is served in order. Three things happen to it, in any order: the task ends (its FinalAwaiter
puts the coroutine into the queue), the timer expires (process_expired_timeout puts its wait into the queue), and the
loop runs the callback at the front of the queue.

The callback of the timer only sets `timeout_fired`. The coroutine goes on when the task has ended, and not before.

- `Inv.returns`: when the task has ended the caller is scheduled with its outcome, and with the timer if that has expired
  before.
- `outcome_iff`: after every order of events the caller is scheduled with the outcome of the first one exactly if the
  timer does not expire before the task has ended.
-/
import MCoroRpc.Core.Machine

namespace MCoroRpc

structure WaitForResult (T : Type) where
  ok : Bool := false
  value : Option T := none
  isTimeout : Bool := false
deriving DecidableEq, Repr

/-- a timer and what its loop holds of it -/
structure Timer where
  /-- `m_cancelled` -/
  cancelled : Bool := false
  /-- `m_wait_id` -/
  waitId : ℕ := 0
  /-- `m_scheduled` has its wait -/
  scheduled : Bool := false
  /-- `m_wait_callback` has its callback -/
  registered : Bool := false
deriving DecidableEq, Repr

namespace Timer

/-- `call_at` gives `waitId` -/
def start (waitId : ℕ) (t : Timer) : Timer := { t with waitId := waitId, scheduled := true, registered := true }

/-- the loop runs its callback: the timer and whether it calls `m_callback` -/
def run (t : Timer) : Timer × Bool := if t.cancelled then (t, false) else ({ t with cancelled := true, waitId := 0 }, true)

def abort (t : Timer) : Timer :=
  if t.cancelled then t
  else if t.waitId ≠ 0 then { t with cancelled := true, scheduled := false, registered := false }
  else { t with cancelled := true }

end Timer

/-- the callbacks of a wait_for that the ready queue can hold -/
inductive Ready where
  | timer
  /-- `run` of the wait_for coroutine -/
  | coroutine
  /-- `run` of the coroutine that awaits it -/
  | caller
deriving DecidableEq, Repr

inductive WaitFor.Event (T E : Type) where
  | finished (r : Except E T)
  | expired

structure WaitFor (T E : Type) where
  /-- how the task has ended -/
  task : Option (Except E T)
  timer : Timer
  timeoutFired : Bool
  completed : Bool
  ready : List Ready
  /-- what the coroutine has returned -/
  result : Option (WaitForResult T)
  /-- what has happened first -/
  first : Option (WaitFor.Event T E)

namespace WaitFor

variable {T E : Type}

/-! ## Model -/

/-- behind the `co_await`: the result is made and the caller scheduled -/
def goOn (r : Except E T) (s : WaitFor T E) : WaitFor T E :=
  { s with
    completed := true
    timer := s.timer.abort
    ready := s.ready ++ [.caller]
    result := some <|
      match r with
      | .ok v => { ok := true, value := some v, isTimeout := s.timeoutFired }
      | .error _ => { isTimeout := s.timeoutFired } }

/-- the coroutine up to its suspension; a task that has already ended is not waited for -/
def start (waitId : ℕ) (task : Option (Except E T)) : WaitFor T E :=
  let s : WaitFor T E := ⟨task, Timer.start waitId {}, false, false, [], none, task.map .finished⟩
  match task with
  | none => s
  | some r => s.goOn r

/-- the task ends: its FinalAwaiter schedules the coroutine -/
def finish (r : Except E T) (s : WaitFor T E) : WaitFor T E :=
  match s.task with
  | none => { s with task := some r, ready := s.ready ++ [.coroutine], first := s.first.or (some (.finished r)) }
  | some _ => s

/-- process_expired_timeout takes the timer out of the heap -/
def expire (s : WaitFor T E) : WaitFor T E :=
  if s.timer.scheduled then
    { s with
      timer := { s.timer with scheduled := false }
      ready := s.ready ++ [.timer]
      first := s.first.or (some .expired) }
  else s

/-- the callback given to the timer -/
def onTimeout (s : WaitFor T E) : WaitFor T E := if s.completed then s else { s with timeoutFired := true }

/-- the loop runs the front of the ready queue -/
def execute (s : WaitFor T E) : WaitFor T E :=
  match s.ready with
  | [] => s
  | .timer :: rest =>
    if s.timer.registered then
      match { s.timer with registered := false }.run with
      | (t, true) => { s with ready := rest, timer := t }.onTimeout
      | (t, false) => { s with ready := rest, timer := t }
    else { s with ready := rest }
  | .coroutine :: rest =>
    match s.task with
    | some r => { s with ready := rest }.goOn r
    | none => { s with ready := rest }
  | .caller :: rest => { s with ready := rest }

inductive Label (T E : Type) where
  | finish (r : Except E T)
  | expire
  | execute

def step (s : WaitFor T E) : Label T E → WaitFor T E
  | .finish r => s.finish r
  | .expire => s.expire
  | .execute => s.execute

/-! ## The queue is served -/

theorem execute_ready (s : WaitFor T E) :
    s.execute.ready = s.ready.tail ∨ s.ready.head? = some .coroutine ∧ s.execute.ready = s.ready.tail ++ [.caller] := by
  unfold execute
  split
  · next h => rw [h]; exact .inl rfl
  · next h =>
    left
    rw [h]
    split_ifs
    · split
      · unfold onTimeout
        split_ifs <;> rfl
      · rfl
    · rfl
  · next h =>
    rw [h]
    split
    · exact .inr ⟨rfl, rfl⟩
    · exact .inl rfl
  · next h => rw [h]; exact .inl rfl

/-- only the coroutine puts a callback into the queue, and not itself: after so many callbacks the queue is empty -/
theorem execute_drained {s : WaitFor T E} {n : ℕ} (hn : s.ready.length + s.ready.count .coroutine ≤ n) :
    (execute^[n] s).ready = [] := by
  induction n generalizing s with
  | zero => exact List.eq_nil_of_length_eq_zero (show s.ready.length = 0 by omega)
  | succ n ih =>
    apply ih
    rcases execute_ready s with he | ⟨hx, he⟩
    · rw [he]
      cases hr : s.ready with
      | nil => simp
      | cons x rest =>
        have := List.count_le_count_cons (a := Ready.coroutine) (b := x) (l := rest)
        simp only [hr, List.length_cons] at hn
        simp only [List.tail_cons]
        omega
    · obtain ⟨rest, hr⟩ : ∃ rest, s.ready = .coroutine :: rest := by
        cases hr : s.ready with
        | nil => simp [hr] at hx
        | cons x rest =>
          rw [hr] at hx
          obtain rfl : x = .coroutine := Option.some.inj hx
          exact ⟨rest, rfl⟩
      simp only [hr, List.length_cons, List.count_cons_self] at hn
      rw [he, hr, List.tail_cons]
      simp only [List.length_append, List.length_singleton, List.count_append, List.count_singleton, reduceCtorEq,
        beq_iff_eq, if_false]
      omega

theorem execute_drains (s : WaitFor T E) : ∃ n, (execute^[n] s).ready = [] := ⟨_, execute_drained le_rfl⟩

/-! ## The outcome -/

/-- what the caller is promised -/
def Event.outcome : Event T E → WaitForResult T
  | .finished (.ok v) => { ok := true, value := some v }
  | .finished (.error _) => {}
  | .expired => { isTimeout := true }

/-- if anything has happened, the caller is scheduled with the outcome of what has happened first, as soon as the loop
has served the queue -/
def Settles (s : WaitFor T E) : Prop :=
  ∀ e, s.first = some e → ∃ n, (execute^[n] s).ready = [] ∧ (execute^[n] s).result = some e.outcome

/-- the timer expires behind the end of the task, if at all -/
def Beaten (s : WaitFor T E) : Label T E → Prop
  | .expire => s.task.isSome
  | _ => True

/-- the timer has expired before the task has ended -/
def late (s : WaitFor T E) : Bool :=
  match s.first with
  | some .expired => true
  | _ => false

/-- what the caller is told of a task that has ended with `r` -/
def told (late : Bool) (r : Except E T) : WaitForResult T := { (Event.finished r).outcome with isTimeout := late }

/-- the callback of the timer is going to set `timeout_fired` -/
structure Live (t : Timer) : Prop where
  registered : t.registered = true
  cancelled : t.cancelled = false

/-- the task has not ended -/
inductive Waits (s : WaitFor T E) : Prop where
  | armed (first : s.first = none) (ready : s.ready = []) (fired : s.timeoutFired = false) (live : Live s.timer)
      (scheduled : s.timer.scheduled = true) (completed : s.completed = false)
  | due (late : s.late = true) (ready : s.ready = [.timer]) (live : Live s.timer)
      (scheduled : s.timer.scheduled = false) (completed : s.completed = false)
  | fired (late : s.late = true) (ready : s.ready = []) (fired : s.timeoutFired = true)
      (scheduled : s.timer.scheduled = false)

/-- the task has ended and the coroutine is in the queue -/
inductive Wakes (s : WaitFor T E) : Prop where
  | next (rest : List Ready) (ready : s.ready = .coroutine :: rest) (hrest : ∀ x ∈ rest, x = .timer)
      (fired : s.timeoutFired = s.late)
  | second (ready : s.ready = [.timer, .coroutine]) (late : s.late = true) (live : Live s.timer)
      (scheduled : s.timer.scheduled = false) (completed : s.completed = false)

/-- what holds after every order of events -/
structure Inv (s : WaitFor T E) : Prop where
  waits : s.task = none → s.result = none ∧ Waits s
  ended : ∀ r, s.task = some r → s.first.isSome ∧ (s.late = false → s.first = some (.finished r)) ∧
    (s.result = none ∧ Wakes s ∨ s.result = some (told s.late r) ∧ .coroutine ∉ s.ready)

variable {s : WaitFor T E}

theorem execute_empty (h : s.ready = []) : s.execute = s := by
  simp only [execute, h]

theorem execute_task (s : WaitFor T E) : s.execute.task = s.task ∧ s.execute.first = s.first := by
  unfold execute
  split
  · exact ⟨rfl, rfl⟩
  · split_ifs
    · split
      · unfold onTimeout
        split_ifs <;> exact ⟨rfl, rfl⟩
      · exact ⟨rfl, rfl⟩
    · exact ⟨rfl, rfl⟩
  · split
    · next r hr => exact ⟨rfl, rfl⟩
    · exact ⟨rfl, rfl⟩
  · exact ⟨rfl, rfl⟩

theorem iterate_execute_task (s : WaitFor T E) (n : ℕ) :
    (execute^[n] s).task = s.task ∧ (execute^[n] s).first = s.first := by
  induction n generalizing s with
  | zero => exact ⟨rfl, rfl⟩
  | succ n ih =>
    obtain ⟨ht, hf⟩ := ih s.execute
    exact ⟨ht.trans (execute_task s).1, hf.trans (execute_task s).2⟩

/-- no callback but the coroutine makes or changes the result -/
theorem execute_keeps (hr : .coroutine ∉ s.ready) :
    s.execute.result = s.result ∧ .coroutine ∉ s.execute.ready := by
  constructor
  · unfold execute
    split
    · rfl
    · split_ifs
      · split
        · unfold onTimeout
          split_ifs <;> rfl
        · rfl
      · rfl
    · next h => exact absurd (by rw [h]; exact List.mem_cons_self) hr
    · rfl
  · rcases execute_ready s with he | ⟨hx, -⟩
    · rw [he]
      exact fun hmem => hr (List.mem_of_mem_tail hmem)
    · exact absurd (List.mem_of_mem_head? hx) hr

theorem goOn_result (r : Except E T) : (s.goOn r).result = some (told s.timeoutFired r) := by
  cases r <;> rfl

/-- a callback takes itself out of the queue; the coroutine makes the result and schedules the caller -/
theorem execute_result (s : WaitFor T E) : s.execute.result = s.result ∧ s.execute.ready = s.ready.tail ∨
    s.execute.result.isSome ∧ .caller ∈ s.execute.ready := by
  unfold execute
  split
  · next h => rw [h]; exact .inl ⟨rfl, rfl⟩
  · next h =>
    left
    rw [h]
    split_ifs
    · split
      · unfold onTimeout
        split_ifs <;> exact ⟨rfl, rfl⟩
      · exact ⟨rfl, rfl⟩
    · exact ⟨rfl, rfl⟩
  · next h =>
    rw [h]
    split
    · next r hr => exact .inr ⟨by cases r <;> rfl, by simp [goOn]⟩
    · exact .inl ⟨rfl, rfl⟩
  · next h => rw [h]; exact .inl ⟨rfl, rfl⟩

theorem late_iff : s.late = true ↔ s.first = some .expired := by
  unfold late
  split
  · next h => simp [h]
  · next h => simpa using h

theorem late_congr {s' : WaitFor T E} (h : s'.first = s.first) : s'.late = s.late := by
  simp only [late, h]

theorem finish_late (r : Except E T) (s : WaitFor T E) : (s.finish r).late = s.late := by
  unfold finish
  split
  · cases hfirst : s.first <;> simp [late, hfirst]
  · rfl

theorem expire_late {e : Event T E} (h : s.first = some e) : s.expire.late = s.late := by
  unfold expire
  split_ifs
  · exact late_congr (by rw [h, Option.or])
  · rfl

theorem expire_ready (s : WaitFor T E) : s.expire.result = s.result ∧ s.expire.task = s.task ∧
    (.caller ∈ s.expire.ready ↔ .caller ∈ s.ready) := by
  unfold expire
  split_ifs
  · exact ⟨rfl, rfl, by simp⟩
  · exact ⟨rfl, rfl, Iff.rfl⟩

/-- the timer at the front of the queue -/
theorem execute_timer {rest : List Ready} (hr : s.ready = .timer :: rest) (hl : Live s.timer)
    (hc : s.completed = false) :
    s.execute = { s with
      ready := rest
      timer := { s.timer with registered := false, cancelled := true, waitId := 0 }
      timeoutFired := true } := by
  simp [execute, hr, hl.registered, hl.cancelled, hc, Timer.run, onTimeout]

theorem execute_inv (h : Inv s) : Inv s.execute := by
  obtain ⟨et, ef⟩ := execute_task s
  have el := late_congr ef
  refine ⟨?_, ?_⟩
  · intro ht
    rw [et] at ht
    obtain ⟨hres, hw⟩ := h.waits ht
    cases hw with
    | armed hfirst hready hfired hlive hsched hc =>
      rw [execute_empty hready]
      exact ⟨hres, .armed hfirst hready hfired hlive hsched hc⟩
    | due hlate hready hlive hsched hc =>
      have he := execute_timer hready hlive hc
      rw [he]
      exact ⟨hres, .fired hlate rfl rfl hsched⟩
    | fired hlate hready hfired hsched =>
      rw [execute_empty hready]
      exact ⟨hres, .fired hlate hready hfired hsched⟩
  · intro r hr
    rw [et] at hr
    obtain ⟨hsome, hfin, h'⟩ := h.ended r hr
    rw [ef, el]
    refine ⟨hsome, hfin, ?_⟩
    rcases h' with ⟨hres, hw⟩ | ⟨hres, hready⟩
    · cases hw with
      | next rest hready hrest hfired =>
        right
        have he : s.execute = { s with ready := rest }.goOn r := by
          simp only [execute, hready, hr]
        rw [he, goOn_result, ← hfired]
        refine ⟨rfl, ?_⟩
        intro hmem
        rcases List.mem_append.1 hmem with hmem | hmem
        · exact absurd (hrest _ hmem) (by simp)
        · exact absurd (List.mem_singleton.1 hmem) (by simp)
      | second hready hlate hlive hsched hc =>
        left
        have he := execute_timer hready hlive hc
        rw [he]
        exact ⟨hres, .next [] rfl (fun _ hx => absurd hx List.not_mem_nil) hlate.symm⟩
    · obtain ⟨er, hready'⟩ := execute_keeps hready
      exact .inr ⟨er.trans hres, hready'⟩

theorem finish_inv (h : Inv s) (r : Except E T) : Inv (s.finish r) := by
  cases htask : s.task with
  | some r' =>
    simp only [finish, htask]
    exact h
  | none =>
    obtain ⟨hres, hw⟩ := h.waits htask
    simp only [finish, htask]
    refine ⟨fun hn => (by cases hn), ?_⟩
    intro r' hr'
    obtain rfl : r = r' := Option.some.inj hr'
    cases hw with
    | armed hfirst hready hfired hlive hsched hc =>
      rw [hfirst, hready]
      exact ⟨rfl, fun _ => rfl, .inl ⟨hres, .next [] rfl (fun _ hx => absurd hx List.not_mem_nil) hfired⟩⟩
    | due hlate hready hlive hsched hc =>
      rw [late_iff.1 hlate, hready]
      exact ⟨rfl, fun hn => (by cases hn), .inl ⟨hres, .second rfl rfl hlive hsched hc⟩⟩
    | fired hlate hready hfired hsched =>
      rw [late_iff.1 hlate, hready]
      exact ⟨rfl, fun hn => (by cases hn), .inl ⟨hres, .next [] rfl (fun _ hx => absurd hx List.not_mem_nil) hfired⟩⟩

theorem expire_inv (h : Inv s) : Inv s.expire := by
  unfold expire
  split_ifs with hs
  · refine ⟨?_, ?_⟩
    · intro ht
      obtain ⟨hres, hw⟩ := h.waits ht
      refine ⟨hres, ?_⟩
      cases hw with
      | armed hfirst hready hfired hlive hsched hc =>
        rw [hfirst, hready]
        exact .due rfl rfl ⟨hlive.registered, hlive.cancelled⟩ rfl hc
      | due hlate hready hlive hsched hc =>
        rw [hs] at hsched
        cases hsched
      | fired hlate hready hfired hsched =>
        rw [hs] at hsched
        cases hsched
    · intro r hr
      obtain ⟨hsome, hfin, h'⟩ := h.ended r hr
      obtain ⟨e, he⟩ := Option.isSome_iff_exists.1 hsome
      have hor : s.first.or (some .expired) = s.first := by rw [he, Option.or]
      rw [hor]
      refine ⟨hsome, hfin, ?_⟩
      rcases h' with ⟨hres, hw⟩ | ⟨hres, hready⟩
      · left
        refine ⟨hres, ?_⟩
        cases hw with
        | next rest hready hrest hfired =>
          refine .next (rest ++ [.timer]) (by rw [hready]; rfl) ?_ hfired
          intro x hx
          rcases List.mem_append.1 hx with hx | hx
          · exact hrest x hx
          · exact List.mem_singleton.1 hx
        | second hready hlate hlive hsched hc =>
          rw [hs] at hsched
          cases hsched
      · exact .inr ⟨hres, by simpa using hready⟩
  · exact h

theorem step_inv (h : Inv s) (l : Label T E) : Inv (s.step l) := by
  cases l with
  | finish r => exact finish_inv h r
  | expire => exact expire_inv h
  | execute => exact execute_inv h

theorem iterate_inv (h : Inv s) (n : ℕ) : Inv (execute^[n] s) := by
  induction n generalizing s with
  | zero => exact h
  | succ n ih => exact ih (execute_inv h)

/-- the task has ended and the queue is served -/
theorem Inv.result (h : Inv s) {r : Except E T} (hr : s.task = some r) {n : ℕ} (hn : (execute^[n] s).ready = []) :
    (execute^[n] s).result = some (told s.late r) := by
  obtain ⟨et, ef⟩ := iterate_execute_task s n
  obtain ⟨-, -, h'⟩ := (iterate_inv h n).ended r (et.trans hr)
  rcases h' with ⟨-, hw⟩ | ⟨hres, -⟩
  · cases hw with
    | next rest hready => cases hn.symm.trans hready
    | second hready => cases hn.symm.trans hready
  · rw [hres, late_congr ef]

/-- **What wait_for returns**: when the task has ended, the caller is scheduled with its value or its failure, and with
the timer if that has expired before -/
theorem Inv.returns (h : Inv s) {r : Except E T} (hr : s.task = some r) :
    ∃ n, (execute^[n] s).ready = [] ∧ (execute^[n] s).result = some (told s.late r) := by
  obtain ⟨n, hn⟩ := execute_drains s
  exact ⟨n, hn, h.result hr hn⟩

theorem Inv.settles (h : Inv s) (hlate : s.late = false) : Settles s := by
  intro e he
  cases htask : s.task with
  | none =>
    obtain ⟨-, hw⟩ := h.waits htask
    cases hw with
    | armed hfirst => cases hfirst.symm.trans he
    | due hl => cases hlate.symm.trans hl
    | fired hl => cases hlate.symm.trans hl
  | some r =>
    obtain ⟨-, hfin, -⟩ := h.ended r htask
    obtain rfl : e = .finished r := Option.some.inj (he.symm.trans (hfin hlate))
    obtain ⟨n, hn, hres⟩ := h.returns htask
    rw [hlate] at hres
    refine ⟨n, hn, hres.trans ?_⟩
    cases r <;> rfl

/-- as long as the task has not ended the caller is not scheduled -/
theorem Inv.unsettled (h : Inv s) (htask : s.task = none) (hlate : s.late = true) : ¬ Settles s := by
  intro hs
  obtain ⟨n, -, hres⟩ := hs .expired (late_iff.1 hlate)
  obtain ⟨hnone, -⟩ := (iterate_inv h n).waits ((iterate_execute_task s n).1.trans htask)
  cases hnone.symm.trans hres

theorem Inv.expired (h : Inv s) (htask : s.task = none) : s.expire.late = true := by
  obtain ⟨-, hw⟩ := h.waits htask
  cases hw with
  | armed hfirst hready hfired hlive hsched hc => simp [expire, hsched, hfirst, late]
  | due hlate hready hlive hsched hc => simp [expire, hsched, hlate]
  | fired hlate hready hfired hsched => simp [expire, hsched, hlate]

/-- an event behind the end of the task is not the first one -/
theorem step_on_time (h : Inv s) (hlate : s.late = false) {l : Label T E} (hb : Beaten s l) : (s.step l).late = false := by
  cases l with
  | execute => exact (late_congr (execute_task s).2).trans hlate
  | expire =>
    obtain ⟨r, htask⟩ := Option.isSome_iff_exists.1 hb
    obtain ⟨-, hfin, -⟩ := h.ended r htask
    exact (expire_late (hfin hlate)).trans hlate
  | finish r => exact (finish_late r s).trans hlate

theorem start_inv (waitId : ℕ) (task : Option (Except E T)) :
    Inv (start waitId task) ∧ (start waitId task).late = false := by
  cases task with
  | none => exact ⟨⟨fun _ => ⟨rfl, .armed rfl rfl rfl ⟨rfl, rfl⟩ rfl rfl⟩, fun r hr => by cases hr⟩, rfl⟩
  | some r =>
    refine ⟨⟨fun hn => (by cases hn), ?_⟩, rfl⟩
    intro r' hr'
    obtain rfl : r = r' := Option.some.inj hr'
    exact ⟨rfl, fun _ => rfl, .inr ⟨goOn_result r, by simp [start, goOn]⟩⟩

/-- **Outcome**: after every order of events the caller is scheduled with the outcome of the first one, exactly if the
timer does not expire before the task has ended -/
theorem outcome_iff (waitId : ℕ) (task : Option (Except E T)) (ls : List (Label T E)) :
    (∀ n, Settles (Machine.run step (start waitId task) (ls.take n))) ↔
      Machine.Along step Beaten (start waitId task) ls := by
  refine Machine.along_iff (L := fun _ => True) (I := fun s => Inv s ∧ s.late = false) (fun _ h => h.1.settles h.2)
    ?_ ?_ (start_inv waitId task) (fun _ _ => trivial)
  · intro s l _ ⟨h, hlate⟩ hb
    exact ⟨step_inv h l, step_on_time h hlate hb⟩
  · intro s l _ ⟨h, _⟩ hb
    cases l with
    | expire =>
      have htask := Option.not_isSome_iff_eq_none.1 hb
      exact (expire_inv h).unsettled ((expire_ready s).2.1.trans htask) (h.expired htask)
    | _ => exact absurd trivial hb

/-- the timer expires, and the task ends behind it or never: until then the caller is not scheduled, and then it is told
of both -/
theorem late_and_both :
    (¬ ∀ n, Settles (Machine.run step (start 1 none : WaitFor ℕ Unit)
      (([.expire, .execute, .finish (.ok 7), .execute] : List (Label ℕ Unit)).take n))) ∧
    (Machine.run step (start 1 none : WaitFor ℕ Unit) [.expire, .execute, .finish (.ok 7), .execute]).result =
      some { ok := true, value := some 7, isTimeout := true } :=
  ⟨fun h => (expire_inv (start_inv 1 none).1).unsettled rfl rfl (h 1), rfl⟩

end WaitFor

end MCoroRpc
