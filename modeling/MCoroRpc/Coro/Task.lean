/-
Coroutines that await tasks (include/coro/task.hpp, include/coro/taskresult.hpp).

A `Prog` is the body of a coroutine that returns, throws or awaits a task that it has just made; what it does next may
depend on how the task ends. `eval` is the same program with calls in the place of tasks.

In a `Runtime` a promise is named by its place, which is also its id for the event loop; a callback of the loop resumes
the promise that it names. A coroutine runs up to its next await, so one turn of the loop is one `resume`.

Main results:
- `exec_reach`: a body runs to its end with the result of its evaluation, whatever other coroutines there are.
- `refines_eval`: scheduling a task and running the loop until its queue is empty.
-/
import MCoroRpc.Core.Loop
import MCoroRpc.Coro.Eventloop

namespace MCoroRpc

/-- the body of a coroutine -/
inductive Prog (V E : Type) where
  | coReturn (v : V)
  | throw (e : E)
  /-- co_await of a new task; the result or the exception goes into the rest -/
  | coAwait (child : Prog V E) (rest : Except E V → Prog V E)

namespace Prog

variable {V E : Type}

/-- ordinary nested calls -/
def eval : Prog V E → Except E V
  | .coReturn v => .ok v
  | .throw e => .error e
  | .coAwait child rest => (rest child.eval).eval

/-- the bodies that a call enters behind its own, in order -/
def calls : Prog V E → List (Prog V E)
  | .coReturn _ => []
  | .throw _ => []
  | .coAwait child rest => child :: child.calls ++ (rest child.eval).calls

end Prog

/-- `Handle::State` -/
inductive HandleState where
  | unschedule
  | schedule
  | cancelled
  | suspend
deriving DecidableEq, Repr

/-- where a coroutine stands -/
inductive Phase (V E : Type) where
  /-- at its initial suspend -/
  | initial (body : Prog V E)
  | running
  | awaiting (child : ℕ) (rest : Except E V → Prog V E)
  /-- at its final suspend -/
  | final

structure Promise (V E : Type) where
  state : HandleState := .unschedule
  parent : Option ℕ := none
  /-- `m_result`: empty, a value or an exception -/
  result : Option (Except E V) := none
  phase : Phase V E

/-- a coroutine is resumed that cannot be -/
inductive TaskFault where
  | resumed
deriving DecidableEq, Repr

structure Runtime (V E : Type) where
  loop : Eventloop ℕ
  promises : List (Promise V E)
  /-- the bodies that have been entered, in order, and their promises -/
  entered : List (Prog V E × ℕ)

namespace Runtime

variable {V E : Type}

/-- `CoroHandle::schedule` -/
def schedule (i : ℕ) (s : Runtime V E) : Runtime V E :=
  match s.promises[i]? with
  | some p => if p.state = .unschedule then { s with loop := (s.loop.callSoon i i).2 } else s
  | none => s

/-- the result is set and the coroutine comes to its final suspend, which schedules the parent -/
def finish (i : ℕ) (r : Except E V) (s : Runtime V E) : Runtime V E :=
  let promises := s.promises.modify i fun p => { p with result := some r, phase := .final }
  match s.promises[i]? with
  | some { parent := some parent, .. } =>
    { s with
      promises := promises.modify parent fun p => { p with state := .schedule }
      loop := (s.loop.callSoon parent parent).2 }
  | _ => { s with promises := promises }

/-- a body runs in the coroutine `i` up to its next await or to its end -/
def exec (i : ℕ) (body : Prog V E) (s : Runtime V E) : Runtime V E :=
  match body with
  | .coReturn v => s.finish i (.ok v)
  | .throw e => s.finish i (.error e)
  | .coAwait child rest =>
    let j := s.promises.length
    let promises := s.promises ++ [{ phase := .initial child }]
    let promises := promises.modify i fun p => { p with state := .suspend, phase := .awaiting j rest }
    let promises := promises.modify j fun p => { p with parent := some i }
    schedule j { s with promises := promises }

/-- `TaskResult::get_result`; `noResult` is the std::runtime_error of a result that has not been set -/
def getResult (noResult : E) (i : ℕ) (s : Runtime V E) : Except E V :=
  match s.promises[i]? with
  | some { result := some r, .. } => r
  | _ => .error noResult

def setRunning (i : ℕ) (s : Runtime V E) : Runtime V E :=
  { s with promises := s.promises.modify i fun p => { p with phase := .running } }

/-- `Promise::run` -/
def resume (noResult : E) (i : ℕ) (s : Runtime V E) : Except TaskFault (Runtime V E) :=
  match s.promises[i]? with
  | some { phase := .initial body, .. } => .ok (exec i body { s.setRunning i with entered := s.entered ++ [(body, i)] })
  | some { phase := .awaiting child rest, .. } => .ok (exec i (rest (s.getResult noResult child)) (s.setRunning i))
  | _ => .error .resumed

/-- one round of execute_ready_callback -/
def turn (noResult : E) (s : Runtime V E) : Except TaskFault (Runtime V E ⊕ Runtime V E) :=
  if s.loop.readyQueue = [] then .ok (.inr s)
  else
    match s.loop.executeReady with
    | (none, loop) => .ok (.inl { s with loop := loop })
    | (some cb, loop) => (resume noResult cb.userCb { s with loop := loop }).map .inl

/-- a new task that has been scheduled -/
def start (body : Prog V E) : Runtime V E := schedule 0 ⟨.make, [{ phase := .initial body }], []⟩

/-! ## One turn -/

variable {noResult : E} {s : Runtime V E} {i : ℕ}

/-- a callback of call_soon in an empty queue runs next -/
theorem turn_soon {loop : Eventloop ℕ} (h : loop.Inv) (hq : loop.readyQueue = []) (i : ℕ) :
    ∃ loop' : Eventloop ℕ, loop'.Inv ∧ loop'.readyQueue = [] ∧ ∀ promises entered,
      turn noResult (⟨(loop.callSoon i i).2, promises, entered⟩ : Runtime V E) =
        (resume noResult i ⟨loop', promises, entered⟩).map .inl := by
  have hsoon := Eventloop.callSoon_inv h i i
  have hready : (loop.callSoon i i).2.readyQueue = [loop.nextWaitId] := by
    simp [Eventloop.callSoon, hq]
  have hcb : (loop.callSoon i i).2.waitCallback.lookup loop.nextWaitId = some ⟨i, loop.nextWaitId, i⟩ :=
    Finmap.lookup_insert _
  refine ⟨(loop.callSoon i i).2.executeReady.2, Eventloop.executeReady_inv hsoon, ?_, ?_⟩
  · simp only [Eventloop.executeReady, hready, hcb]
  · intro promises entered
    have hne : (loop.callSoon i i).2.readyQueue ≠ [] := by
      rw [hready]
      exact List.cons_ne_nil _ _
    simp only [turn, hne, if_false]
    simp only [Eventloop.executeReady, hready, hcb]

/-- a coroutine that awaits a new task: the task is scheduled -/
theorem exec_await (child : Prog V E) (rest : Except E V → Prog V E) {p : Promise V E} (hi : s.promises[i]? = some p) :
    ∃ promises : List (Promise V E), exec i (.coAwait child rest) s =
        ⟨(s.loop.callSoon s.promises.length s.promises.length).2, promises, s.entered⟩ ∧
      promises.length = s.promises.length + 1 ∧
      promises[s.promises.length]? = some { parent := some i, phase := .initial child } ∧
      promises[i]? = some { p with state := .suspend, phase := .awaiting s.promises.length rest } ∧
      ∀ k < s.promises.length, k ≠ i → promises[k]? = s.promises[k]? := by
  obtain ⟨hlt, -⟩ := List.getElem?_eq_some_iff.1 hi
  have hne : s.promises.length ≠ i := Nat.ne_of_gt hlt
  set n := s.promises.length with hn
  set promises := ((s.promises ++ ([{ phase := .initial child }] : List (Promise V E))).modify i fun p =>
      { p with state := .suspend, phase := .awaiting n rest }).modify n fun p => { p with parent := some i } with hp
  have hchild : promises[n]? = some { parent := some i, phase := .initial child } := by
    rw [hp, List.getElem?_modify_eq, List.getElem?_modify_ne _ _ hne.symm, hn, List.getElem?_concat_length]
    rfl
  refine ⟨promises, ?_, ?_, hchild, ?_, ?_⟩
  · simp only [exec, schedule, ← hn, ← hp, hchild, if_true]
  · rw [hp, List.length_modify, List.length_modify, List.length_append, List.length_singleton]
  · rw [hp, List.getElem?_modify_ne _ _ hne, List.getElem?_modify_eq, List.getElem?_append_left hlt, hi]
    rfl
  · intro k hk hki
    rw [hp, List.getElem?_modify_ne _ _ (Nat.ne_of_gt hk), List.getElem?_modify_ne _ _ (Ne.symm hki),
      List.getElem?_append_left hk]

/-- a task that ends: its parent is scheduled -/
theorem finish_parent {p q : Promise V E} {j : ℕ} {r : Except E V} (hj : s.promises[j]? = some q)
    (hparent : q.parent = some i) (hi : s.promises[i]? = some p) (hne : i ≠ j) :
    ∃ promises : List (Promise V E), s.finish j r = ⟨(s.loop.callSoon i i).2, promises, s.entered⟩ ∧
      promises.length = s.promises.length ∧ promises[j]? = some { q with result := some r, phase := .final } ∧
      promises[i]? = some { p with state := .schedule } ∧
      ∀ k, k ≠ i → k ≠ j → promises[k]? = s.promises[k]? := by
  set promises := (s.promises.modify j fun p => { p with result := some r, phase := .final }).modify i fun p =>
    { p with state := .schedule } with hp
  refine ⟨promises, ?_, ?_, ?_, ?_, ?_⟩
  · obtain ⟨state, parent, result, phase⟩ := q
    obtain rfl : parent = some i := hparent
    simp only [finish, hj, ← hp]
  · rw [hp, List.length_modify, List.length_modify]
  · rw [hp, List.getElem?_modify_ne _ _ hne, List.getElem?_modify_eq, hj]
    rfl
  · rw [hp, List.getElem?_modify_eq, List.getElem?_modify_ne _ _ hne.symm, hi]
    rfl
  · intro k hki hkj
    rw [hp, List.getElem?_modify_ne _ _ hki.symm, List.getElem?_modify_ne _ _ hkj.symm]

theorem setRunning_self {p : Promise V E} (hi : s.promises[i]? = some p) :
    (s.setRunning i).promises[i]? = some { p with phase := .running } := by
  simp [setRunning, hi]

theorem setRunning_other {k : ℕ} (h : k ≠ i) : (s.setRunning i).promises[k]? = s.promises[k]? :=
  List.getElem?_modify_ne _ _ h.symm

theorem setRunning_length : (s.setRunning i).promises.length = s.promises.length := List.length_modify _ _ _

theorem resume_initial {p : Promise V E} {body : Prog V E} (hi : s.promises[i]? = some p)
    (hp : p.phase = .initial body) :
    resume noResult i s = .ok (exec i body { s.setRunning i with entered := s.entered ++ [(body, i)] }) := by
  obtain ⟨state, parent, result, phase⟩ := p
  obtain rfl : phase = .initial body := hp
  simp only [resume, hi]

theorem resume_awaiting {p q : Promise V E} {child : ℕ} {rest : Except E V → Prog V E} {r : Except E V}
    (hi : s.promises[i]? = some p) (hp : p.phase = .awaiting child rest) (hchild : s.promises[child]? = some q)
    (hr : q.result = some r) : resume noResult i s = .ok (exec i (rest r) (s.setRunning i)) := by
  obtain ⟨state, parent, result, phase⟩ := p
  obtain rfl : phase = .awaiting child rest := hp
  obtain ⟨state', parent', result', phase'⟩ := q
  obtain rfl : result' = some r := hr
  simp only [resume, hi, getResult, hchild]

/-- the turn in which a task begins that the coroutine `i` awaits -/
structure Begins (i : ℕ) (p : Promise V E) (child : Prog V E) (rest : Except E V → Prog V E) (s s' : Runtime V E) :
    Prop where
  inv : s'.loop.Inv
  queue : s'.loop.readyQueue = []
  length : s'.promises.length = s.promises.length + 1
  task : s'.promises[s.promises.length]? = some { parent := some i, phase := .running }
  self : s'.promises[i]? = some { p with state := .suspend, phase := .awaiting s.promises.length rest }
  others : ∀ k < s.promises.length, k ≠ i → s'.promises[k]? = s.promises[k]?
  entered : s'.entered = s.entered ++ [(child, s.promises.length)]

theorem exec_begins (noResult : E) (child : Prog V E) (rest : Except E V → Prog V E) {p : Promise V E} (h : s.loop.Inv)
    (hq : s.loop.readyQueue = []) (hi : s.promises[i]? = some p) :
    ∃ s', Begins i p child rest s s' ∧
      Loop.Turn (turn noResult) (exec i (.coAwait child rest) s) (exec s.promises.length child s') := by
  obtain ⟨hlt, -⟩ := List.getElem?_eq_some_iff.1 hi
  obtain ⟨promises, hexec, hlen, hchild, hself, hothers⟩ := exec_await child rest hi
  obtain ⟨loop', hinv, hqueue, hturn⟩ := @turn_soon V E noResult s.loop h hq s.promises.length
  set s1 : Runtime V E := ⟨loop', promises, s.entered⟩
  have htask : (s1.setRunning s.promises.length).promises[s.promises.length]? =
      some { parent := some i, phase := .running } := by rw [setRunning_self hchild]
  refine ⟨{ s1.setRunning s.promises.length with entered := s.entered ++ [(child, s.promises.length)] },
    ⟨hinv, hqueue, setRunning_length.trans hlen, htask, ?_, ?_, rfl⟩, ?_⟩
  · exact (setRunning_other (Nat.ne_of_lt hlt)).trans hself
  · exact fun k hk hki => (setRunning_other (Nat.ne_of_lt hk)).trans (hothers k hk hki)
  · unfold Loop.Turn
    rw [hexec, hturn, resume_initial (s := s1) hchild rfl]
    rfl

/-- the turn in which the coroutine `i` goes on behind the task `j`, which has ended with `r` -/
structure Returns (i j : ℕ) (p q : Promise V E) (r : Except E V) (s s' : Runtime V E) : Prop where
  inv : s'.loop.Inv
  queue : s'.loop.readyQueue = []
  length : s'.promises.length = s.promises.length
  task : s'.promises[j]? = some { q with result := some r, phase := .final }
  self : s'.promises[i]? = some { p with state := .schedule, phase := .running }
  others : ∀ k, k ≠ i → k ≠ j → s'.promises[k]? = s.promises[k]?
  entered : s'.entered = s.entered

theorem finish_returns (noResult : E) {p q : Promise V E} {j : ℕ} {rest : Except E V → Prog V E} {r : Except E V}
    (h : s.loop.Inv) (hq : s.loop.readyQueue = []) (hj : s.promises[j]? = some q) (hparent : q.parent = some i)
    (hi : s.promises[i]? = some p) (hp : p.phase = .awaiting j rest) (hne : i ≠ j) :
    ∃ s', Returns i j p q r s s' ∧ Loop.Turn (turn noResult) (s.finish j r) (exec i (rest r) s') := by
  obtain ⟨promises, hfinish, hlen, htask, hself, hothers⟩ := finish_parent (r := r) hj hparent hi hne
  obtain ⟨loop', hinv, hqueue, hturn⟩ := @turn_soon V E noResult s.loop h hq i
  set s1 : Runtime V E := ⟨loop', promises, s.entered⟩
  have hgoesOn : (s1.setRunning i).promises[i]? = some { p with state := .schedule, phase := .running } := by
    rw [setRunning_self hself]
  refine ⟨s1.setRunning i, ⟨hinv, hqueue, setRunning_length.trans hlen, (setRunning_other hne.symm).trans htask, hgoesOn,
    ?_, rfl⟩, ?_⟩
  · exact fun k hki hkj => (setRunning_other hki).trans (hothers k hki hkj)
  · unfold Loop.Turn
    rw [hfinish, hturn, resume_awaiting (s := s1) hself hp htask rfl]
    rfl

/-! ## A whole body -/

/-- what a body leaves when it has come to its end in the coroutine `i`: the tasks it has awaited are done, and nothing
else has changed -/
structure Leaves (i : ℕ) (body : Prog V E) (s s' : Runtime V E) : Prop where
  inv : s'.loop.Inv
  queue : s'.loop.readyQueue = []
  length : s'.promises.length = s.promises.length + body.calls.length
  self : ∀ p, s.promises[i]? = some p → ∃ state, s'.promises[i]? = some { p with state := state }
  others : ∀ k < s.promises.length, k ≠ i → s'.promises[k]? = s.promises[k]?
  tasks : ∀ k q, s.promises.length ≤ k → s'.promises[k]? = some q → q.phase = .final
  entered : s'.entered = s.entered ++ body.calls.zipIdx s.promises.length

theorem leaves_refl {body : Prog V E} (h : s.loop.Inv) (hq : s.loop.readyQueue = []) (hcalls : body.calls = []) :
    Leaves i body s s where
  inv := h
  queue := hq
  length := by rw [hcalls]; rfl
  self := fun p hp => ⟨p.state, hp⟩
  others := fun _ _ _ => rfl
  tasks := by
    intro k q hk hq'
    rw [List.getElem?_eq_none hk] at hq'
    cases hq'
  entered := by rw [hcalls, List.zipIdx_nil, List.append_nil]

/-- **One body**: it runs to its end with the result of its evaluation, and has entered the bodies that the evaluation
enters -/
theorem exec_reach (noResult : E) (body : Prog V E) {s : Runtime V E} {i : ℕ} {p : Promise V E} (h : s.loop.Inv)
    (hq : s.loop.readyQueue = []) (hi : s.promises[i]? = some p) (hp : p.phase = .running) :
    ∃ s', Leaves i body s s' ∧ Loop.Reach (turn noResult) (exec i body s) (s'.finish i body.eval) := by
  induction body generalizing s i p with
  | coReturn v => exact ⟨s, leaves_refl h hq rfl, Loop.Reach.refl _⟩
  | throw e => exact ⟨s, leaves_refl h hq rfl, Loop.Reach.refl _⟩
  | coAwait child rest ihchild ihrest =>
    obtain ⟨hlt, -⟩ := List.getElem?_eq_some_iff.1 hi
    -- the task begins
    obtain ⟨s1, hbegins, hbegin⟩ := exec_begins noResult child rest h hq hi
    set n := s.promises.length with hn
    obtain ⟨s2, hleaves2, hreach2⟩ := ihchild hbegins.inv hbegins.queue hbegins.task rfl
    obtain ⟨state2, hn2⟩ := hleaves2.self _ hbegins.task
    have hi2 : s2.promises[i]? = some { p with state := .suspend, phase := .awaiting n rest } := by
      rw [hleaves2.others i (by rw [hbegins.length]; omega) (Nat.ne_of_lt hlt)]
      exact hbegins.self
    -- the task ends and its parent goes on
    obtain ⟨s3, hreturns, hback⟩ :=
      finish_returns noResult (r := child.eval) hleaves2.inv hleaves2.queue hn2 rfl hi2 rfl (Nat.ne_of_lt hlt)
    have hlen3 : s3.promises.length = n + 1 + child.calls.length := by
      calc s3.promises.length = s2.promises.length := hreturns.length
        _ = s1.promises.length + child.calls.length := hleaves2.length
        _ = n + 1 + child.calls.length := by rw [hbegins.length]
    obtain ⟨s4, hleaves4, hreach4⟩ := ihrest child.eval hreturns.inv hreturns.queue hreturns.self rfl
    refine ⟨s4, ⟨hleaves4.inv, hleaves4.queue, ?_, ?_, ?_, ?_, ?_⟩,
      (Loop.Reach.head hbegin hreach2).trans (Loop.Reach.head hback hreach4)⟩
    · rw [hleaves4.length, hlen3]
      simp only [Prog.calls, List.length_cons, List.length_append]
      omega
    · intro p' hp'
      obtain rfl : p = p' := Option.some.inj (hi.symm.trans hp')
      obtain ⟨state4, hi4⟩ := hleaves4.self _ hreturns.self
      exact ⟨state4, by rw [hi4, ← hp]⟩
    · intro k hk hki
      have hkn : k ≠ n := Nat.ne_of_lt hk
      calc s4.promises[k]? = s3.promises[k]? := hleaves4.others k (by rw [hlen3]; omega) hki
        _ = s2.promises[k]? := hreturns.others k hki hkn
        _ = s1.promises[k]? := hleaves2.others k (by rw [hbegins.length]; omega) hkn
        _ = s.promises[k]? := hbegins.others k hk hki
    · intro k q hk hq'
      by_cases hk3 : s3.promises.length ≤ k
      · exact hleaves4.tasks k q hk3 hq'
      · have hki : k ≠ i := by omega
        rw [hleaves4.others k (by omega) hki] at hq'
        by_cases hkn : k = n
        · rw [hkn] at hq'
          rw [← Option.some.inj (hreturns.task.symm.trans hq')]
        · rw [hreturns.others k hki hkn] at hq'
          exact hleaves2.tasks k q (by rw [hbegins.length]; omega) hq'
    · rw [hleaves4.entered, hreturns.entered, hleaves2.entered, hbegins.entered, hlen3, hbegins.length]
      simp only [Prog.calls, List.zipIdx_append, List.zipIdx_cons, List.append_assoc, List.cons_append, List.nil_append,
        ← hn]

/-- **Refinement**: a task that is scheduled runs with every task that it awaits until the queue is empty; then each body
has been entered once, in the order of the nested calls, each coroutine is done, and the task holds the result of its
evaluation -/
theorem refines_eval (noResult : E) (body : Prog V E) :
    ∃ s, Loop.Ends (turn noResult) (start body) (.ok s) ∧ s.loop.readyQueue = [] ∧
      (∃ p, s.promises[0]? = some p ∧ p.phase = .final ∧ p.result = some body.eval) ∧
      s.entered.map Prod.fst = body :: body.calls ∧ s.entered.map Prod.snd = List.range s.promises.length ∧
      ∀ p ∈ s.promises, p.phase = .final := by
  have h0 : (Eventloop.make : Eventloop ℕ).Inv := Eventloop.make_inv
  obtain ⟨loop1, hinv1, hq1, hturn1⟩ := @turn_soon V E noResult .make h0 rfl 0
  have hroot : ([{ phase := .initial body }] : List (Promise V E))[0]? = some { phase := .initial body } := rfl
  set s1 : Runtime V E :=
    { (⟨loop1, [{ phase := .initial body }], []⟩ : Runtime V E).setRunning 0 with entered := [(body, 0)] } with hs1
  have hbegin : Loop.Turn (turn noResult) (start body) (exec 0 body s1) := by
    have hstart : start body = ⟨((Eventloop.make : Eventloop ℕ).callSoon 0 0).2, [{ phase := .initial body }], []⟩ := rfl
    unfold Loop.Turn
    rw [hstart, hturn1, resume_initial (s := ⟨loop1, [{ phase := .initial body }], []⟩) hroot rfl]
    rfl
  have hself1 : s1.promises[0]? = some { phase := .running } := rfl
  obtain ⟨s2, hleaves, hreach⟩ := exec_reach noResult body (s := s1) hinv1 hq1 hself1 rfl
  obtain ⟨state2, hself2⟩ := hleaves.self _ hself1
  have hlen1 : s1.promises.length = 1 := rfl
  have hfinish : s2.finish 0 body.eval = { s2 with
      promises := s2.promises.modify 0 fun p => { p with result := some body.eval, phase := .final } } := by
    simp only [finish, hself2]
  have hroot2 : (s2.finish 0 body.eval).promises[0]? =
      some { state := state2, result := some body.eval, phase := .final } := by
    rw [hfinish, List.getElem?_modify_eq, hself2]
    rfl
  have hq2 : (s2.finish 0 body.eval).loop.readyQueue = [] := by
    rw [hfinish]
    exact hleaves.queue
  have hentered : (s2.finish 0 body.eval).entered = (body :: body.calls).zipIdx := by
    rw [hfinish]
    exact hleaves.entered
  refine ⟨s2.finish 0 body.eval, ?_, hq2, ⟨_, hroot2, rfl, rfl⟩, ?_, ?_, ?_⟩
  · refine (Loop.ends_reach (Loop.Reach.head hbegin hreach)).2 (Loop.ends_of_return ?_)
    simp only [turn, hq2, if_true]
  · rw [hentered, List.zipIdx_map_fst]
  · have hlen : (s2.finish 0 body.eval).promises.length = (body :: body.calls).length := by
      rw [hfinish, List.length_modify, hleaves.length, hlen1, List.length_cons, Nat.add_comm]
    rw [hentered, List.zipIdx_map_snd, hlen, List.range_eq_range']
  · intro p hmem
    obtain ⟨k, hk⟩ := List.mem_iff_getElem?.1 hmem
    cases k with
    | zero => rw [← Option.some.inj (hroot2.symm.trans hk)]
    | succ k =>
      rw [hfinish, List.getElem?_modify_ne _ _ (Nat.succ_ne_zero k).symm] at hk
      exact hleaves.tasks (k + 1) p (by rw [hlen1]; omega) hk

end Runtime

end MCoroRpc
