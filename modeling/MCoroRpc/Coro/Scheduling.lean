/-
Who queues a coroutine and who resumes it (src/handle.cc, include/coro/task.hpp, include/coro/handle.hpp).

Any number of coroutines on any number of event loops. Three places register a callback that calls `run()` of a
coroutine: schedule and scheduleOn, also the one in co_await, and the end of a task that has been awaited. A coroutine
stands at its initial suspend, at the co_await of a task, at another awaiter (a timer, an fd, a channel), or at its final
suspend. Awaiters that are no tasks resume a coroutine that waits for them; they are `suspend` and `wake`. The thread of a
call matters for get_event_loop() only, so that loop is part of the label.

- `QueuedOnce`: at most one callback that would run a coroutine is pending, and no coroutine has been resumed but by the
  one it waits for. `Due`: nor would a pending callback do so.
- `Apt`: schedule, scheduleOn and co_await meet a coroutine that can still be scheduled at its initial suspend only, and
  with no callback pending.
- `queued_once_iff`: both hold throughout a run exactly if each step is apt.
-/
import MCoroRpc.Coro.Task

namespace MCoroRpc

open Multimap

namespace Scheduling

/-- what a loop holds: `run()` of a coroutine, or any other callback. Who has registered it, schedule or the end of the task
`child`, the code does not keep. -/
inductive Callback where
  | run (i : ℕ) (child : Option ℕ)
  | other
deriving DecidableEq, Repr

/-- where a coroutine stands -/
inductive Place where
  | initial
  | running
  /-- at the co_await of a task -/
  | onChild (j : ℕ)
  /-- at another awaiter -/
  | onAwaiter
  | final
deriving DecidableEq, Repr

/-- the callback that resumes a coroutine where it stands: of schedule, or of the end of a task -/
def Place.awaited : Place → Option (Option ℕ)
  | .initial => some none
  | .onChild j => some (some j)
  | .running | .onAwaiter | .final => none

structure Coro where
  /-- the id of the Handle -/
  id : ℕ
  state : HandleState
  parent : Option ℕ
  place : Place
deriving DecidableEq, Repr

end Scheduling

structure Scheduling where
  loops : ℕ → Eventloop Scheduling.Callback
  coros : List Scheduling.Coro
  /-- the coroutines that have been resumed by another than the one they wait for -/
  astray : List ℕ

namespace Scheduling

variable (H : HeapAlgorithms)

/-! ## Model -/

def make : Scheduling := ⟨fun _ => .make, [], []⟩

def withLoop (L : ℕ) (loop : Eventloop Callback) (s : Scheduling) : Scheduling :=
  { s with loops := Function.update s.loops L loop }

def change (i : ℕ) (f : Coro → Coro) (s : Scheduling) : Scheduling := { s with coros := s.coros.modify i f }

/-- `call_soon` with `run()` of the coroutine -/
def callSoon (L i : ℕ) (child : Option ℕ) (s : Scheduling) : Scheduling :=
  match s.coros[i]? with
  | none => s
  | some x => s.withLoop L ((s.loops L).callSoon x.id (.run i child)).2

/-- a coroutine is called; without the wait at the initial suspend its body begins at once -/
def create (id : ℕ) (waitAtInitialSuspend : Bool) (s : Scheduling) : Scheduling :=
  { s with coros := s.coros ++ [⟨id, .unschedule, none, if waitAtInitialSuspend then .initial else .running⟩] }

def scheduleOn (L i : ℕ) (s : Scheduling) : Scheduling :=
  match s.coros[i]? with
  | none => s
  | some x => if x.state = .unschedule then s.callSoon L i none else s

/-- `L` is get_event_loop() -/
def schedule (L i : ℕ) (s : Scheduling) : Scheduling := s.scheduleOn L i

/-- await_suspend, up to the schedule -/
def suspendOn (i j : ℕ) (s : Scheduling) : Scheduling :=
  (s.change i fun x => { x with state := .suspend, place := .onChild j }).change j fun y => { y with parent := some i }

/-- the coroutine `i` comes to the co_await of the task `j` -/
def coAwait (L i j : ℕ) (s : Scheduling) : Scheduling :=
  match s.coros[i]?, s.coros[j]? with
  | some x, some y =>
    if x.place ≠ .running then s
    -- await_ready
    else if y.place = .final then s
    -- the assertion, and the end of the program
    else if y.parent ≠ none then s
    else (s.suspendOn i j).schedule L j
  | _, _ => s

/-- the coroutine `j` returns or throws: its final suspend -/
def finish (L j : ℕ) (s : Scheduling) : Scheduling :=
  match s.coros[j]? with
  | none => s
  | some y =>
    if y.place ≠ .running then s
    else
      let s' := s.change j fun y => { y with place := .final }
      match y.parent with
      | none => s'
      | some i => (s'.change i fun x => { x with state := .schedule }).callSoon L i (some j)

/-- a coroutine goes from one place to another, if it stands there -/
def move (i : ℕ) (p q : Place) (s : Scheduling) : Scheduling :=
  s.change i fun x => if x.place = p then { x with place := q } else x

def suspend (i : ℕ) (s : Scheduling) : Scheduling := s.move i .running .onAwaiter

def wake (i : ℕ) (s : Scheduling) : Scheduling := s.move i .onAwaiter .running

/-- `run()` resumes the coroutine wherever it stands; one that runs or has ended cannot be resumed -/
def resume (i : ℕ) (child : Option ℕ) (s : Scheduling) : Scheduling :=
  match s.coros[i]? with
  | none => s
  | some x =>
    let s' := if x.place.awaited = some child then s else { s with astray := s.astray ++ [i] }
    if x.place = .running ∨ x.place = .final then s' else s'.change i fun x => { x with place := .running }

def executeReady (L : ℕ) (s : Scheduling) : Scheduling :=
  match (s.loops L).executeReady with
  | (some ⟨_, _, .run i child⟩, loop) => (s.withLoop L loop).resume i child
  | (_, loop) => s.withLoop L loop

/-- a label of the loop, with a callback that runs no coroutine -/
def other : Eventloop.Label Unit → Eventloop.Label Callback
  | .callSoon handle _ => .callSoon handle .other
  | .callAt time handle _ => .callAt time handle .other
  | .addReader fd handle _ ctl => .addReader fd handle .other ctl
  | .addWriter fd handle _ ctl => .addWriter fd handle .other ctl
  | .cancelWait waitId => .cancelWait waitId
  | .cancel handle => .cancel handle
  | .epollEvent events => .epollEvent events
  | .expiredTimeout now => .expiredTimeout now
  | .executeReady => .executeReady
  | .stop => .stop

inductive Label where
  | create (id : ℕ) (waitAtInitialSuspend : Bool)
  | schedule (L i : ℕ)
  | scheduleOn (L i : ℕ)
  | coAwait (L i j : ℕ)
  | finish (L j : ℕ)
  | suspend (i : ℕ)
  | wake (i : ℕ)
  | loop (L : ℕ) (l : Eventloop.Label Unit)

def step (s : Scheduling) : Label → Scheduling
  | .create id waitAtInitialSuspend => s.create id waitAtInitialSuspend
  | .schedule L i => s.schedule L i
  | .scheduleOn L i => s.scheduleOn L i
  | .coAwait L i j => s.coAwait L i j
  | .finish L j => s.finish L j
  | .suspend i => s.suspend i
  | .wake i => s.wake i
  | .loop L .executeReady => s.executeReady L
  | .loop L l => s.withLoop L ((s.loops L).step H (other l))

/-- the callback `w` of the loop `L` would run the coroutine `i` -/
def Pends (s : Scheduling) (L w i : ℕ) (child : Option ℕ) : Prop :=
  ∃ cb, (s.loops L).waitCallback.lookup w = some cb ∧ cb.userCb = .run i child

structure QueuedOnce (s : Scheduling) : Prop where
  once : ∀ i L w child L' w' child', s.Pends L w i child → s.Pends L' w' i child' → L = L' ∧ w = w'
  straight : s.astray = []

/-- every pending callback would resume a coroutine that waits for it -/
def Due (s : Scheduling) : Prop :=
  ∀ L w i child, s.Pends L w i child → ∃ x, s.coros[i]? = some x ∧ x.place.awaited = some child

/-- if the coroutine can be scheduled it has not begun, and it is not queued -/
def Fresh (s : Scheduling) (i : ℕ) : Prop :=
  ∀ x, s.coros[i]? = some x → x.state = .unschedule → x.place = .initial ∧ ∀ L w child, ¬ s.Pends L w i child

/-- the co_await suspends `i` -/
def Suspends (s : Scheduling) (i j : ℕ) : Prop :=
  ∃ x y, s.coros[i]? = some x ∧ s.coros[j]? = some y ∧ x.place = .running ∧ y.place ≠ .final ∧ y.parent = none

def Apt (s : Scheduling) : Label → Prop
  | .schedule _ i | .scheduleOn _ i => s.Fresh i
  | .coAwait _ i j => s.Suspends i j → i ≠ j → s.Fresh j
  | .create _ _ | .finish _ _ | .suspend _ | .wake _ | .loop _ _ => True

/-! ## Invariant -/

structure Inv (s : Scheduling) : Prop where
  loops : ∀ L, (s.loops L).Inv
  queued : s.QueuedOnce
  due : s.Due
  ended : ∀ L w i j, s.Pends L w i (some j) → ∃ y, s.coros[j]? = some y ∧ y.place = .final
  /-- the parent of a task waits for it until the end -/
  waits : ∀ (j : ℕ) (y : Coro) (i : ℕ), s.coros[j]? = some y → y.parent = some i → y.place ≠ .final →
    ∃ x, s.coros[i]? = some x ∧ x.place = .onChild j

variable {H} {s : Scheduling} {L w i j : ℕ} {child : Option ℕ} {x y : Coro} {f : Coro → Coro}

theorem make_inv : Inv make where
  loops := fun _ => Eventloop.make_inv
  queued :=
    { once := by
        intro i L w child L' w' child' hp
        obtain ⟨cb, hcb, -⟩ := hp
        exact absurd hcb lookup_empty_ne
      straight := rfl }
  due := by
    intro L w i child hp
    obtain ⟨cb, hcb, -⟩ := hp
    exact absurd hcb lookup_empty_ne
  ended := by
    intro L w i j hp
    obtain ⟨cb, hcb, -⟩ := hp
    exact absurd hcb lookup_empty_ne
  waits := fun j y i hj => by cases hj

/-- one that no callback can resume is not queued -/
theorem Inv.idle (h : Inv s) (hi : s.coros[i]? = some x) (hx : x.place.awaited = none) (L w : ℕ) (child : Option ℕ) :
    ¬ s.Pends L w i child := by
  intro hp
  obtain ⟨x', hx', hawaited⟩ := h.due L w i child hp
  obtain rfl := Option.some.inj (hi.symm.trans hx')
  cases hx.symm.trans hawaited

/-- one that waits for no task has no task that goes on -/
theorem Inv.childless (h : Inv s) (hi : s.coros[i]? = some x) (hx : x.place.awaited = none) {k : ℕ}
    (hk : s.coros[k]? = some y) (hparent : y.parent = some i) : y.place = .final := by
  by_contra hne
  obtain ⟨x', hx', hon⟩ := h.waits k y i hk hparent hne
  obtain rfl := Option.some.inj (hi.symm.trans hx')
  rw [hon] at hx
  cases hx

/-- while a task goes on its parent is not queued -/
theorem Inv.unqueued (h : Inv s) (hj : s.coros[j]? = some y) (hparent : y.parent = some i) (hne : y.place ≠ .final)
    (L w : ℕ) (child : Option ℕ) : ¬ s.Pends L w i child := by
  intro hp
  obtain ⟨x, hi, hon⟩ := h.waits j y i hj hparent hne
  obtain ⟨x', hx', hawaited⟩ := h.due L w i child hp
  obtain rfl := Option.some.inj (hi.symm.trans hx')
  rw [hon] at hawaited
  obtain rfl := Option.some.inj hawaited
  obtain ⟨y', hy', hend⟩ := h.ended L w i j hp
  obtain rfl := Option.some.inj (hj.symm.trans hy')
  exact hne hend

/-! ### A coroutine changes -/

theorem change_self (hi : s.coros[i]? = some x) (f : Coro → Coro) : (s.change i f).coros[i]? = some (f x) := by
  unfold change
  rw [List.getElem?_modify_eq, hi]
  rfl

theorem change_other {k : ℕ} (hk : k ≠ i) (f : Coro → Coro) : (s.change i f).coros[k]? = s.coros[k]? :=
  List.getElem?_modify_ne _ _ hk.symm

theorem change_absent (hi : s.coros[i]? = none) (f : Coro → Coro) : s.change i f = s := by
  have hsame : s.coros.modify i f = s.coros := by
    apply List.ext_getElem?
    intro k
    by_cases hk : k = i
    · rw [hk, List.getElem?_modify_eq, hi]
      rfl
    · exact List.getElem?_modify_ne _ _ (Ne.symm hk)
  unfold change
  rw [hsame]

/-- the pending callbacks stay as they are, so the coroutine must still wait for its own, and for its task -/
theorem Inv.change (h : Inv s) (hi : s.coros[i]? = some x)
    (hdue : ∀ L w child, s.Pends L w i child → (f x).place.awaited = some child)
    (hfinal : x.place = .final → (f x).place = .final)
    (hparent : ∀ p, (f x).parent = some p → (f x).place ≠ .final →
      ∃ z, (s.change i f).coros[p]? = some z ∧ z.place = .onChild i)
    (hchild : ∀ k y, k ≠ i → s.coros[k]? = some y → y.parent = some i → y.place ≠ .final →
      (f x).place = .onChild k) : Inv (s.change i f) := by
  refine ⟨h.loops, ⟨h.queued.once, h.queued.straight⟩, ?_, ?_, ?_⟩
  · intro L w k child hp
    by_cases hk : k = i
    · subst hk
      exact ⟨f x, change_self hi f, hdue L w child hp⟩
    · obtain ⟨z, hz, hawaited⟩ := h.due L w k child hp
      exact ⟨z, (change_other hk f).trans hz, hawaited⟩
  · intro L w k j hp
    obtain ⟨y, hy, hend⟩ := h.ended L w k j hp
    by_cases hj : j = i
    · subst hj
      obtain rfl := Option.some.inj (hi.symm.trans hy)
      exact ⟨f x, change_self hi f, hfinal hend⟩
    · exact ⟨y, (change_other hj f).trans hy, hend⟩
  · intro k z p hz hp hne
    by_cases hk : k = i
    · subst hk
      obtain rfl := Option.some.inj ((change_self hi f).symm.trans hz)
      exact hparent p hp hne
    · rw [change_other hk f] at hz
      by_cases hpi : p = i
      · subst hpi
        exact ⟨f x, change_self hi f, hchild k z hk hz hp hne⟩
      · obtain ⟨x', hx', hon⟩ := h.waits k z p hz hp hne
        exact ⟨x', (change_other hpi f).trans hx', hon⟩

/-- a coroutine that nobody waits for may go anywhere -/
theorem Inv.go (h : Inv s) (hi : s.coros[i]? = some x) (hno : ∀ L w child, ¬ s.Pends L w i child)
    (hchildless : ∀ (k : ℕ) (y : Coro), s.coros[k]? = some y → y.parent = some i → y.place = .final)
    (hx : x.place ≠ .final) (hparent : (f x).parent = x.parent) : Inv (s.change i f) := by
  apply h.change hi
  · exact fun L w child hp => absurd hp (hno L w child)
  · exact fun hfinal => absurd hfinal hx
  · intro p hp _
    rw [hparent] at hp
    obtain ⟨z, hz, hon⟩ := h.waits i x p hi hp hx
    have hpi : p ≠ i := by
      rintro rfl
      exact hx (hchildless p x hi hp)
    exact ⟨z, (change_other hpi f).trans hz, hon⟩
  · exact fun k y _ hy hp hne => absurd (hchildless k y hy hp) hne

/-- a coroutine changes and stays where it is -/
theorem Inv.stays (h : Inv s) (hi : s.coros[i]? = some x) (hplace : (f x).place = x.place)
    (hparent : ∀ p, (f x).parent = some p → x.place ≠ .final → ∃ z, s.coros[p]? = some z ∧ z.place = .onChild i) :
    Inv (s.change i f) := by
  apply h.change hi
  · intro L w child hp
    obtain ⟨x', hx', hawaited⟩ := h.due L w i child hp
    obtain rfl := Option.some.inj (hi.symm.trans hx')
    rw [hplace, hawaited]
  · exact fun hfinal => hplace.trans hfinal
  · intro p hp hne
    rw [hplace] at hne
    obtain ⟨z, hz, hon⟩ := hparent p hp hne
    by_cases hpi : p = i
    · subst hpi
      obtain rfl := Option.some.inj (hi.symm.trans hz)
      exact ⟨f x, change_self hi f, hplace.trans hon⟩
    · exact ⟨z, (change_other hpi f).trans hz, hon⟩
  · intro k y _ hy hp hne
    obtain ⟨x', hx', hon⟩ := h.waits k y i hy hp hne
    obtain rfl := Option.some.inj (hi.symm.trans hx')
    exact hplace.trans hon

/-! ### A loop changes -/

theorem withLoop_loops {loop : Eventloop Callback} {L' : ℕ} :
    (s.withLoop L loop).loops L' = if L' = L then loop else s.loops L' :=
  Function.update_apply ..

/-- no callback is new that runs a coroutine -/
theorem Inv.withLoop (h : Inv s) {loop : Eventloop Callback} (hloop : loop.Inv)
    (hold : ∀ w cb i child, loop.waitCallback.lookup w = some cb → cb.userCb = .run i child →
      (s.loops L).waitCallback.lookup w = some cb) : Inv (s.withLoop L loop) := by
  have hpends : ∀ L' w i child, (s.withLoop L loop).Pends L' w i child → s.Pends L' w i child := by
    intro L' w i child hp
    obtain ⟨cb, hcb, hrun⟩ := hp
    rw [withLoop_loops] at hcb
    split_ifs at hcb with hL
    · exact ⟨cb, hL ▸ hold w cb i child hcb hrun, hrun⟩
    · exact ⟨cb, hcb, hrun⟩
  refine ⟨?_, ⟨?_, h.queued.straight⟩, ?_, ?_, h.waits⟩
  · intro L'
    rw [withLoop_loops]
    split_ifs
    · exact hloop
    · exact h.loops L'
  · exact fun i L' w child L'' w' child' hp hp' =>
      h.queued.once i L' w child L'' w' child' (hpends L' w i child hp) (hpends L'' w' i child' hp')
  · exact fun L' w i child hp => h.due L' w i child (hpends L' w i child hp)
  · exact fun L' w i j hp => h.ended L' w i j (hpends L' w i (some j) hp)

/-- behind `call_soon` there is one callback more -/
theorem callSoon_pends (hloop : (s.loops L).Inv) (hi : s.coros[i]? = some x) {L' k : ℕ} {child' : Option ℕ} :
    (s.callSoon L i child).Pends L' w k child' ↔
      s.Pends L' w k child' ∨ L' = L ∧ w = (s.loops L).nextWaitId ∧ k = i ∧ child' = child := by
  have hcall : s.callSoon L i child = s.withLoop L ((s.loops L).callSoon x.id (.run i child)).2 := by
    simp only [callSoon, hi]
  rw [hcall]
  unfold Pends
  rw [withLoop_loops]
  by_cases hL : L' = L
  swap
  · simp [hL]
  subst hL
  rw [if_pos rfl]
  have hlookup : ((s.loops L').callSoon x.id (.run i child)).2.waitCallback.lookup w =
      if w = (s.loops L').nextWaitId then some ⟨x.id, (s.loops L').nextWaitId, .run i child⟩
      else (s.loops L').waitCallback.lookup w := Eventloop.enlist_lookup
  rw [hlookup]
  by_cases hw : w = (s.loops L').nextWaitId
  swap
  · simp [hw]
  subst hw
  rw [if_pos rfl]
  constructor
  · intro ⟨cb, hcb, hrun⟩
    obtain rfl := Option.some.inj hcb
    cases hrun
    exact .inr ⟨rfl, rfl, rfl, rfl⟩
  · intro hor
    rcases hor with ⟨cb, hcb, -⟩ | ⟨-, -, rfl, rfl⟩
    · exact absurd (hloop.pending_lt ⟨cb, hcb⟩) (lt_irrefl _)
    · exact ⟨_, rfl, rfl⟩

theorem callSoon_coros : (s.callSoon L i child).coros = s.coros := by
  unfold callSoon
  cases s.coros[i]? <;> rfl

theorem callSoon_astray : (s.callSoon L i child).astray = s.astray := by
  unfold callSoon
  cases s.coros[i]? <;> rfl

theorem callSoon_loop (h : ∀ L, (s.loops L).Inv) (L' : ℕ) : ((s.callSoon L i child).loops L').Inv := by
  unfold callSoon
  cases s.coros[i]? with
  | none => exact h L'
  | some x =>
    dsimp only
    rw [withLoop_loops]
    split_ifs
    · exact Eventloop.callSoon_inv (h L) x.id _
    · exact h L'

/-- a coroutine is queued that waits to be run and is not queued -/
theorem Inv.callSoon (h : Inv s) (hi : s.coros[i]? = some x) (hx : x.place.awaited = some child)
    (hno : ∀ L w child, ¬ s.Pends L w i child)
    (hend : ∀ j, child = some j → ∃ y, s.coros[j]? = some y ∧ y.place = .final) : Inv (s.callSoon L i child) := by
  refine ⟨callSoon_loop h.loops, ⟨?_, callSoon_astray.trans h.queued.straight⟩, ?_, ?_, ?_⟩
  · intro k L1 w1 c1 L2 w2 c2 h1 h2
    rcases (callSoon_pends (h.loops L) hi).1 h1 with hold1 | ⟨rfl, rfl, rfl, rfl⟩
    · rcases (callSoon_pends (h.loops L) hi).1 h2 with hold2 | ⟨rfl, rfl, rfl, rfl⟩
      · exact h.queued.once k L1 w1 c1 L2 w2 c2 hold1 hold2
      · exact absurd hold1 (hno L1 w1 c1)
    · rcases (callSoon_pends (h.loops L1) hi).1 h2 with hold2 | ⟨rfl, rfl, -, -⟩
      · exact absurd hold2 (hno L2 w2 c2)
      · exact ⟨rfl, rfl⟩
  · intro L' w k c hp
    rw [callSoon_coros]
    rcases (callSoon_pends (h.loops L) hi).1 hp with hp | ⟨-, -, rfl, rfl⟩
    · exact h.due L' w k c hp
    · exact ⟨x, hi, hx⟩
  · intro L' w k j hp
    rw [callSoon_coros]
    rcases (callSoon_pends (h.loops L) hi).1 hp with hp | ⟨-, -, -, hj⟩
    · exact h.ended L' w k j hp
    · exact hend j hj.symm
  · rw [callSoon_coros]
    exact h.waits

/-! ### schedule and scheduleOn -/

theorem scheduleOn_inv (h : Inv s) (hf : s.Fresh i) : Inv (s.scheduleOn L i) := by
  unfold scheduleOn
  cases hi : s.coros[i]? with
  | none => exact h
  | some x =>
    dsimp only
    split_ifs with hstate
    · obtain ⟨hplace, hno⟩ := hf x hi hstate
      exact h.callSoon hi (by rw [hplace]; rfl) hno (fun j hj => by cases hj)
    · exact h

/-- a coroutine that is not fresh is queued twice, or in the middle of something -/
theorem scheduleOn_breaks (hloop : ∀ L, (s.loops L).Inv) (hf : ¬ s.Fresh i) :
    ¬ ((s.scheduleOn L i).QueuedOnce ∧ (s.scheduleOn L i).Due) := by
  intro ⟨hqueued, hdue⟩
  apply hf
  intro x hi hstate
  have hcall : s.scheduleOn L i = s.callSoon L i none := by
    simp only [scheduleOn, hi, hstate, if_true]
  rw [hcall] at hqueued hdue
  have hnew : (s.callSoon L i none).Pends L (s.loops L).nextWaitId i none :=
    (callSoon_pends (hloop L) hi).2 (.inr ⟨rfl, rfl, rfl, rfl⟩)
  refine ⟨?_, ?_⟩
  · obtain ⟨x', hx', hawaited⟩ := hdue L _ i none hnew
    rw [callSoon_coros] at hx'
    obtain rfl := Option.some.inj (hi.symm.trans hx')
    revert hawaited
    cases x.place <;> simp [Place.awaited]
  · intro L' w child hp
    obtain ⟨rfl, rfl⟩ := hqueued.once i L' w child L _ none ((callSoon_pends (hloop L) hi).2 (.inl hp)) hnew
    obtain ⟨cb, hcb, -⟩ := hp
    exact absurd ((hloop L').pending_lt ⟨cb, hcb⟩) (lt_irrefl _)

/-! ### co_await -/

theorem coAwait_cases (s : Scheduling) (L i j : ℕ) :
    ¬ s.Suspends i j ∧ s.coAwait L i j = s ∨
      s.Suspends i j ∧ s.coAwait L i j = (s.suspendOn i j).scheduleOn L j := by
  unfold coAwait Suspends
  cases hi : s.coros[i]? with
  | none => exact .inl ⟨by simp, rfl⟩
  | some x =>
    cases hj : s.coros[j]? with
    | none => exact .inl ⟨by simp, rfl⟩
    | some y =>
      dsimp only
      split_ifs with hrunning hfinal hparent
      · exact .inl ⟨by simp [hrunning], rfl⟩
      · exact .inl ⟨by simp [hfinal], rfl⟩
      · exact .inl ⟨by simp [hparent], rfl⟩
      · exact .inr ⟨⟨x, y, rfl, rfl, not_not.1 hrunning, hfinal, not_not.1 hparent⟩, rfl⟩

/-- what the child is behind the suspension of the parent -/
theorem suspendOn_child (hs : s.Suspends i j) : ∃ y, (s.suspendOn i j).coros[j]? = some { y with parent := some i } ∧
    (i = j ∧ y.state = .suspend ∨ i ≠ j ∧ s.coros[j]? = some y) := by
  obtain ⟨x, y, hi, hj, -⟩ := hs
  by_cases hij : i = j
  · subst hij
    exact ⟨_, change_self (change_self hi _) _, .inl ⟨rfl, rfl⟩⟩
  · exact ⟨y, change_self ((change_other (Ne.symm hij) _).trans hj) _, .inr ⟨hij, hj⟩⟩

theorem suspendOn_fresh (hs : s.Suspends i j) : (s.suspendOn i j).Fresh j ↔ (i ≠ j → s.Fresh j) := by
  obtain ⟨y, hy, hcase⟩ := suspendOn_child hs
  constructor
  · intro hf hij x hx hstate
    rcases hcase with ⟨heq, -⟩ | ⟨-, hj⟩
    · exact absurd heq hij
    · obtain rfl := Option.some.inj (hj.symm.trans hx)
      have hfresh := hf _ hy hstate
      exact hfresh
  · intro hf x hx hstate
    obtain rfl := Option.some.inj (hy.symm.trans hx)
    rcases hcase with ⟨-, hsuspend⟩ | ⟨hij, hj⟩
    · cases hsuspend.symm.trans hstate
    · exact hf hij y hj hstate

theorem suspendOn_inv (h : Inv s) (hs : s.Suspends i j) : Inv (s.suspendOn i j) := by
  obtain ⟨x, y, hi, hj, hrunning, hfinal, -⟩ := hs
  have hx : x.place.awaited = none := by
    rw [hrunning]
    rfl
  have h1 : Inv (s.change i fun x => { x with state := .suspend, place := .onChild j }) :=
    h.go hi (h.idle hi hx) (fun k z hk hp => h.childless hi hx hk hp) (by rw [hrunning]; exact fun hno => by cases hno) rfl
  set s1 := s.change i fun x => { x with state := .suspend, place := .onChild j } with hs1
  have hi1 : s1.coros[i]? = some { x with state := .suspend, place := .onChild j } := change_self hi _
  obtain ⟨y', hj'⟩ : ∃ y', s1.coros[j]? = some y' := by
    by_cases hij : j = i
    · subst hij
      exact ⟨_, hi1⟩
    · exact ⟨y, (change_other hij _).trans hj⟩
  refine h1.stays hj' rfl ?_
  intro p hp _
  obtain rfl := Option.some.inj hp
  exact ⟨_, hi1, rfl⟩

theorem coAwait_inv (h : Inv s) (hf : s.Suspends i j → i ≠ j → s.Fresh j) : Inv (s.coAwait L i j) := by
  rcases coAwait_cases s L i j with ⟨-, he⟩ | ⟨hs, he⟩
  · rw [he]
    exact h
  · rw [he]
    exact scheduleOn_inv (suspendOn_inv h hs) ((suspendOn_fresh hs).2 (hf hs))

theorem coAwait_breaks (h : Inv s) (hf : ¬ (s.Suspends i j → i ≠ j → s.Fresh j)) :
    ¬ ((s.coAwait L i j).QueuedOnce ∧ (s.coAwait L i j).Due) := by
  rcases coAwait_cases s L i j with ⟨hno, -⟩ | ⟨hs, he⟩
  · exact absurd (fun hs => absurd hs hno) hf
  · rw [he]
    exact scheduleOn_breaks (suspendOn_inv h hs).loops fun hfresh => hf fun _ => (suspendOn_fresh hs).1 hfresh

/-! ### The other steps -/

theorem create_inv (h : Inv s) (id : ℕ) (waitAtInitialSuspend : Bool) : Inv (s.create id waitAtInitialSuspend) := by
  have hold : ∀ (k : ℕ) (z : Coro), s.coros[k]? = some z →
      (s.create id waitAtInitialSuspend).coros[k]? = some z := by
    intro k z hz
    obtain ⟨hlt, -⟩ := List.getElem?_eq_some_iff.1 hz
    exact (List.getElem?_append_left hlt).trans hz
  refine ⟨h.loops, ⟨h.queued.once, h.queued.straight⟩, ?_, ?_, ?_⟩
  · intro L w i child hp
    obtain ⟨x, hx, hawaited⟩ := h.due L w i child hp
    exact ⟨x, hold i x hx, hawaited⟩
  · intro L w i j hp
    obtain ⟨y, hy, hend⟩ := h.ended L w i j hp
    exact ⟨y, hold j y hy, hend⟩
  · intro k z p hz hp hne
    rcases Nat.lt_or_ge k s.coros.length with hlt | hge
    · have hz' : s.coros[k]? = some z := (List.getElem?_append_left hlt).symm.trans hz
      obtain ⟨x, hx, hon⟩ := h.waits k z p hz' hp hne
      exact ⟨x, hold p x hx, hon⟩
    · -- the new one has no parent
      have hz' := (List.getElem?_append_right hge).symm.trans hz
      obtain rfl := List.mem_singleton.1 (List.mem_of_getElem? hz')
      cases hp

theorem move_inv (h : Inv s) (i : ℕ) {p q : Place} (hp : p.awaited = none) (hp' : p ≠ .final) : Inv (s.move i p q) := by
  unfold move
  cases hi : s.coros[i]? with
  | none =>
    rw [change_absent hi]
    exact h
  | some x =>
    by_cases hplace : x.place = p
    · have hx : x.place.awaited = none := by rw [hplace, hp]
      exact h.go hi (h.idle hi hx) (fun k z hk hpar => h.childless hi hx hk hpar) (by rwa [hplace])
        (by simp only [hplace, if_true])
    · refine h.stays hi (by simp only [hplace, if_false]) ?_
      intro p' hpar hne
      simp only [hplace, if_false] at hpar
      exact h.waits i x p' hi hpar hne

/-- the end of a task: its parent waits for it, and is queued -/
theorem finish_inv (h : Inv s) : Inv (s.finish L j) := by
  unfold finish
  cases hj : s.coros[j]? with
  | none => exact h
  | some y =>
    dsimp only
    split_ifs with hrunning
    · exact h
    rw [not_not] at hrunning
    have hy : y.place.awaited = none := by
      rw [hrunning]
      rfl
    have hne : y.place ≠ .final := by
      rw [hrunning]
      exact fun hno => by cases hno
    have h1 : Inv (s.change j fun y => { y with place := .final }) :=
      h.go hj (h.idle hj hy) (fun k z hk hpar => h.childless hj hy hk hpar) hne rfl
    cases hparent : y.parent with
    | none => exact h1
    | some i =>
      obtain ⟨x, hi, hon⟩ := h.waits j y i hj hparent hne
      have hij : i ≠ j := by
        rintro rfl
        obtain rfl := Option.some.inj (hj.symm.trans hi)
        cases hrunning.symm.trans hon
      have hi1 : (s.change j fun y => { y with place := .final }).coros[i]? = some x := (change_other hij _).trans hi
      refine (h1.stays hi1 rfl fun p hp hx => h1.waits i x p hi1 hp hx).callSoon (change_self hi1 _) ?_ ?_ ?_
      · change x.place.awaited = some (some j)
        rw [hon]
        rfl
      · exact h.unqueued hj hparent hne
      · intro k hk
        obtain rfl := Option.some.inj hk
        exact ⟨_, (change_other hij.symm _).trans (change_self hj _), rfl⟩

/-- what is executed was due, and there was no other callback for the coroutine -/
theorem Inv.executed (h : Inv s) {cb : WaitCallback Callback} (he : (s.loops L).executeReady.1 = some cb)
    (hrun : cb.userCb = .run i child) : ∃ x w, s.coros[i]? = some x ∧ x.place.awaited = some child ∧
      s.Pends L w i child ∧ ∀ L' w' child', ¬ (s.withLoop L (s.loops L).executeReady.2).Pends L' w' i child' := by
  rcases Eventloop.executeReady_cases (s.loops L) with ⟨-, hq⟩ | ⟨w, queue, -, -, hq⟩ | ⟨w, queue, cb', -, hcb, hq⟩
  · cases (congrArg Prod.fst hq).symm.trans he
  · cases (congrArg Prod.fst hq).symm.trans he
  obtain rfl := Option.some.inj ((congrArg Prod.fst hq).symm.trans he)
  have hp : s.Pends L w i child := ⟨cb', hcb, hrun⟩
  obtain ⟨x, hi, hawaited⟩ := h.due L w i child hp
  refine ⟨x, w, hi, hawaited, hp, ?_⟩
  rintro L' w' child' ⟨cb, hcb', hrun'⟩
  rw [withLoop_loops] at hcb'
  split_ifs at hcb' with hL
  · subst hL
    obtain ⟨-, rfl⟩ := h.queued.once i L' w' child' L' w child
      ⟨cb, Eventloop.executeReady_origin hcb', hrun'⟩ hp
    rw [hq] at hcb'
    exact absurd ((Finmap.lookup_erase w' _).symm.trans hcb') (by simp)
  · exact hL (h.queued.once i L' w' child' L w child ⟨cb, hcb', hrun'⟩ hp).1

theorem executeReady_inv (h : Inv s) (L : ℕ) : Inv (s.executeReady L) := by
  have h1 : Inv (s.withLoop L (s.loops L).executeReady.2) :=
    h.withLoop (Eventloop.executeReady_inv (h.loops L)) fun w cb i child hcb _ => Eventloop.executeReady_origin hcb
  have hexecuted := fun i child (cb : WaitCallback Callback) => @Inv.executed s L i child h cb
  unfold executeReady
  cases hcase : (s.loops L).executeReady with
  | mk popped loop =>
    rw [hcase] at h1 hexecuted
    cases popped with
    | none => exact h1
    | some cb =>
      obtain ⟨coroId, waitId, userCb⟩ := cb
      cases userCb with
      | other => exact h1
      | run i child =>
        obtain ⟨x, w, hi, hawaited, hp, hno⟩ := hexecuted i child _ rfl rfl
        dsimp only at h1 hno ⊢
        have hi1 : (s.withLoop L loop).coros[i]? = some x := hi
        have hplace : ¬ (x.place = .running ∨ x.place = .final) := by
          intro hor
          rcases hor with hplace | hplace <;> rw [hplace] at hawaited <;> cases hawaited
        simp only [resume, hi1, hawaited, if_true, hplace, if_false]
        refine h1.go hi1 hno ?_ (fun hend => hplace (.inr hend)) rfl
        -- the task that it waits for has ended
        intro k z hk hpar
        by_contra hne
        exact h.unqueued hk hpar hne L w child hp

theorem other_userCb {l : Eventloop.Label Unit} {k : Callback} (hk : (other l).userCb = some k) : k = .other := by
  cases l <;> first | exact (Option.some.inj hk).symm | cases hk

theorem loop_inv (h : Inv s) (L : ℕ) (l : Eventloop.Label Unit) : Inv (s.step H (.loop L l)) := by
  have hother : Inv (s.withLoop L ((s.loops L).step H (other l))) := by
    refine h.withLoop (Eventloop.step_inv (h.loops L) (other l)) ?_
    intro w cb i child hcb hrun
    rcases Eventloop.step_origin (other l) hcb with hold | hnew
    · exact hold
    · cases hrun.symm.trans (other_userCb hnew)
  cases l with
  | executeReady => exact executeReady_inv h L
  | _ => exact hother

/-- **One step** -/
theorem step_inv (h : Inv s) (l : Label) (ha : s.Apt l) : Inv (s.step H l) := by
  cases l with
  | create id waitAtInitialSuspend => exact create_inv h id waitAtInitialSuspend
  | schedule L i => exact scheduleOn_inv h ha
  | scheduleOn L i => exact scheduleOn_inv h ha
  | coAwait L i j => exact coAwait_inv h ha
  | finish L j => exact finish_inv h
  | suspend i => exact move_inv h i rfl (fun hno => by cases hno)
  | wake i => exact move_inv h i rfl (fun hno => by cases hno)
  | loop L l => exact loop_inv h L l

theorem step_breaks (h : Inv s) (l : Label) (ha : ¬ s.Apt l) : ¬ ((s.step H l).QueuedOnce ∧ (s.step H l).Due) := by
  cases l with
  | schedule L i => exact scheduleOn_breaks h.loops ha
  | scheduleOn L i => exact scheduleOn_breaks h.loops ha
  | coAwait L i j => exact coAwait_breaks h ha
  | _ => exact absurd trivial ha

/-- **Exact condition**: throughout a run at most one callback that would run a coroutine is pending, each coroutine has
been resumed by the one it waits for only, and what is pending would do so too, exactly if schedule, scheduleOn and
co_await queue coroutines at their initial suspend only, and those only once -/
theorem queued_once_iff (ls : List Label) :
    (∀ n, (Machine.run (step H) make (ls.take n)).QueuedOnce ∧ (Machine.run (step H) make (ls.take n)).Due) ↔
      Machine.Along (step H) Apt make ls :=
  Machine.along_iff (L := fun _ => True) (I := Inv) (P := fun s => s.QueuedOnce ∧ s.Due)
    (fun _ h => ⟨h.queued, h.due⟩) (fun _ l _ h ha => step_inv h l ha) (fun _ l _ h ha => step_breaks h l ha)
    make_inv (fun _ _ => trivial)

/-- schedule twice, and two callbacks are pending. schedule and then co_await, of a task that sleeps: its body goes on in
the middle of the sleep. -/
theorem queued_twice :
    ¬ (Machine.run (step sortedHeap) make [.create 1 true, .schedule 0 0, .schedule 0 0]).QueuedOnce ∧
      (Machine.run (step sortedHeap) make [.create 1 true, .create 2 true, .schedule 0 1, .loop 0 .executeReady,
        .suspend 1, .schedule 0 0, .loop 0 .executeReady, .coAwait 0 0 1, .loop 0 .executeReady]).astray = [1] := by
  refine ⟨?_, by decide +kernel⟩
  intro h
  have h1 := h.once 0 0 0 none 0 1 none ⟨⟨1, 0, .run 0 none⟩, by decide +kernel, rfl⟩
    ⟨⟨1, 1, .run 0 none⟩, by decide +kernel, rfl⟩
  exact absurd h1.2 (by decide)

end Scheduling

end MCoroRpc
