/-
TcpServer::run (include/net/tcpserver.hpp), among the coroutines and loops of a program (Coro.Scheduling).

A call of handle_client makes a coroutine that waits at its initial suspend, and a Task for it. Whoever has the Task may
schedule the coroutine or await it. run drops the Task at once, and the destructor of a Task does nothing.

How an accept of 100 ms ends is part of the label. The rest of the program makes coroutines, keeps their Tasks, and uses
the Tasks that it has; its loops run what is ready.

- `Dormant`: nothing refers to a coroutine that has not begun. `Dormant.step`: it stays so as long as its Task is not used.
- `Serves`: the body of handle_client is executed once for each accepted stream, and run goes on accepting.
- `serves_iff`: that holds throughout a run exactly if no stream is accepted before stop.
- `never_begun`: no handler begins, in any run.
-/
import MCoroRpc.Coro.Scheduling

namespace MCoroRpc

open Multimap
open Scheduling (Callback Coro)

/-! ## Model -/

/-- how `accept` ends: with a stream, and the id of the handle of its handler; with a TimeoutException; with another one -/
inductive AcceptResult where
  | stream (fd : ℤ) (handleId : ℕ)
  | timeout
  | error
deriving DecidableEq, Repr

/-- a stream that handle_client has been called for, and the coroutine of the call -/
structure Handler where
  fd : ℤ
  coro : ℕ
deriving DecidableEq, Repr

structure TcpServer where
  /-- `m_stop` -/
  stopped : Bool
  /-- run stands at the accept; otherwise it has been left -/
  accepting : Bool
  /-- an accept has failed -/
  failed : Bool
  scheduling : Scheduling
  /-- the coroutines whose Task somebody has -/
  tasks : List ℕ
  handlers : List Handler
  /-- the coroutines whose body has begun, each time that it has -/
  begun : List ℕ

namespace TcpServer

/-- run has come to its first accept -/
def start : TcpServer := ⟨false, true, false, .make, [], [], []⟩

/-- a coroutine is made, and its Task is dropped -/
def handleClient (fd : ℤ) (handleId : ℕ) (s : TcpServer) : TcpServer :=
  { s with
    scheduling := s.scheduling.create handleId true
    handlers := s.handlers ++ [⟨fd, s.scheduling.coros.length⟩] }

/-- the head of the loop -/
def loopHead (s : TcpServer) : TcpServer := if s.stopped then { s with accepting := false } else s

/-- run from the end of an accept on -/
def accept (r : AcceptResult) (s : TcpServer) : TcpServer :=
  if s.accepting then
    match r with
    | .timeout => s.loopHead
    | .error => { s with accepting := false, failed := true }
    | .stream fd handleId => if s.stopped then { s with accepting := false } else (s.handleClient fd handleId).loopHead
  else s

def stop (s : TcpServer) : TcpServer := { s with stopped := true }

/-- the coroutine whose Task a label uses -/
def used : Scheduling.Label → Option ℕ
  | .schedule _ i | .scheduleOn _ i | .coAwait _ _ i => some i
  | _ => none

/-- the body of the coroutine has begun -/
def bodyBegun (t : Scheduling) (i : ℕ) : Bool := t.coros[i]?.any fun x => x.place ≠ .initial

/-- the bodies that have begun from `t` to `t'` -/
def begins (t t' : Scheduling) : List ℕ :=
  (List.range t'.coros.length).filter fun i => !bodyBegun t i && bodyBegun t' i

variable (H : HeapAlgorithms)

/-- another part of the program, or a loop -/
def program (l : Scheduling.Label) (s : TcpServer) : TcpServer :=
  if ∀ i ∈ used l, i ∈ s.tasks then
    { s with
      scheduling := s.scheduling.step H l
      -- the Tasks of the coroutines that it makes
      tasks := s.tasks ++ (List.range (s.scheduling.step H l).coros.length).drop s.scheduling.coros.length
      begun := s.begun ++ begins s.scheduling (s.scheduling.step H l) }
  else s

inductive Label where
  | accept (r : AcceptResult)
  | stop
  | program (l : Scheduling.Label)

def step (s : TcpServer) : Label → TcpServer
  | .accept r => s.accept r
  | .stop => s.stop
  | .program l => s.program H l

/-! ## The property and its condition -/

structure Serves (s : TcpServer) : Prop where
  /-- the body of each handler has been executed once, or is queued and has not been -/
  handled : ∀ h ∈ s.handlers, s.begun.count h.coro = 1 ∨
    s.begun.count h.coro = 0 ∧ ∃ L w, s.scheduling.Pends L w h.coro none
  /-- run has been left for a stop or an error only -/
  goesOn : s.accepting = false → s.stopped = true ∨ s.failed = true

def NoStream (s : TcpServer) : Label → Prop
  | .accept (.stream _ _) => s.accepting = true → s.stopped = true
  | _ => True

/-! ## Coroutines that nothing refers to -/

section
variable {H : HeapAlgorithms} {t : Scheduling} {i k j L : ℕ} {l : Scheduling.Label}

structure Dormant (t : Scheduling) (i : ℕ) : Prop where
  initial : ∀ x, t.coros[i]? = some x → x.place = .initial
  /-- it awaits no task -/
  childless : ∀ (j : ℕ) (y : Coro), t.coros[j]? = some y → y.parent ≠ some i
  idle : ∀ L w child, ¬ t.Pends L w i child

theorem Dormant.not_begun (h : Dormant t i) : bodyBegun t i = false := by
  unfold bodyBegun
  cases hx : t.coros[i]? with
  | none => rfl
  | some x => simp [h.initial x hx]

/-- a coroutine that is not at its initial suspend is another one -/
theorem Dormant.ne_of_place (h : Dormant t i) {x : Coro} (hk : t.coros[k]? = some x) (hx : x.place ≠ .initial) : k ≠ i := by
  rintro rfl
  exact hx (h.initial x hk)

theorem Dormant.create (h : Dormant t i) (id : ℕ) {waitAtInitialSuspend : Bool}
    (hnew : i = t.coros.length → waitAtInitialSuspend = true) : Dormant (t.create id waitAtInitialSuspend) i := by
  have hcoros : ∀ (j : ℕ) (y : Coro), (t.create id waitAtInitialSuspend).coros[j]? = some y →
      t.coros[j]? = some y ∨
        j = t.coros.length ∧ y = ⟨id, .unschedule, none, if waitAtInitialSuspend then .initial else .running⟩ := by
    intro j y hy
    rcases Nat.lt_trichotomy j t.coros.length with hlt | rfl | hgt
    · exact .inl ((List.getElem?_append_left hlt).symm.trans hy)
    · refine .inr ⟨rfl, ?_⟩
      rw [Scheduling.create, List.getElem?_concat_length] at hy
      exact (Option.some.inj hy).symm
    · obtain ⟨hlt, -⟩ := List.getElem?_eq_some_iff.1 hy
      simp only [Scheduling.create, List.length_append, List.length_singleton] at hlt
      omega
  refine ⟨fun x hx => ?_, fun j y hy => ?_, h.idle⟩
  · rcases hcoros i x hx with hold | ⟨hi, rfl⟩
    · exact h.initial x hold
    · rw [hnew hi]
      rfl
  · rcases hcoros j y hy with hold | ⟨-, rfl⟩
    · exact h.childless j y hold
    · exact fun hno => by cases hno

/-- a coroutine changes -/
theorem Dormant.change (h : Dormant t i) {f : Coro → Coro}
    (hplace : ∀ x, t.coros[k]? = some x → k = i → (f x).place = .initial)
    (hparent : ∀ x, t.coros[k]? = some x → (f x).parent ≠ some i) : Dormant (t.change k f) i := by
  cases hk : t.coros[k]? with
  | none =>
    rw [Scheduling.change_absent hk]
    exact h
  | some x =>
    refine ⟨fun x' hx' => ?_, fun j y hy => ?_, h.idle⟩
    · by_cases hki : k = i
      · subst hki
        obtain rfl := Option.some.inj ((Scheduling.change_self hk f).symm.trans hx')
        exact hplace x hk rfl
      · rw [Scheduling.change_other (Ne.symm hki) f] at hx'
        exact h.initial x' hx'
    · by_cases hjk : j = k
      · subst hjk
        obtain rfl := Option.some.inj ((Scheduling.change_self hk f).symm.trans hy)
        exact hparent x hk
      · rw [Scheduling.change_other hjk f] at hy
        exact h.childless j y hy

/-- no callback of a loop is new that would run it -/
theorem Dormant.withLoop (h : Dormant t i) {loop : Eventloop Callback}
    (hold : ∀ (w : ℕ) (cb : WaitCallback Callback) (child : Option ℕ), loop.waitCallback.lookup w = some cb →
      cb.userCb = .run i child → (t.loops L).waitCallback.lookup w = some cb) : Dormant (t.withLoop L loop) i := by
  refine ⟨h.initial, h.childless, ?_⟩
  rintro L' w child ⟨cb, hcb, hrun⟩
  rw [Scheduling.withLoop_loops] at hcb
  split_ifs at hcb with hL
  · exact h.idle L w child ⟨cb, hold w cb child hcb hrun, hrun⟩
  · exact h.idle L' w child ⟨cb, hcb, hrun⟩

theorem Dormant.callSoon (h : Dormant t i) (L : ℕ) (child : Option ℕ) (hne : k ≠ i) : Dormant (t.callSoon L k child) i := by
  unfold Scheduling.callSoon
  split
  · exact h
  · next x hx =>
    apply h.withLoop
    intro w cb child' hcb hrun
    rcases Eventloop.step_origin (H := sortedHeap) (.callSoon x.id (Callback.run k child)) hcb with hold | hnew
    · exact hold
    · rw [hrun] at hnew
      cases hnew
      exact absurd rfl hne

theorem Dormant.scheduleOn (h : Dormant t i) (L : ℕ) (hne : k ≠ i) : Dormant (t.scheduleOn L k) i := by
  unfold Scheduling.scheduleOn
  split
  · exact h
  · split_ifs
    · exact h.callSoon L none hne
    · exact h

/-- the coroutine that awaits runs, so it is another one -/
theorem Dormant.coAwait (h : Dormant t i) (L k : ℕ) (hne : j ≠ i) : Dormant (t.coAwait L k j) i := by
  rcases Scheduling.coAwait_cases t L k j with ⟨-, he⟩ | ⟨⟨x, y, hk, -, hrunning, -, -⟩, he⟩
  · rw [he]
    exact h
  · rw [he]
    have hki : k ≠ i := h.ne_of_place hk (by rw [hrunning]; exact fun hno => by cases hno)
    have hparent : Dormant (t.change k fun x => { x with state := .suspend, place := .onChild j }) i :=
      h.change (fun _ _ heq => absurd heq hki) (h.childless k)
    apply Dormant.scheduleOn _ L hne
    exact hparent.change (fun _ _ heq => absurd heq hne) fun _ _ heq => hki (Option.some.inj heq)

theorem Dormant.finish (h : Dormant t i) (L j : ℕ) : Dormant (t.finish L j) i := by
  unfold Scheduling.finish
  split
  · exact h
  · next y hy =>
    split_ifs with hrunning
    · exact h
    rw [not_not] at hrunning
    have hji : j ≠ i := h.ne_of_place hy (by rw [hrunning]; exact fun hno => by cases hno)
    have hfinal : Dormant (t.change j fun y => { y with place := .final }) i :=
      h.change (fun _ _ heq => absurd heq hji) (h.childless j)
    dsimp only
    split
    · exact hfinal
    · next p hp =>
      have hpi : p ≠ i := by
        rintro rfl
        exact h.childless j y hy hp
      apply Dormant.callSoon _ L _ hpi
      exact hfinal.change (fun _ _ heq => absurd heq hpi) (hfinal.childless p)

theorem Dormant.move (h : Dormant t i) (k : ℕ) {p q : Scheduling.Place} (hp : p ≠ .initial) : Dormant (t.move k p q) i := by
  apply h.change
  · rintro x hx rfl
    have hinitial := h.initial x hx
    rw [if_neg (by rw [hinitial]; exact hp.symm)]
    exact hinitial
  · intro x hx
    split_ifs <;> exact h.childless k x hx

theorem Dormant.resume (h : Dormant t i) (child : Option ℕ) (hne : k ≠ i) : Dormant (t.resume k child) i := by
  unfold Scheduling.resume
  split
  · exact h
  · next x hx =>
    have hastray : Dormant (if x.place.awaited = some child then t else { t with astray := t.astray ++ [k] }) i := by
      split_ifs
      · exact h
      · exact ⟨h.initial, h.childless, h.idle⟩
    by_cases hplace : x.place = .running ∨ x.place = .final
    · rw [if_pos hplace]
      exact hastray
    · rw [if_neg hplace]
      exact hastray.change (fun _ _ heq => absurd heq hne) (hastray.childless k)

theorem Dormant.executeReady (h : Dormant t i) (L : ℕ) : Dormant (t.executeReady L) i := by
  have hloop : Dormant (t.withLoop L (t.loops L).executeReady.2) i :=
    h.withLoop fun w cb child hcb _ => Eventloop.executeReady_origin hcb
  unfold Scheduling.executeReady
  rcases Eventloop.executeReady_cases (t.loops L) with ⟨-, he⟩ | ⟨w, queue, -, -, he⟩ | ⟨w, queue, cb, -, hcb, he⟩
  · rw [he] at hloop ⊢
    exact hloop
  · rw [he] at hloop ⊢
    exact hloop
  · rw [he] at hloop ⊢
    obtain ⟨coroId, waitId, userCb⟩ := cb
    cases userCb with
    | other => exact hloop
    | run k child =>
      -- what is executed has been pending
      apply hloop.resume child
      rintro rfl
      exact h.idle L w child ⟨_, hcb, rfl⟩

theorem Dormant.loop (h : Dormant t i) (L : ℕ) (l : Eventloop.Label Unit) : Dormant (t.step H (.loop L l)) i := by
  have hother : Dormant (t.withLoop L ((t.loops L).step H (Scheduling.other l))) i := by
    apply h.withLoop
    intro w cb child hcb hrun
    rcases Eventloop.step_origin (Scheduling.other l) hcb with hold | hnew
    · exact hold
    · cases hrun.symm.trans (Scheduling.other_userCb hnew)
  cases l with
  | executeReady => exact h.executeReady L
  | _ => exact hother

/-- **One step** leaves a coroutine dormant whose Task it does not use -/
theorem Dormant.step (h : Dormant t i) (hused : i ∉ used l)
    (hi : i < t.coros.length ∨ (t.step H l).coros.length ≤ i) : Dormant (t.step H l) i := by
  have hne : ∀ k, used l = some k → k ≠ i := by
    rintro k hk rfl
    exact hused hk
  cases l with
  | create id waitAtInitialSuspend =>
    apply h.create id
    intro heq
    simp only [Scheduling.step, Scheduling.create, List.length_append, List.length_singleton] at hi
    omega
  | schedule L k => exact h.scheduleOn L (hne k rfl)
  | scheduleOn L k => exact h.scheduleOn L (hne k rfl)
  | coAwait L k j => exact h.coAwait L k (hne j rfl)
  | finish L j => exact h.finish L j
  | suspend k => exact h.move k fun hno => by cases hno
  | wake k => exact h.move k fun hno => by cases hno
  | loop L l => exact h.loop L l

/-! ### Coroutines are never unmade -/

theorem scheduleOn_coros (t : Scheduling) (L k : ℕ) : (t.scheduleOn L k).coros = t.coros := by
  unfold Scheduling.scheduleOn
  split
  · rfl
  · split_ifs
    · exact Scheduling.callSoon_coros
    · rfl

theorem coAwait_length (t : Scheduling) (L k j : ℕ) : (t.coAwait L k j).coros.length = t.coros.length := by
  rcases Scheduling.coAwait_cases t L k j with ⟨-, he⟩ | ⟨-, he⟩
  · rw [he]
  · rw [he, scheduleOn_coros]
    simp only [Scheduling.suspendOn, Scheduling.change, List.length_modify]

theorem finish_length (t : Scheduling) (L j : ℕ) : (t.finish L j).coros.length = t.coros.length := by
  unfold Scheduling.finish
  split
  · rfl
  · split_ifs
    · rfl
    · dsimp only
      split
      · simp only [Scheduling.change, List.length_modify]
      · rw [Scheduling.callSoon_coros]
        simp only [Scheduling.change, List.length_modify]

theorem resume_length (t : Scheduling) (k : ℕ) (child : Option ℕ) : (t.resume k child).coros.length = t.coros.length := by
  unfold Scheduling.resume
  split
  · rfl
  · dsimp only
    split_ifs <;> simp only [Scheduling.change, List.length_modify]

theorem executeReady_length (t : Scheduling) (L : ℕ) : (t.executeReady L).coros.length = t.coros.length := by
  unfold Scheduling.executeReady
  split
  · exact resume_length _ _ _
  · rfl

theorem length_le_step (t : Scheduling) (l : Scheduling.Label) : t.coros.length ≤ (t.step H l).coros.length := by
  cases l with
  | create id waitAtInitialSuspend =>
    simp only [Scheduling.step, Scheduling.create, List.length_append]
    exact Nat.le_add_right _ _
  | schedule L k => exact (congrArg List.length (scheduleOn_coros t L k)).ge
  | scheduleOn L k => exact (congrArg List.length (scheduleOn_coros t L k)).ge
  | coAwait L k j => exact (coAwait_length t L k j).ge
  | finish L j => exact (finish_length t L j).ge
  | suspend k => exact (List.length_modify _ _ _).ge
  | wake k => exact (List.length_modify _ _ _).ge
  | loop L l =>
    cases l with
    | executeReady => exact (executeReady_length t L).ge
    | _ => exact le_rfl

end

/-! ## What holds in every run -/

section
variable {H : HeapAlgorithms} {s : TcpServer}

/-- the handlers stay as they have been made, and nobody has their Tasks -/
structure Inv (s : TcpServer) : Prop where
  absent : ∀ i, s.scheduling.coros.length ≤ i → Dormant s.scheduling i
  handlers : ∀ h ∈ s.handlers, h.coro < s.scheduling.coros.length ∧ Dormant s.scheduling h.coro ∧ h.coro ∉ s.tasks ∧
    h.coro ∉ s.begun
  tasks : ∀ i ∈ s.tasks, i < s.scheduling.coros.length
  begun : ∀ i ∈ s.begun, i < s.scheduling.coros.length
  goesOn : s.accepting = false → s.stopped = true ∨ s.failed = true

theorem start_inv : Inv start where
  absent := by
    refine fun i _ => ⟨fun x hx => (by cases hx), fun j y hy => (by cases hy), ?_⟩
    rintro L w child ⟨cb, hcb, -⟩
    exact absurd hcb lookup_empty_ne
  handlers := by simp [start]
  tasks := by simp [start]
  begun := by simp [start]
  goesOn := nofun

theorem Inv.loopHead (h : Inv s) : Inv s.loopHead := by
  unfold TcpServer.loopHead
  split_ifs with hstop
  · exact ⟨h.absent, h.handlers, h.tasks, h.begun, fun _ => .inl hstop⟩
  · exact h

theorem Inv.handleClient (h : Inv s) (fd : ℤ) (handleId : ℕ) : Inv (s.handleClient fd handleId) := by
  have hlen : (s.scheduling.create handleId true).coros.length = s.scheduling.coros.length + 1 := by
    simp only [Scheduling.create, List.length_append, List.length_singleton]
  have hdormant : ∀ i, Dormant s.scheduling i → Dormant (s.scheduling.create handleId true) i :=
    fun i hi => hi.create handleId fun _ => rfl
  refine ⟨fun i hi => hdormant i (h.absent i ?_), fun x hx => ?_, fun i hi => ?_, fun i hi => ?_, h.goesOn⟩
  · exact (Nat.le_succ _).trans (hlen.ge.trans hi)
  · change x.coro < (s.scheduling.create handleId true).coros.length ∧ _
    rw [hlen]
    rcases List.mem_append.1 hx with hold | hnew
    · obtain ⟨hlt, hi, htask, hbegun⟩ := h.handlers x hold
      exact ⟨Nat.lt_succ_of_lt hlt, hdormant _ hi, htask, hbegun⟩
    · -- the Task of the new one is in nobody's hands
      obtain rfl := List.mem_singleton.1 hnew
      exact ⟨Nat.lt_succ_self _, hdormant _ (h.absent _ le_rfl), fun hmem => absurd (h.tasks _ hmem) (lt_irrefl _),
        fun hmem => absurd (h.begun _ hmem) (lt_irrefl _)⟩
  · exact (Nat.lt_succ_of_lt (h.tasks i hi)).trans_eq hlen.symm
  · exact (Nat.lt_succ_of_lt (h.begun i hi)).trans_eq hlen.symm

theorem Inv.accept (h : Inv s) (r : AcceptResult) : Inv (s.accept r) := by
  unfold TcpServer.accept
  by_cases haccepting : s.accepting = true
  swap
  · rw [if_neg haccepting]
    exact h
  rw [if_pos haccepting]
  cases r with
  | timeout => exact h.loopHead
  | error => exact ⟨h.absent, h.handlers, h.tasks, h.begun, fun _ => .inr rfl⟩
  | stream fd handleId =>
    dsimp only
    split_ifs with hstop
    · exact ⟨h.absent, h.handlers, h.tasks, h.begun, fun _ => .inl hstop⟩
    · exact (h.handleClient fd handleId).loopHead

theorem mem_begins {t t' : Scheduling} {i : ℕ} (hi : i ∈ begins t t') : i < t'.coros.length ∧ bodyBegun t' i = true := by
  obtain ⟨hrange, hbegun⟩ := List.mem_filter.1 hi
  exact ⟨List.mem_range.1 hrange, (Bool.and_eq_true_iff.1 hbegun).2⟩

theorem Inv.program (h : Inv s) (l : Scheduling.Label) : Inv (s.program H l) := by
  unfold TcpServer.program
  split_ifs with hused
  swap
  · exact h
  have hle : s.scheduling.coros.length ≤ (s.scheduling.step H l).coros.length := length_le_step _ l
  have hnew : ∀ i ∈ (List.range (s.scheduling.step H l).coros.length).drop s.scheduling.coros.length,
      s.scheduling.coros.length ≤ i ∧ i < (s.scheduling.step H l).coros.length := by
    intro i hi
    rw [List.range_eq_range', List.drop_range'] at hi
    have := List.mem_range'_1.1 hi
    omega
  refine ⟨fun i hi => ?_, fun x hx => ?_, fun i hi => ?_, fun i hi => ?_, h.goesOn⟩
  · apply (h.absent i (hle.trans hi)).step _ (.inr hi)
    intro hmem
    exact absurd (h.tasks i (hused i hmem)) (Nat.not_lt.2 (hle.trans hi))
  · obtain ⟨hlt, hi, htask, hbegun⟩ := h.handlers x hx
    have hstep : Dormant (s.scheduling.step H l) x.coro := hi.step (fun hmem => htask (hused _ hmem)) (.inl hlt)
    refine ⟨lt_of_lt_of_le hlt hle, hstep, fun hmem => ?_, fun hmem => ?_⟩
    · rcases List.mem_append.1 hmem with hold | hmade
      · exact htask hold
      · exact absurd hlt (Nat.not_lt.2 (hnew _ hmade).1)
    · rcases List.mem_append.1 hmem with hold | hbegins
      · exact hbegun hold
      · cases hstep.not_begun.symm.trans (mem_begins hbegins).2
  · rcases List.mem_append.1 hi with hold | hmade
    · exact lt_of_lt_of_le (h.tasks i hold) hle
    · exact (hnew i hmade).2
  · rcases List.mem_append.1 hi with hold | hbegins
    · exact lt_of_lt_of_le (h.begun i hold) hle
    · exact (mem_begins hbegins).1

theorem Inv.step (h : Inv s) (l : Label) : Inv (s.step H l) := by
  cases l with
  | accept r => exact h.accept r
  | stop => exact ⟨h.absent, h.handlers, h.tasks, h.begun, fun _ => .inl rfl⟩
  | program l => exact h.program l

theorem Inv.run (h : Inv s) (ls : List Label) : Inv (Machine.run (TcpServer.step H) s ls) :=
  Machine.inv_run_of_step (I := Inv) (fun _ l hs => hs.step l) h ls

/-- **No handler begins**: whatever the rest of the program does, the body of handle_client is not executed for any accepted
stream, and no callback that would execute it is pending -/
theorem never_begun (H : HeapAlgorithms) (ls : List Label) {h : Handler}
    (hmem : h ∈ (Machine.run (step H) start ls).handlers) :
    (Machine.run (step H) start ls).begun.count h.coro = 0 ∧
      ∀ L w child, ¬ (Machine.run (step H) start ls).scheduling.Pends L w h.coro child := by
  obtain ⟨-, hdormant, -, hbegun⟩ := (start_inv.run ls).handlers h hmem
  exact ⟨List.count_eq_zero.2 hbegun, hdormant.idle⟩

/-! ## Streams that are accepted -/

theorem Inv.not_serves (h : Inv s) {x : Handler} (hx : x ∈ s.handlers) : ¬ Serves s := by
  intro hserves
  obtain ⟨-, hdormant, -, hbegun⟩ := h.handlers x hx
  rcases hserves.handled x hx with hone | ⟨-, L, w, hp⟩
  · rw [List.count_eq_zero.2 hbegun] at hone
    cases hone
  · exact hdormant.idle L w none hp

theorem loopHead_handlers (s : TcpServer) : s.loopHead.handlers = s.handlers := by
  unfold loopHead
  split_ifs <;> rfl

theorem handlers_of_noStream {l : Label} (hl : NoStream s l) : (s.step H l).handlers = s.handlers := by
  cases l with
  | accept r =>
    change (s.accept r).handlers = s.handlers
    unfold TcpServer.accept
    by_cases haccepting : s.accepting = true
    swap
    · rw [if_neg haccepting]
    rw [if_pos haccepting]
    cases r with
    | timeout => exact loopHead_handlers s
    | error => rfl
    | stream fd handleId =>
      have hstop : s.stopped = true := hl haccepting
      simp only [hstop, if_true]
  | stop => rfl
  | program l =>
    change (s.program H l).handlers = s.handlers
    unfold TcpServer.program
    split_ifs <;> rfl

/-- the stream is handed over -/
theorem handlers_of_stream {l : Label} (hl : ¬ NoStream s l) : ∃ x, x ∈ (s.step H l).handlers := by
  cases l with
  | accept r =>
    cases r with
    | stream fd handleId =>
      simp only [NoStream, Classical.not_imp, Bool.not_eq_true] at hl
      obtain ⟨haccepting, hstop⟩ := hl
      refine ⟨⟨fd, s.scheduling.coros.length⟩, ?_⟩
      rw [step, accept, if_pos haccepting, hstop, if_neg Bool.false_ne_true, loopHead_handlers]
      exact List.mem_append_right _ (List.mem_singleton.2 rfl)
    | timeout | error => exact absurd trivial hl
  | stop | program => exact absurd trivial hl

end

/-- **Serving**: over every run of the server among the rest of a program, the body of handle_client is executed once for
each accepted stream while run goes on accepting, exactly if no stream is accepted before stop -/
theorem serves_iff (H : HeapAlgorithms) (ls : List Label) :
    (∀ n, Serves (Machine.run (step H) start (ls.take n))) ↔ Machine.Along (step H) NoStream start ls := by
  refine Machine.along_iff (L := fun _ => True) (I := fun s => Inv s ∧ s.handlers = []) ?_ ?_ ?_ ⟨start_inv, rfl⟩
    (fun _ _ => trivial)
  · rintro s ⟨h, hnone⟩
    exact ⟨by simp [hnone], h.goesOn⟩
  · rintro s l - ⟨h, hnone⟩ hl
    exact ⟨h.step l, (handlers_of_noStream hl).trans hnone⟩
  · rintro s l - ⟨h, -⟩ hl
    obtain ⟨x, hx⟩ := handlers_of_stream (H := H) hl
    exact (h.step l).not_serves hx

/-- one connection, and the loop of the thread is run: the body of its handler is not executed -/
theorem stream_not_served :
    (Machine.run (step sortedHeap) start [.accept (.stream 7 1), .program (.loop 0 .executeReady),
        .accept .timeout]).handlers = [⟨7, 0⟩] ∧
      (Machine.run (step sortedHeap) start [.accept (.stream 7 1), .program (.loop 0 .executeReady),
        .accept .timeout]).begun = [] ∧
      ¬ Serves (Machine.run (step sortedHeap) start [.accept (.stream 7 1), .program (.loop 0 .executeReady),
        .accept .timeout]) := by
  refine ⟨by decide +kernel, by decide +kernel, ?_⟩
  exact (start_inv.run _).not_serves (x := ⟨7, 0⟩) (by decide +kernel)

end TcpServer

end MCoroRpc
