/-
The deadline of a call (CallMethodAsync and initController in include/rpc/rpc_channel.inl, run_once in
src/event_loop.cc).

Time is counted in ticks of the clock, nanoseconds, from the moment wait_for starts its timer. A `Wait` is the wait_for
of a call in its loop, and each label is one run_once, whose epoll wait comes back at the time the label says: `Returns`
is what the kernel promises for the timeout that run_once gives to it. The answer is there from the time `d` on; the
callbacks themselves take no time.

CallMethodAsync gives wait_for a duration of `timeout_ms / 1000` milliseconds.

- `run_result`: wait_for tells of the timer exactly if that expires before the answer is there.
- `deadline_iff`: a call keeps its deadline exactly if the answer does not come behind `timeout_ms / 1000` milliseconds
  and before `timeout_ms` milliseconds.
- `default_missed`: with the timeout of a new controller, 3 seconds, an answer after 4 milliseconds is too late.
-/
import MCoroRpc.Coro.WaitFor
import MCoroRpc.Rpc.Completion

namespace MCoroRpc

open TcpBuffer TcpStream TinyPB
open RpcDispatcher (ascii)
open RpcChannel hiding Inv

namespace Deadline

/-! ## The timer of a call -/

/-- ticks of the clock in `n` milliseconds -/
def milliseconds (n : ℤ) : ℤ := 1000000 * n

/-- the timeout that initController leaves in a controller with `timeout`, on a channel with `channelTimeout` -/
def initController (channelTimeout timeout : ℤ) : ℤ := if timeout ≤ 0 then channelTimeout else timeout

/-- when the timer of wait_for expires; the division is that of `int` -/
def expiry (timeoutMs : ℤ) : ℤ := milliseconds (timeoutMs.tdiv 1000)

theorem expiry_nonneg {t : ℤ} (ht : 1 ≤ t) : 0 ≤ expiry t := by
  have := Int.tdiv_nonneg (a := t) (b := 1000) (by omega) (by norm_num)
  unfold expiry milliseconds
  omega

theorem expiry_le {t : ℤ} (ht : 1 ≤ t) : expiry t ≤ milliseconds t := by
  have : t.tdiv 1000 ≤ t := by
    rw [Int.tdiv_eq_ediv_of_nonneg (by omega)]
    omega
  unfold expiry milliseconds
  omega

/-! ## The loop around it -/

/-- `T` is when the timer expires -/
structure Wait where
  now : ℤ
  waitFor : WaitFor Unit Unit

/-- execute_ready_callback: callbacks are run until none is left -/
def executeReady (w : WaitFor Unit Unit) : WaitFor Unit Unit :=
  WaitFor.execute^[w.ready.length + w.ready.count .coroutine] w

/-- wait_for is called; an answer that is already there is read at once -/
def start (waitId : ℕ) (d : ℤ) : Wait := ⟨0, WaitFor.start waitId (if d ≤ 0 then some (.ok ()) else none)⟩

/-- the timeout that run_once gives to epoll, in milliseconds; -1 is none -/
def timeoutMs (T : ℤ) (s : Wait) : ℤ :=
  if s.waitFor.ready ≠ [] then 0
  else if s.waitFor.timer.scheduled then
    if s.now < T then (T - s.now) / 1000000 else 0
  else -1

/-- run_once, whose epoll wait comes back at `now` -/
def runOnce (T d : ℤ) (s : Wait) (now : ℤ) : Wait :=
  let w := executeReady s.waitFor
  -- the stream is readable, and what it brings ends the task
  let w := if d ≤ now then w.finish (.ok ()) else w
  let w := executeReady w
  ⟨now, if T ≤ now then w.expire else w⟩

/-- epoll comes back when the timeout is over, and no later than the answer for which the stream waits; another event
may bring it back earlier -/
structure Returns (T d : ℤ) (s : Wait) (now : ℤ) : Prop where
  monotone : s.now ≤ now
  timeout : 0 ≤ timeoutMs T s → now ≤ s.now + milliseconds (timeoutMs T s)
  readable : s.now < d → now ≤ d

theorem timeoutMs_ready {T : ℤ} {s : Wait} (h : s.waitFor.ready ≠ []) : timeoutMs T s = 0 := if_pos h

/-- as long as the timer stands in the heap, the epoll wait is over no later than the timer expires -/
theorem Returns.at_timer {T d now : ℤ} {s : Wait} (hp : Returns T d s now) (hready : s.waitFor.ready = [])
    (hscheduled : s.waitFor.timer.scheduled = true) (hT : s.now ≤ T) : now ≤ T := by
  have htimeout := hp.timeout
  simp only [timeoutMs, hready, hscheduled, ne_eq, not_true_eq_false, if_false, if_true, milliseconds] at htimeout
  split_ifs at htimeout with hlt
  · have hle : 1000000 * ((T - s.now) / 1000000) ≤ T - s.now := Int.mul_ediv_self_le (by norm_num)
    have hge : 0 ≤ (T - s.now) / 1000000 := by omega
    calc now ≤ s.now + 1000000 * ((T - s.now) / 1000000) := htimeout hge
      _ ≤ s.now + (T - s.now) := by omega
      _ = T := by omega
  · calc now ≤ s.now + 1000000 * 0 := htimeout le_rfl
      _ ≤ T := by omega

/-! ## What wait_for tells of the timer -/

/-- what wait_for returns: the answer, and the timer if that expires before it -/
def outcome (T d : ℤ) : WaitForResult Unit := { ok := true, value := some (), isTimeout := decide (T < d) }

/-- what holds between two rounds of the loop -/
structure Inv (T d : ℤ) (s : Wait) : Prop where
  waitFor : s.waitFor.Inv
  /-- the answer is not there -/
  before : s.waitFor.task = none → s.now < d ∧ (s.waitFor.late = true → T ≤ s.now) ∧ (s.waitFor.late = false → s.now ≤ T)
  /-- the answer has been read -/
  behind : ∀ r, s.waitFor.task = some r →
    r = .ok () ∧ s.waitFor.late = decide (T < d) ∧ s.waitFor.result = some (outcome T d)

variable {T d now : ℤ} {s : Wait} {w : WaitFor Unit Unit}

theorem executeReady_inv (h : w.Inv) : (executeReady w).Inv := WaitFor.iterate_inv h _

theorem executeReady_task (w : WaitFor Unit Unit) : (executeReady w).task = w.task ∧ (executeReady w).late = w.late := by
  obtain ⟨ht, hf⟩ := WaitFor.iterate_execute_task w (w.ready.length + w.ready.count .coroutine)
  exact ⟨ht, WaitFor.late_congr hf⟩

theorem executeReady_result (h : w.Inv) {r : Except Unit Unit} (hr : w.task = some r) :
    (executeReady w).result = some (WaitFor.told w.late r) :=
  h.result hr (WaitFor.execute_drained le_rfl)

/-- what process_expired_timeout leaves as it is, behind the end of the task -/
theorem expire_ended (h : w.Inv) {r : Except Unit Unit} (hr : w.task = some r) :
    w.expire.late = w.late ∧ w.expire.task = w.task ∧ w.expire.result = w.result := by
  obtain ⟨hsome, -, -⟩ := h.ended r hr
  obtain ⟨e, he⟩ := Option.isSome_iff_exists.1 hsome
  obtain ⟨hres, htask, -⟩ := WaitFor.expire_ready w
  exact ⟨WaitFor.expire_late he, htask, hres⟩

/-- as long as the answer is not there, run_once is back at the timer -/
theorem Inv.in_time (h : Inv T d s) (hp : Returns T d s now) (htask : s.waitFor.task = none)
    (hlate : s.waitFor.late = false) : now ≤ T := by
  obtain ⟨-, -, harmed⟩ := h.before htask
  obtain ⟨-, hw⟩ := h.waitFor.waits htask
  cases hw with
  | armed hfirst hready hfired hlive hscheduled hcompleted => exact hp.at_timer hready hscheduled (harmed hlate)
  | due hl => cases hlate.symm.trans hl
  | fired hl => cases hlate.symm.trans hl

/-- the round behind the end of the task -/
theorem expires_behind (hw : w.Inv) (htask : w.task = some (.ok ())) (hlate : w.late = decide (T < d)) (now : ℤ) :
    Inv T d ⟨now, if T ≤ now then (executeReady w).expire else executeReady w⟩ := by
  have hi := executeReady_inv hw
  obtain ⟨ht, hl⟩ := executeReady_task w
  have hres := executeReady_result hw htask
  rw [hlate] at hl hres
  have htask' := ht.trans htask
  obtain ⟨hl', ht', hres'⟩ := expire_ended hi htask'
  split_ifs with hT
  · refine ⟨WaitFor.expire_inv hi, ?_, ?_⟩
    · intro hn
      cases hn.symm.trans (ht'.trans htask')
    · intro r hr
      obtain rfl : .ok () = r := Option.some.inj ((ht'.trans htask').symm.trans hr)
      exact ⟨rfl, hl'.trans hl, hres'.trans hres⟩
  · refine ⟨hi, ?_, ?_⟩
    · intro hn
      cases hn.symm.trans htask'
    · intro r hr
      obtain rfl : .ok () = r := Option.some.inj (htask'.symm.trans hr)
      exact ⟨rfl, hl, hres⟩

/-- a round before the answer -/
theorem expires_before (hw : w.Inv) (htask : w.task = none) (hlate : w.late = true → T ≤ now) (hd : now < d) :
    Inv T d ⟨now, if T ≤ now then w.expire else w⟩ := by
  split_ifs with hT
  · refine ⟨WaitFor.expire_inv hw, ?_, ?_⟩
    · intro _
      refine ⟨hd, fun _ => hT, ?_⟩
      intro hl
      cases hl.symm.trans (hw.expired htask)
    · intro r hr
      cases hr.symm.trans ((WaitFor.expire_ready w).2.1.trans htask)
  · refine ⟨hw, fun _ => ⟨hd, hlate, fun _ => le_of_not_ge hT⟩, ?_⟩
    intro r hr
    cases hr.symm.trans htask

theorem runOnce_inv (h : Inv T d s) (hp : Returns T d s now) : Inv T d (runOnce T d s now) := by
  have hi := executeReady_inv h.waitFor
  obtain ⟨ht, hl⟩ := executeReady_task s.waitFor
  cases htask : s.waitFor.task with
  | some r =>
    obtain ⟨rfl, hlate, -⟩ := h.behind r htask
    have hfin : (if d ≤ now then (executeReady s.waitFor).finish (.ok ()) else executeReady s.waitFor) =
        executeReady s.waitFor := by
      simp only [WaitFor.finish, ht, htask, ite_self]
    simp only [runOnce, hfin]
    exact expires_behind hi (ht.trans htask) (hl.trans hlate) now
  | none =>
    obtain ⟨hnow, hexpired, -⟩ := h.before htask
    by_cases hd : d ≤ now
    · -- the first round in which the answer is there
      have hlate : s.waitFor.late = decide (T < d) := by
        have hle := hp.readable hnow
        cases hlate : s.waitFor.late with
        | true =>
          have := hexpired hlate
          exact (decide_eq_true (show T < d by omega)).symm
        | false =>
          have := h.in_time hp htask hlate
          exact (decide_eq_false (show ¬ T < d by omega)).symm
      simp only [runOnce, if_pos hd]
      refine expires_behind (WaitFor.finish_inv hi _) ?_ ?_ now
      · simp only [WaitFor.finish, ht, htask]
      · rw [WaitFor.finish_late, hl, hlate]
    · simp only [runOnce, if_neg hd]
      obtain ⟨ht', hl'⟩ := executeReady_task (executeReady s.waitFor)
      refine expires_before (executeReady_inv hi) (ht'.trans (ht.trans htask)) ?_ (by omega)
      intro hlate
      rw [hl', hl] at hlate
      exact (hexpired hlate).trans hp.monotone

theorem start_inv (waitId : ℕ) (hT : 0 ≤ T) : Inv T d (start waitId d) := by
  obtain ⟨hw, hlate⟩ := WaitFor.start_inv (T := Unit) (E := Unit) waitId (if d ≤ 0 then some (.ok ()) else none)
  refine ⟨hw, ?_, ?_⟩
  · intro htask
    by_cases hd : d ≤ 0
    · simp [start, hd, WaitFor.start, WaitFor.goOn] at htask
    · exact ⟨not_le.1 hd, fun hl => (by cases hl.symm.trans hlate), fun _ => hT⟩
  · intro r hr
    by_cases hd : d ≤ 0
    · have hTd : decide (T < d) = false := decide_eq_false (by omega)
      simp only [start, hd, if_true, WaitFor.start, WaitFor.goOn, Option.some.injEq] at hr hlate ⊢
      obtain rfl := hr
      exact ⟨rfl, hlate.trans hTd.symm, by rw [outcome, hTd]⟩
    · simp [start, hd, WaitFor.start] at hr

/-- **The timer of wait_for**: in every run of the loop, behind the answer wait_for has returned, and it tells of the
timer exactly if that expires before the answer is there -/
theorem run_result (waitId : ℕ) (hT : 0 ≤ T) {ls : List ℤ}
    (hls : Machine.Along (runOnce T d) (Returns T d) (start waitId d) ls)
    (hd : d ≤ (Machine.run (runOnce T d) (start waitId d) ls).now) :
    (Machine.run (runOnce T d) (start waitId d) ls).waitFor.result = some (outcome T d) := by
  have h := Machine.inv_run (I := Inv T d) (fun _ _ hp hs => runOnce_inv hs hp) hls (start_inv waitId hT)
  cases htask : (Machine.run (runOnce T d) (start waitId d) ls).waitFor.task with
  | none => exact absurd (h.before htask).1 (not_lt.2 hd)
  | some r => exact (h.behind r htask).2.2

/-- from the start, epoll may come back at any time up to the timer and the answer -/
theorem start_returns (waitId : ℕ) {m : ℤ} (h0 : 0 ≤ now) (hT : now ≤ milliseconds m) (hd : now ≤ d) :
    Returns (milliseconds m) d (start waitId d) now := by
  refine ⟨h0, ?_, fun _ => hd⟩
  have hnow : (start waitId d).now = 0 := rfl
  rw [hnow, zero_add]
  by_cases hd0 : d ≤ 0
  · have hready : (start waitId d).waitFor.ready ≠ [] := by
      simp [start, hd0, WaitFor.start, WaitFor.goOn]
    intro _
    rw [timeoutMs_ready hready]
    exact hd.trans hd0
  · have hready : (start waitId d).waitFor.ready = [] ∧ (start waitId d).waitFor.timer.scheduled = true := by
      simp [start, hd0, WaitFor.start, Timer.start]
    simp only [timeoutMs, hready.1, hready.2, hnow, ne_eq, not_true_eq_false, if_false, if_true]
    simp only [milliseconds] at hT ⊢
    split_ifs <;> omega

/-- the round in which the timer expires -/
theorem runOnce_expires (waitId : ℕ) (hd : 0 < d) (hT : T < d) : runOnce T d (start waitId d) T =
    ⟨T, ⟨none, { Timer.start waitId {} with scheduled := false }, false, false, [.timer], none, some .expired⟩⟩ := by
  simp [runOnce, start, executeReady, WaitFor.start, WaitFor.expire, Timer.start, not_le.2 hd, not_le.2 hT]

/-- the next one runs its callback; from then on nothing but the answer ends the wait for events -/
theorem runOnce_fires (waitId : ℕ) (hT : T < d) : runOnce T d
      ⟨T, ⟨none, { Timer.start waitId {} with scheduled := false }, false, false, [.timer], none, some .expired⟩⟩ T =
    ⟨T, ⟨none, ⟨true, 0, false, false⟩, true, false, [], none, some .expired⟩⟩ := by
  simp [runOnce, executeReady, WaitFor.execute, WaitFor.onTimeout, Timer.run, WaitFor.expire, Timer.start, not_le.2 hT]

/-- with a timer of whole milliseconds there is such a run: the loop is back at the timer, if that is first, and at the
answer -/
theorem run_reaches (waitId : ℕ) {m : ℤ} (hm : 0 ≤ m) (d : ℕ) :
    ∃ ls, Machine.Along (runOnce (milliseconds m) d) (Returns (milliseconds m) d) (start waitId d) ls ∧
      d ≤ (Machine.run (runOnce (milliseconds m) d) (start waitId d) ls).now := by
  have hT : 0 ≤ milliseconds m := by
    unfold milliseconds
    omega
  by_cases hle : (d : ℤ) ≤ milliseconds m
  · exact ⟨[(d : ℤ)], ⟨start_returns waitId (Int.natCast_nonneg d) hle le_rfl, trivial⟩, le_rfl⟩
  · rw [not_le] at hle
    refine ⟨[milliseconds m, milliseconds m, (d : ℤ)], ⟨start_returns waitId hT le_rfl hle.le, ?_⟩, le_rfl⟩
    rw [runOnce_expires waitId (by omega) hle, Machine.along_cons, runOnce_fires waitId hle]
    refine ⟨⟨le_rfl, ?_, fun _ => hle.le⟩, ⟨hle.le, ?_, fun _ => le_rfl⟩, trivial⟩
    · simp [timeoutMs, milliseconds]
    · simp [timeoutMs]

/-! ## The deadline -/

/-- a request that can be sent on a channel on which nothing is left, and a complete and valid answer to it -/
structure Answered (s : Client) (c : RpcChannel.Call) : Prop where
  ready : s.status = .ready
  buffer : s.buffer.WF
  size : s.buffer.size = 65536
  empty : s.buffer.content = []
  fresh : c.controller.failed = false
  request : ∃ pbData, c.request = some pbData ∧ Encodes c pbData
  written : c.written = true
  limits : WithinLimits c.answer
  accepted : c.answer.errCode = 0
  complete : s.incoming = [] ∧ ∃ n b, reading s c = .ok (.done n, [], b)

/-- in every run of the loop that gets as far as the answer, the call ends with an `e` of this kind -/
def Ends (T d : ℤ) (s : Client) (c : RpcChannel.Call) (P : Completed → Prop) : Prop :=
  ∀ waitId ls, Machine.Along (runOnce T d) (Returns T d) (start waitId d) ls →
    d ≤ (Machine.run (runOnce T d) (start waitId d) ls).now →
    ∃ r, (Machine.run (runOnce T d) (start waitId d) ls).waitFor.result = some r ∧
      ∃ N e, P e ∧ ∀ fuel, N ≤ fuel → (callMethodAsync fuel s { c with expired := r.isTimeout }).calls = s.calls ++ [e]

/-- the call reports a timeout -/
def TimedOut (e : Completed) : Prop := e.controller.failed = true ∧ e.controller.errorText = ascii "rpc timeout"

/-- the call succeeds, with its answer -/
def Succeeded (c : RpcChannel.Call) (e : Completed) : Prop :=
  e.controller.failed = false ∧ e.response = some c.answer.pbData

/-- the answer is all that the call reads -/
theorem answered_reads {s : Client} {c : RpcChannel.Call} (h : Answered s c) :
    ∃ n b pre post, reading s c = .ok (.done n, [], b) ∧ Layout b pre (frame (withId c.answer)) post ∧
      b.size = 65536 := by
  obtain ⟨hin, n, b, hread⟩ := h.complete
  obtain ⟨e, got, incoming, b', pre, post, hread', hgot, hl, hsize, -, -⟩ :=
    readToBuffer_layout c.arrivals 0 (s.incoming ++ frame (withId c.answer)) h.buffer.layout
  obtain ⟨-, rfl, rfl⟩ : e = .done n ∧ incoming = [] ∧ b' = b := by
    simpa using hread'.symm.trans hread
  rw [hin, List.nil_append, List.append_nil] at hgot
  rw [h.empty, List.nil_append, ← hgot] at hl
  exact ⟨n, b', pre, post, hread, hl, by rw [hsize (by rw [h.size]; norm_num), h.size]⟩

/-- such a call times out or succeeds, as wait_for says -/
theorem call_ends {s : Client} {c : RpcChannel.Call} (h : Answered s c) (expired : Bool) :
    ∃ N e, (if expired then TimedOut e else Succeeded c e) ∧
      ∀ fuel, N ≤ fuel → (callMethodAsync fuel s { c with expired := expired }).calls = s.calls ++ [e] := by
  obtain ⟨n, b, pre, post, hread, hl, hsize⟩ := answered_reads h
  obtain ⟨pbData, hreq, henc⟩ := h.request
  have hcall : ∀ fuel, callMethodAsync fuel s { c with expired := expired } =
      receive fuel s { c with expired := expired } [] b :=
    fun fuel => call_reads (c := { c with expired := expired }) h.ready hreq henc h.written hread fuel
  cases expired with
  | true =>
    refine ⟨0, _, ?_, fun fuel _ => by rw [hcall, receive_expired_eq [] rfl]; rfl⟩
    exact ⟨rfl, rfl⟩
  | false =>
    have hl' : Layout b pre (wire [c.answer]) post := by simpa using hl
    have hm : ∀ m ∈ [c.answer], WithinLimits m := List.forall_mem_singleton.2 h.limits
    obtain ⟨b', -, -, hdec, -⟩ := decodes_wire [] hm hl' (positionsFit_of_layout hl' (by rw [hsize]; norm_num))
    obtain ⟨N, hN⟩ := receive_returns (s := s) (c := { c with expired := false }) [] rfl hdec
    obtain ⟨herr, hpb⟩ := sent_payload c.answer
    rw [h.accepted] at herr
    refine ⟨N, ⟨{ c.controller with finished := true }, some c.answer.pbData, if c.done then 1 else 0, c.answer⟩,
      ⟨h.fresh, rfl⟩, ?_⟩
    intro fuel hfuel
    rw [hcall, hN fuel hfuel]
    simp only [List.map_singleton, List.nil_append, answered, respond, herr, ne_eq, not_true_eq_false, if_false,
      complete, hpb]

/-- the deadline of a call with the timeout `t`, whose answer is there after `d` ticks -/
structure Kept (t : ℤ) (d : ℕ) (s : Client) (c : RpcChannel.Call) : Prop where
  late : milliseconds t < d → Ends (expiry t) d s c TimedOut
  inTime : d < milliseconds t → Ends (expiry t) d s c (Succeeded c)

variable {t : ℤ} {s : Client} {c : RpcChannel.Call}

theorem ends_timedOut (h : Answered s c) (ht : 1 ≤ t) {d : ℕ} (hd : expiry t < d) : Ends (expiry t) d s c TimedOut := by
  intro waitId ls hls hnow
  obtain ⟨N, e, he, hcall⟩ := call_ends h true
  refine ⟨_, run_result waitId (expiry_nonneg ht) hls hnow, N, e, he, ?_⟩
  simpa only [outcome, hd, decide_true] using hcall

theorem ends_succeeded (h : Answered s c) (ht : 1 ≤ t) {d : ℕ} (hd : d ≤ expiry t) :
    Ends (expiry t) d s c (Succeeded c) := by
  intro waitId ls hls hnow
  obtain ⟨N, e, he, hcall⟩ := call_ends h false
  refine ⟨_, run_result waitId (expiry_nonneg ht) hls hnow, N, e, he, ?_⟩
  simpa only [outcome, not_lt.2 hd, decide_false] using hcall

/-- no call does both -/
theorem not_ends_both (ht : 1 ≤ t) {d : ℕ} (h1 : Ends (expiry t) d s c TimedOut)
    (h2 : Ends (expiry t) d s c (Succeeded c)) : False := by
  have hm : 0 ≤ t.tdiv 1000 := Int.tdiv_nonneg (by omega) (by norm_num)
  obtain ⟨ls, hls, hnow⟩ := run_reaches 1 hm d
  obtain ⟨r1, hr1, N1, e1, he1, hcall1⟩ := h1 1 ls hls hnow
  obtain ⟨r2, hr2, N2, e2, he2, hcall2⟩ := h2 1 ls hls hnow
  obtain rfl : r1 = r2 := Option.some.inj (hr1.symm.trans hr2)
  have heq := (hcall1 (max N1 N2) (le_max_left _ _)).symm.trans (hcall2 (max N1 N2) (le_max_right _ _))
  obtain rfl : e1 = e2 := by simpa using heq
  cases he1.1.symm.trans he2.1

/-- an answer between the two times is called late -/
theorem not_kept (h : Answered s c) (ht : 1 ≤ t) {d : ℕ} (h1 : expiry t < d) (h2 : d < milliseconds t) :
    ¬ Kept t d s c :=
  fun hk => not_ends_both ht (ends_timedOut h ht h1) (hk.inTime h2)

/-- **Deadlines**: for every timeout of a millisecond or more, of the controller or of the channel, and for every delay of
the answer, the call keeps its deadline exactly if the answer is there within `t / 1000` milliseconds or not within `t` -/
theorem deadline_iff (channelTimeout timeout : ℤ) (ht : 1 ≤ initController channelTimeout timeout) (h : Answered s c)
    (d : ℕ) : Kept (initController channelTimeout timeout) d s c ↔
      d ≤ expiry (initController channelTimeout timeout) ∨ milliseconds (initController channelTimeout timeout) ≤ d := by
  have hle := expiry_le ht
  constructor
  · intro hk
    by_contra hn
    rw [not_or, not_le, not_le] at hn
    exact not_kept h ht hn.1 hn.2 hk
  · rintro (hd | hd)
    · exact ⟨fun hlate => absurd hlate (not_lt.2 (hd.trans hle)), fun _ => ends_succeeded h ht hd⟩
    · exact ⟨fun hlate => ends_timedOut h ht (lt_of_le_of_lt hle hlate), fun hin => absurd hin (not_lt.2 hd)⟩

/-- the first call on a new channel -/
theorem prompt_answered : Answered connect (prompt ones false) := by
  obtain ⟨b, pre, post, -, -, -, hread, -⟩ := prompt_reads (s := connect) (a := ones) false rfl rfl connect_layout
    (by decide) (by rw [connect_writeAble]; norm_num) (by decide)
  exact ⟨rfl, connect_layout.wf, make_size 65536, connect_layout.content_eq, rfl,
    ⟨[], rfl, by unfold Encodes; decide⟩, rfl, ones_limits, rfl, rfl, _, b, hread⟩

/-- a new controller, and an answer after two milliseconds -/
theorem deadline_default : Kept (initController 3000 3000) 2000000 connect (prompt ones false) :=
  (deadline_iff 3000 3000 (by decide) prompt_answered 2000000).2 (.inl (by decide))

/-- a new controller, whose timeout is 3 seconds, and an answer after four milliseconds -/
theorem default_missed : ¬ Kept (initController 3000 3000) 4000000 connect (prompt ones false) :=
  not_kept prompt_answered (by decide) (by decide) (by decide)

end Deadline

end MCoroRpc
