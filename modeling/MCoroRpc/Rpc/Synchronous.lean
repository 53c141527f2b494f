/-
callMethodSync (src/rpc_client_impl.cc): a callMethodAsync in the loop of its caller, and what is told of it.

`Coroutine` is the callMethodAsync between two of its awaits. `resume` is what the loop makes of it: the await at which it
stands has come back as the script says, and it runs on to the next one. run_until_complete returns when the loop has been
stopped, too: then the coroutine has been resumed `n` times, and is where that has brought it.

- `resume_ends`: resumed often enough, the coroutine ends with the outcome of `callMethodAsync`.
- `sync_iff`: callMethodSync, which looks at the controller alone, says how the coroutine has ended exactly if that has
  got through its first attempt, or has given up before; an exception of std::stoi in front of that leaves no trace.
-/
import MCoroRpc.Rpc.Lookups

namespace MCoroRpc

open TcpStream Search
open RpcDispatcher (ascii)

namespace RpcClient

/-! ## Model -/

/-- where a callMethodAsync stands -/
inductive At where
  /-- it has not been run yet -/
  | scheduled
  /-- the `k`-th getOrCreateChannel in front of its first attempt -/
  | lookup (k : ℕ)
  /-- sleep_for behind it -/
  | sleep (k : ℕ)
  /-- the `k`-th CallMethodAsync -/
  | attempt (k : ℕ) (conn : Conn)
  /-- the `k`-th getOrCreateChannel between two retries -/
  | relookup (k : ℕ)
  | ended (returns : Returns) (marked : Bool)
deriving DecidableEq, Repr

structure Coroutine where
  at_ : At
  controller : RpcController
  attempts : List Attempt
deriving DecidableEq, Repr

def Coroutine.start (ctrl : RpcController) : Coroutine := ⟨.scheduled, ctrl, []⟩

/-- the call has returned or raised -/
def Coroutine.over (o : Outcome) : Coroutine := ⟨.ended o.returns o.marked, o.controller, o.attempts⟩

def Coroutine.failedToConnect (target : Bytes) (co : Coroutine) : Coroutine :=
  ⟨.ended (.value false) true, co.controller.setFailed (ascii "failed to connect to " ++ target), co.attempts⟩

/-- behind the `k`-th CallMethodAsync, which has left the controller failed; `k - 1` is the number of the retry -/
def Coroutine.retry (maxRetries : ℤ) (conn : Conn) (k : ℕ) (co : Coroutine) : Coroutine :=
  match k with
  | 0 => if 0 ≤ maxRetries then { co with at_ := .attempt 1 conn } else { co with at_ := .ended (.value false) true }
  | retry + 1 =>
    if (retry : ℤ) < maxRetries then { co with at_ := .relookup (retry + 1) }
    else { co with at_ := .ended (.value false) true }

/-- the await has come back, and the call runs on -/
def resume (c : RpcClient) (target : Bytes) (s : Script) (co : Coroutine) : Coroutine :=
  match co.at_ with
  | .scheduled =>
    if c.instances = [] then
      { co with at_ := .ended (.value false) false, controller := co.controller.setFailed (ascii "no available instances") }
    else if c.available = [] then
      { co with
        at_ := .ended (.value false) false
        controller := co.controller.setFailed (ascii "all instances are unavailable") }
    else { co with at_ := .lookup 0 }
  | .lookup k =>
    match s.lookup k with
    | .raised _ => { co with at_ := .ended .raised false }
    | .channel conn => if k = 0 then { co with at_ := .attempt 0 conn } else co.failedToConnect target
    | .null => if (k : ℤ) < c.maxRetries then { co with at_ := .sleep k } else co.failedToConnect target
  | .sleep k => { co with at_ := .lookup (k + 1) }
  | .attempt k conn =>
    match s.attemptOn conn k with
    | .raised what => .over (caught what co.controller (co.attempts ++ [.raised what]))
    | a =>
      let co : Coroutine := ⟨.ended (.value true) false, a.mark co.controller, co.attempts ++ [a]⟩
      if co.controller.failed then co.retry c.maxRetries conn k else co
  | .relookup k =>
    match s.lookup k with
    | .raised what => .over (caught what co.controller co.attempts)
    | .channel conn => { co with at_ := .attempt (k + 1) conn }
    | .null => { co with at_ := .ended .fault false }
  | .ended _ _ => co

/-- the callMethodAsync of a callMethodSync, when the loop has run it `n` times -/
def behind (c : RpcClient) (target : Bytes) (s : Script) (n : ℕ) : Coroutine :=
  (resume c target s)^[n] (.start {})

/-- what callMethodSync returns when run_until_complete has come back then -/
def callMethodSync (c : RpcClient) (target : Bytes) (s : Script) (n : ℕ) : Bool :=
  !(behind c target s n).controller.failed

/-! ## The coroutine and callMethodAsync -/

variable {c : RpcClient} {target : Bytes} {s : Script} {ctrl : RpcController} {conn : Conn} {attempts : List Attempt}

/-- resumed often enough, the coroutine ends with `o` -/
def Comes (c : RpcClient) (target : Bytes) (s : Script) (co : Coroutine) (o : Outcome) : Prop :=
  ∃ n, (resume c target s)^[n] co = .over o

theorem Comes.of_eq {co : Coroutine} {o : Outcome} (h : co = .over o) : Comes c target s co o := ⟨0, h⟩

theorem Comes.of_resume {co co' : Coroutine} {o : Outcome} (h : resume c target s co = co') (ho : Comes c target s co' o) :
    Comes c target s co o := by
  obtain ⟨n, hn⟩ := ho
  exact ⟨n + 1, by rw [Function.iterate_succ_apply, h, hn]⟩

/-- the end is for good -/
theorem resume_over (o : Outcome) : resume c target s (.over o) = .over o := rfl

theorem resume_raised {k : ℕ} {what : Bytes} (ha : s.attemptOn conn k = .raised what) :
    resume c target s ⟨.attempt k conn, ctrl, attempts⟩ = .over (caught what ctrl (attempts ++ [.raised what])) := by
  simp only [resume, ha]

/-- a CallMethodAsync that comes back -/
theorem resume_attempt {k : ℕ} {a : Attempt} (ha : s.attemptOn conn k = a) (hc : a.completes = true) :
    resume c target s ⟨.attempt k conn, ctrl, attempts⟩ =
      if (a.mark ctrl).failed then
        Coroutine.retry c.maxRetries conn k ⟨.ended (.value true) false, a.mark ctrl, attempts ++ [a]⟩
      else .over ⟨.value true, a.mark ctrl, false, attempts ++ [a]⟩ := by
  cases a with
  | raised what => cases hc
  | _ => simp only [resume, ha, Coroutine.over]

/-- the retries, of which `n` are left behind this one -/
theorem comes_retry (n : ℕ) {k : ℕ} (hk : (k : ℤ) + n = c.maxRetries) (conn : Conn) (ctrl : RpcController)
    (attempts : List Attempt) :
    Comes c target s ⟨.attempt (k + 1) conn, ctrl, attempts⟩
      (retryLoop s (n + 1) k (.channel conn) ctrl attempts) := by
  induction n generalizing k conn ctrl attempts with
  | zero =>
    have hlast : ¬ (k : ℤ) < c.maxRetries := by omega
    generalize ha : s.attemptOn conn (k + 1) = a
    cases a with
    | raised what => exact .of_resume (resume_raised ha) (.of_eq (by simp only [retryLoop, ha]))
    | _ =>
      refine .of_resume (resume_attempt ha rfl) (.of_eq ?_)
      simp only [retryLoop, ha, if_true]
      split_ifs
      · simp only [Coroutine.retry, hlast, if_false, Coroutine.over]
      · rfl
  | succ n ih =>
    have hnext : (k : ℤ) < c.maxRetries := by omega
    have hn : n + 1 ≠ 0 := Nat.succ_ne_zero n
    generalize ha : s.attemptOn conn (k + 1) = a
    cases a with
    | raised what => exact .of_resume (resume_raised ha) (.of_eq (by simp only [retryLoop, ha]))
    | _ =>
      refine .of_resume (resume_attempt ha rfl) ?_
      simp only [retryLoop, ha, hn, if_false]
      split_ifs
      · simp only [Coroutine.retry, hnext, if_true]
        refine .of_resume rfl ?_
        cases hl : s.lookup (k + 1) with
        | channel conn =>
          simp only [resume, hl]
          exact ih (by omega) conn _ _
        | _ =>
          simp only [resume, hl]
          exact .of_eq rfl
      · exact .of_eq rfl

theorem comes_attempts (conn : Conn) (ctrl : RpcController) :
    Comes c target s ⟨.attempt 0 conn, ctrl, []⟩ (attemptPhase c.maxRetries s conn ctrl) := by
  generalize ha : s.attemptOn conn 0 = a
  cases a with
  | raised what => exact .of_resume (resume_raised ha) (.of_eq (by simp only [attemptPhase, ha, List.nil_append]))
  | _ =>
    refine .of_resume (resume_attempt ha rfl) ?_
    simp only [attemptPhase, ha]
    split_ifs
    · by_cases hr : 0 ≤ c.maxRetries
      · rw [show (c.maxRetries + 1).toNat = c.maxRetries.toNat + 1 by omega]
        simp only [Coroutine.retry, hr, if_true]
        exact comes_retry _ (by omega) conn _ _
      · rw [show (c.maxRetries + 1).toNat = 0 by omega]
        simp only [Coroutine.retry, hr, if_false]
        exact .of_eq rfl
    · exact .of_eq rfl

/-- what a call makes of the retries of its first lookup -/
def gaveUp (target : Bytes) (ctrl : RpcController) : Lookup → Outcome
  | .raised _ => ⟨.raised, ctrl, false, []⟩
  | _ => ⟨.value false, ctrl.setFailed (ascii "failed to connect to " ++ target), true, []⟩

theorem callTarget_null (h : s.lookup 0 = .null) :
    callTarget c.maxRetries target s ctrl = gaveUp target ctrl (lookupAgain s c.maxRetries.toNat 0) := by
  simp only [callTarget, h]
  cases lookupAgain s c.maxRetries.toNat 0 <;> rfl

/-- the retries of the first lookup, of which `n` are left behind this one -/
theorem comes_lookups (n : ℕ) {k : ℕ} (hk : ((k + n : ℕ) : ℤ) + 1 = c.maxRetries) (ctrl : RpcController) :
    Comes c target s ⟨.sleep k, ctrl, []⟩ (gaveUp target ctrl (lookupAgain s (n + 1) k)) := by
  induction n generalizing k with
  | zero =>
    have hlast : ¬ ((k + 1 : ℕ) : ℤ) < c.maxRetries := by omega
    refine .of_resume rfl (.of_resume rfl ?_)
    cases hl : s.lookup (k + 1) with
    | null =>
      simp only [resume, hl, hlast, if_false, lookupAgain]
      exact .of_eq rfl
    | _ =>
      simp only [resume, hl, lookupAgain]
      exact .of_eq rfl
  | succ n ih =>
    have hnext : ((k + 1 : ℕ) : ℤ) < c.maxRetries := by omega
    refine .of_resume rfl (.of_resume rfl ?_)
    cases hl : s.lookup (k + 1) with
    | null =>
      rw [lookupAgain]
      simp only [resume, hl, hnext, if_true]
      exact ih (by omega)
    | _ =>
      simp only [resume, hl, lookupAgain]
      exact .of_eq rfl

theorem comes_target (ctrl : RpcController) :
    Comes c target s ⟨.lookup 0, ctrl, []⟩ (callTarget c.maxRetries target s ctrl) := by
  refine .of_resume rfl ?_
  cases hl : s.lookup 0 with
  | raised what =>
    simp only [resume, hl, callTarget]
    exact .of_eq rfl
  | channel conn =>
    rw [callTarget_channel hl]
    simp only [resume, hl, if_true]
    exact comes_attempts conn ctrl
  | null =>
    rw [callTarget_null hl]
    by_cases hr : 0 < c.maxRetries
    · rw [show c.maxRetries.toNat = (c.maxRetries.toNat - 1) + 1 by omega]
      simp only [resume, hl, Nat.cast_zero, hr, if_true]
      exact comes_lookups _ (by omega) ctrl
    · rw [show c.maxRetries.toNat = 0 by omega]
      simp only [resume, hl, Nat.cast_zero, hr, if_false]
      exact .of_eq rfl

/-- **The coroutine is callMethodAsync**: resumed often enough it ends with the outcome of the call, and stays so -/
theorem resume_ends (select : List Bytes → Bytes) (w : World) (ctrl : RpcController) (c : RpcClient) :
    ∃ o N, callMethodAsync select w (some ctrl) c = some o ∧ ∀ n ≥ N,
      (resume c (select c.available) (w.script (select c.available) c.channels))^[n] (.start ctrl) = .over o := by
  suffices h : ∃ o, callMethodAsync select w (some ctrl) c = some o ∧
      Comes c (select c.available) (w.script (select c.available) c.channels) (.start ctrl) o by
    obtain ⟨o, ho, N, hN⟩ := h
    refine ⟨o, N, ho, fun n hn => ?_⟩
    obtain ⟨m, rfl⟩ := Nat.exists_eq_add_of_le hn
    rw [Nat.add_comm, Function.iterate_add_apply, hN]
    exact Function.iterate_fixed (resume_over o) m
  refine ⟨_, rfl, .of_resume rfl ?_⟩
  by_cases hin : c.instances = []
  · simp only [Coroutine.start, resume, hin, if_true]
    exact .of_eq rfl
  · by_cases hav : c.available = []
    · simp only [Coroutine.start, resume, hin, hav, if_true, if_false]
      exact .of_eq rfl
    · simp only [Coroutine.start, resume, hin, hav, if_false]
      exact comes_target ctrl

/-! ## What callMethodSync tells -/

/-- how the Task of the coroutine has completed -/
def Coroutine.completed (co : Coroutine) : Option Returns :=
  match co.at_ with
  | .ended returns _ => some returns
  | _ => none

/-- what is told of the coroutine if it is left here is how its Task has completed -/
def Agrees (co : Coroutine) : Prop := co.controller.failed = false ↔ co.completed = some (.value true)

/-- the `k`-th lookup is followed by another one -/
def LooksAgain (c : RpcClient) (s : Script) (k : ℕ) : Prop := s.lookup k = .null ∧ (k : ℤ) < c.maxRetries

/-- resumed `n` times, the call is behind the `k`-th lookup, which is the last one and has not thrown, and behind its first
attempt if it makes one -/
structure Found (c : RpcClient) (s : Script) (n k : ℕ) : Prop where
  before : ∀ j < k, LooksAgain c s j
  last : ¬ LooksAgain c s k
  read : ∀ what, s.lookup k ≠ .raised what
  behind : 2 * k + 2 ≤ n
  attempted : ∀ conn, s.lookup 0 = .channel conn → 3 ≤ n

/-- the call has been run, and if it has an instance it has got as far as that -/
def Decided (c : RpcClient) (s : Script) (n : ℕ) : Prop := 1 ≤ n ∧ (c.available ≠ [] → ∃ k, Found c s n k)

variable {co : Coroutine}

theorem agrees_of_failed (hf : co.controller.failed = true) (hc : co.completed ≠ some (.value true)) : Agrees co :=
  iff_of_false (by simp [hf]) hc

theorem disagrees (hf : co.controller.failed = false) (hc : co.completed ≠ some (.value true)) : ¬ Agrees co :=
  fun h => hc (h.1 hf)

theorem retry_agrees {maxRetries : ℤ} {k : ℕ} (hf : co.controller.failed = true) :
    Agrees (co.retry maxRetries conn k) := by
  cases k with
  | zero =>
    simp only [Coroutine.retry]
    split_ifs <;> exact agrees_of_failed hf (by simp [Coroutine.completed])
  | succ retry =>
    simp only [Coroutine.retry]
    split_ifs <;> exact agrees_of_failed hf (by simp [Coroutine.completed])

/-- behind a CallMethodAsync the controller tells, whatever has been in it -/
theorem attempt_agrees (k : ℕ) (conn : Conn) (ctrl : RpcController) (attempts : List Attempt) :
    Agrees (resume c target s ⟨.attempt k conn, ctrl, attempts⟩) := by
  generalize ha : s.attemptOn conn k = a
  cases a with
  | raised what =>
    rw [resume_raised ha]
    exact agrees_of_failed rfl (by simp [Coroutine.completed, Coroutine.over, caught])
  | _ =>
    rw [resume_attempt ha rfl]
    split_ifs with hf
    · exact retry_agrees hf
    · exact iff_of_true (Bool.of_not_eq_true hf) rfl

theorem failedToConnect_agrees : Agrees (co.failedToConnect target) :=
  agrees_of_failed rfl (by simp [Coroutine.completed, Coroutine.failedToConnect])

/-- a controller that has failed stays failed, and the Task does not complete with true any more -/
theorem resume_agrees (h : Agrees co) : Agrees (resume c target s co) := by
  obtain ⟨at_, ctrl, attempts⟩ := co
  cases hf : ctrl.failed with
  | false =>
    have hc := h.1 hf
    cases at_ with
    | ended returns marked => exact h
    | _ => cases hc
  | true =>
    have hsame : ∀ at_, Coroutine.completed ⟨at_, ctrl, attempts⟩ = none → Agrees ⟨at_, ctrl, attempts⟩ :=
      fun at_ hn => agrees_of_failed hf (by simp [hn])
    cases at_ with
    | ended returns marked => exact h
    | attempt k conn => exact attempt_agrees k conn ctrl attempts
    | sleep k => exact hsame _ rfl
    | scheduled =>
      simp only [resume]
      split_ifs
      · exact agrees_of_failed rfl (by simp [Coroutine.completed])
      · exact agrees_of_failed rfl (by simp [Coroutine.completed])
      · exact hsame _ rfl
    | lookup k =>
      cases hl : s.lookup k with
      | raised what =>
        simp only [resume, hl]
        exact agrees_of_failed hf (by simp [Coroutine.completed])
      | _ =>
        simp only [resume, hl]
        split_ifs
        · exact hsame _ rfl
        · exact failedToConnect_agrees
    | relookup k =>
      cases hl : s.lookup k with
      | raised what =>
        simp only [resume, hl]
        exact agrees_of_failed rfl (by simp [Coroutine.completed, Coroutine.over, caught])
      | channel conn =>
        simp only [resume, hl]
        exact hsame _ rfl
      | null =>
        simp only [resume, hl]
        exact agrees_of_failed hf (by simp [Coroutine.completed])

theorem instances_ne_nil (h : c.available ≠ []) : c.instances ≠ [] := by
  intro hin
  exact h (by simp [available, hin])

theorem behind_succ (n : ℕ) : behind c target s (n + 1) = resume c target s (behind c target s n) :=
  Function.iterate_succ_apply' ..

/-- the lookups in front of the first attempt, two awaits for each -/
theorem behind_lookup (hav : c.available ≠ []) {k : ℕ} (hk : ∀ j < k, LooksAgain c s j) :
    behind c target s (2 * k + 1) = ⟨.lookup k, {}, []⟩ := by
  induction k with
  | zero =>
    have hin := instances_ne_nil hav
    simp only [behind, Function.iterate_one, resume, Coroutine.start, hin, hav, if_false, Nat.mul_zero, Nat.zero_add]
  | succ k ih =>
    obtain ⟨hnull, hlt⟩ := hk k (Nat.lt_succ_self k)
    have hprev := ih fun j hj => hk j (Nat.lt_succ_of_lt hj)
    rw [show 2 * (k + 1) + 1 = 2 * k + 1 + 1 + 1 by ring, behind_succ, behind_succ, hprev]
    simp only [resume, hnull, hlt, if_true]

/-- once a step has brought it about that the controller tells of the Task, it does so from then on -/
theorem agrees_from {N : ℕ} (hno : ¬ Agrees (behind c target s N)) (hyes : Agrees (behind c target s (N + 1))) (n : ℕ) :
    Agrees (behind c target s n) ↔ N + 1 ≤ n :=
  Machine.iterate_iff (P := Agrees) (fun _ => resume_agrees) hno hyes n

/-- the exception of std::stoi in front of the attempts leaves no trace -/
theorem raised_disagrees (hav : c.available ≠ []) {k : ℕ} (hk : ∀ j < k, LooksAgain c s j) {what : Bytes}
    (hl : s.lookup k = .raised what) (n : ℕ) : ¬ Agrees (behind c target s n) := by
  have hover : behind c target s (2 * k + 1 + 1) = .over ⟨.raised, {}, false, []⟩ := by
    rw [behind_succ, behind_lookup hav hk]
    simp only [resume, hl, Coroutine.over]
  intro h
  have hn : Agrees (behind c target s (n + (2 * k + 1 + 1))) := by
    unfold behind at h ⊢
    rw [Nat.add_comm, Function.iterate_add_apply]
    exact Function.Iterate.rec Agrees h (fun _ => resume_agrees) _
  unfold behind at hn hover
  rw [Function.iterate_add_apply, hover, Function.iterate_fixed (resume_over _)] at hn
  exact disagrees rfl (by simp [Coroutine.completed, Coroutine.over]) hn

/-- in front of an attempt nothing is told and nothing has completed -/
theorem waiting_disagrees {at_ : At} (h : Coroutine.completed ⟨at_, {}, []⟩ = none) : ¬ Agrees ⟨at_, {}, []⟩ :=
  disagrees rfl (by simp [h])

/-- the call that gives up agrees as soon as it has looked for the last time -/
theorem gaveUp_iff (hav : c.available ≠ []) {k : ℕ} (hk : ∀ j < k, LooksAgain c s j)
    (hres : resume c target s ⟨.lookup k, {}, []⟩ = Coroutine.failedToConnect target ⟨.lookup k, {}, []⟩) (n : ℕ) :
    Agrees (behind c target s n) ↔ 2 * k + 2 ≤ n := by
  have hat : behind c target s (2 * k + 1) = ⟨.lookup k, {}, []⟩ := behind_lookup hav hk
  apply agrees_from (N := 2 * k + 1)
  · rw [hat]
    exact waiting_disagrees rfl
  · rw [behind_succ, hat, hres]
    exact failedToConnect_agrees

/-- the call that makes an attempt agrees as soon as that has come back -/
theorem attempted_iff (hav : c.available ≠ []) (hl : s.lookup 0 = .channel conn) (n : ℕ) :
    Agrees (behind c target s n) ↔ 3 ≤ n := by
  have hat : behind c target s 2 = ⟨.attempt 0 conn, {}, []⟩ := by
    have hfirst : behind c target s 1 = ⟨.lookup 0, {}, []⟩ := behind_lookup hav (k := 0) (by simp)
    rw [behind_succ, hfirst]
    simp only [resume, hl, if_true]
  apply agrees_from (N := 2)
  · rw [hat]
    exact waiting_disagrees rfl
  · rw [behind_succ, hat]
    exact attempt_agrees 0 conn {} []

theorem found_iff (hav : c.available ≠ []) {k : ℕ} (hk : ∀ j < k, LooksAgain c s j) (hlast : ¬ LooksAgain c s k) (n : ℕ) :
    Agrees (behind c target s n) ↔ Found c s n k := by
  have hfirst : 0 < k → s.lookup 0 = .null := fun hpos => (hk 0 hpos).1
  cases hl : s.lookup k with
  | raised what => exact iff_of_false (raised_disagrees hav hk hl n) fun h => h.read what hl
  | null =>
    have hmax : ¬ (k : ℤ) < c.maxRetries := fun hlt => hlast ⟨hl, hlt⟩
    have hnull : s.lookup 0 = .null := by
      rcases Nat.eq_zero_or_pos k with rfl | hpos
      · exact hl
      · exact hfirst hpos
    rw [gaveUp_iff hav hk (by simp only [resume, hl, hmax, if_false]) n]
    exact ⟨fun hn => ⟨hk, hlast, by simp [hl], hn, by simp [hnull]⟩, fun h => h.behind⟩
  | channel conn =>
    rcases Nat.eq_zero_or_pos k with rfl | hpos
    · rw [attempted_iff hav hl n]
      exact ⟨fun hn => ⟨hk, hlast, by simp [hl], by omega, fun _ _ => hn⟩, fun h => h.attempted conn hl⟩
    · have hne : k ≠ 0 := Nat.pos_iff_ne_zero.1 hpos
      rw [gaveUp_iff hav hk (by simp only [resume, hl, hne, if_false]) n]
      exact ⟨fun hn => ⟨hk, hlast, by simp [hl], hn, by simp [hfirst hpos]⟩, fun h => h.behind⟩

/-- **callMethodSync**: for every client and script, and wherever the loop has left the call, it returns true exactly if the
Task has completed with true, or neither, if and only if the call has been run, and in front of its attempts, where it has
an instance, until the last lookup has given no exception and the first attempt has come back -/
theorem sync_iff (c : RpcClient) (target : Bytes) (s : Script) (n : ℕ) :
    (callMethodSync c target s n = true ↔ (behind c target s n).completed = some (.value true)) ↔ Decided c s n := by
  have hsync : callMethodSync c target s n = true ↔ (behind c target s n).controller.failed = false := by
    simp [callMethodSync]
  rw [hsync]
  change Agrees (behind c target s n) ↔ Decided c s n
  by_cases hav : c.available = []
  · have hdec : Decided c s n ↔ 0 + 1 ≤ n := ⟨fun h => h.1, fun h => ⟨h, fun hne => absurd hav hne⟩⟩
    rw [hdec]
    refine agrees_from (N := 0) (waiting_disagrees rfl) ?_ n
    simp only [behind, Function.iterate_one, Nat.zero_add, resume, Coroutine.start, hav, if_true]
    split_ifs <;> exact agrees_of_failed rfl (by simp [Coroutine.completed])
  · have hstop : ¬ LooksAgain c s c.maxRetries.toNat := fun h => absurd h.2 (by omega)
    obtain ⟨k, hk, hlast⟩ := exists_first hstop
    rw [found_iff hav hk hlast n]
    constructor
    · exact fun h => ⟨by have := h.behind; omega, fun _ => ⟨k, h⟩⟩
    · intro h
      obtain ⟨k', h'⟩ := h.2 hav
      obtain rfl := first_unique h'.before h'.last hk hlast
      exact h'

/-- one instance, whose address std::stoi cannot read -/
def unreadable : RpcClient := ⟨3, [ascii "host:abc"], ∅, []⟩

def unreadableScript : Script := upOnRetry.script (ascii "host:abc") ∅

/-- the Task ends with the exception, and callMethodSync returns true; and so it does if the loop has been stopped before
the call is run -/
theorem raised_told_true :
    ((behind unreadable (ascii "host:abc") unreadableScript 2).completed = some .raised ∧
      ¬ (callMethodSync unreadable (ascii "host:abc") unreadableScript 2 = true ↔
        (behind unreadable (ascii "host:abc") unreadableScript 2).completed = some (.value true))) ∧
    ¬ (callMethodSync unreadable (ascii "host:abc") unreadableScript 0 = true ↔
      (behind unreadable (ascii "host:abc") unreadableScript 0).completed = some (.value true)) := by
  decide

end RpcClient

end MCoroRpc
