/-
What a call makes of its attempts and of its instances (RpcClient::callMethodAsync in src/rpc_client_impl.cc).

The controller of a call is shared by all its attempts and is not reset between them. So a retry is never seen to
succeed: `retry_failed`. The target is chosen once; every retry goes to it, and an instance that is marked is left out
until updateInstances: `marked_stays`.

Main results:
- `retry_outcome_iff`: a call does what its attempts say exactly if the first one is answered or none is.
- `answered_unseen`: a retry is answered, and the request is sent again.
- `failover_iff`: a call with a healthy instance returns true exactly if the balancer has chosen a target that is
  reached and answers at once.
- `not_switched`: the healthy instance next to the one that refuses is not tried.
-/
import MCoroRpc.Core.Machine
import MCoroRpc.Core.Search
import MCoroRpc.Rpc.RpcClient

namespace MCoroRpc

open TcpStream Search
open RpcDispatcher (ascii)

/-- control comes back to the client -/
def Attempt.completes : Attempt → Bool
  | .raised _ => false
  | _ => true

@[simp] theorem Attempt.mark_finished (ctrl : RpcController) : (Attempt.answered.mark ctrl).failed = ctrl.failed := rfl

/-- nothing resets the controller -/
theorem Attempt.mark_failed {ctrl : RpcController} (h : ctrl.failed = true) (a : Attempt) : (a.mark ctrl).failed = true := by
  cases a <;> first | exact h | rfl

theorem Attempt.raised_of_not_completes {a : Attempt} (h : a.completes = false) : ∃ what, a = .raised what := by
  cases a with
  | raised what => exact ⟨what, rfl⟩
  | _ => cases h

/-- an attempt that comes back leaves the controller failed, unless it is answered on one that has not failed -/
theorem Attempt.mark_unanswered {a : Attempt} {ctrl : RpcController} (hc : a.completes = true)
    (hn : ¬ (ctrl.failed = false ∧ a = .answered)) : (a.mark ctrl).failed = true := by
  cases a with
  | answered =>
    rw [Attempt.mark_finished]
    exact Bool.of_not_eq_false fun hf => hn ⟨hf, rfl⟩
  | raised what => cases hc
  | failed reason => rfl
  | refused code info => rfl

namespace RpcClient

/-! ## The attempts of a call -/

namespace Script

/-- how the `k`-th attempt ends, if there is a channel for it; the first retry goes out on the channel of the first
attempt -/
def ends (s : Script) (k : ℕ) : Option Attempt :=
  match s.lookup (k - 1) with
  | .channel conn => some (s.attemptOn conn k)
  | _ => none

/-- the attempts in front of the `k`-th have come back -/
def Reached (s : Script) (k : ℕ) : Prop := ∀ j < k, ∃ a, s.ends j = some a ∧ a.completes = true

end Script

/-- what is promised of the attempts of a call -/
structure RetryOutcome (o : Outcome) : Prop where
  returns : o.returns = .value true ↔ .answered ∈ o.attempts
  /-- nothing is sent behind an answer -/
  last : .answered ∉ o.attempts.dropLast
  marked : o.marked = true → .answered ∉ o.attempts

variable {s : Script} {ctrl : RpcController} {conn : Conn} {attempts : List Attempt} {maxRetries : ℤ} {target : Bytes}

theorem ends_zero (h : s.lookup 0 = .channel conn) : s.ends 0 = some (s.attemptOn conn 0) := by
  simp only [Script.ends, Nat.zero_sub, h]

theorem ends_zero_none (h : ∀ conn, s.lookup 0 ≠ .channel conn) : s.ends 0 = none := by
  simp only [Script.ends, Nat.zero_sub]

theorem ends_channel {k : ℕ} (h : s.lookup k = .channel conn) : s.ends (k + 1) = some (s.attemptOn conn (k + 1)) := by
  simp only [Script.ends, Nat.add_sub_cancel, h]

theorem ends_null {k : ℕ} (h : ∀ conn, s.lookup k ≠ .channel conn) : s.ends (k + 1) = none := by
  simp only [Script.ends, Nat.add_sub_cancel]

/-- one of the `n` attempts from the `k`-th on is made and answered -/
def AnsweredFrom (s : Script) (n k : ℕ) : Prop :=
  ∃ i < n, (∀ j < i, ∃ a, s.ends (k + j) = some a ∧ a.completes = true) ∧ s.ends (k + i) = some .answered

/-- the attempts are a search: each is made behind those that have come back -/
theorem answeredFrom_iff {n k : ℕ} : AnsweredFrom s n k ↔
    Until (fun j => ∃ a, s.ends j = some a ∧ a.completes = true) (fun j => s.ends j = some .answered) n k := Iff.rfl

theorem not_answeredFrom_zero (k : ℕ) : ¬ AnsweredFrom s 0 k := by
  rw [answeredFrom_iff]
  exact not_until_zero

/-- without a channel an attempt is not made -/
theorem not_answeredFrom_none {n k : ℕ} (h : s.ends k = none) : ¬ AnsweredFrom s n k := by
  rw [answeredFrom_iff]
  apply not_until <;> simp [h]

/-- an attempt, and those behind it -/
theorem answeredFrom_succ {n k : ℕ} {a : Attempt} (h : s.ends k = some a) :
    AnsweredFrom s (n + 1) k ↔ a = .answered ∨ a.completes = true ∧ AnsweredFrom s n (k + 1) := by
  rw [answeredFrom_iff, until_succ, answeredFrom_iff]
  simp [h]

theorem answeredFrom_zero {n : ℕ} : AnsweredFrom s (n + 1) 0 ↔ ∃ k ≤ n, s.Reached k ∧ s.ends k = some .answered := by
  rw [answeredFrom_iff]
  exact until_zero

/-! ## What the attempts make of a call -/

/-- an attempt that has come back leaves a failed controller failed: the next round begins, unless the lookup behind the
attempt throws -/
theorem retryLoop_again (n : ℕ) (attempts : List Attempt) {k : ℕ} {a : Attempt} (ha : s.attemptOn conn (k + 1) = a)
    (hc : a.completes = true) (hf : ctrl.failed = true) :
    (∃ lookup, (n = 0 ∨ s.lookup (k + 1) = lookup) ∧ (∀ what, lookup ≠ .raised what) ∧
      retryLoop s (n + 1) k (.channel conn) ctrl attempts = retryLoop s n (k + 1) lookup (a.mark ctrl) (attempts ++ [a])) ∨
    ∃ what, s.lookup (k + 1) = .raised what ∧
      retryLoop s (n + 1) k (.channel conn) ctrl attempts = caught what (a.mark ctrl) (attempts ++ [a]) := by
  have hm := Attempt.mark_failed hf a
  cases a with
  | raised what => cases hc
  | _ =>
    by_cases hn : n = 0
    · exact .inl ⟨.channel conn, .inl hn, by simp, by simp only [retryLoop, ha, hm, hn, if_true]⟩
    · cases hl : s.lookup (k + 1) with
      | raised what => exact .inr ⟨what, rfl, by simp only [retryLoop, ha, hm, hn, hl, if_true, if_false]⟩
      | _ => exact .inl ⟨_, .inr rfl, by simp, by simp only [retryLoop, ha, hm, hn, hl, if_true, if_false]⟩

/-- **The retries of a failed controller**: the call does not return true, and an answer shows in its attempts alone -/
theorem retry_failed (n : ℕ) (attempts : List Attempt) {k : ℕ} {lookup : Lookup}
    (hl : n = 0 ∨ s.lookup k = lookup) (hf : ctrl.failed = true) :
    (retryLoop s n k lookup ctrl attempts).returns ≠ .value true ∧
      (.answered ∈ (retryLoop s n k lookup ctrl attempts).attempts ↔ .answered ∈ attempts ∨ AnsweredFrom s n (k + 1)) := by
  induction n generalizing k lookup ctrl attempts with
  | zero => simp [retryLoop, not_answeredFrom_zero]
  | succ n ih =>
    have hl : s.lookup k = lookup := hl.resolve_left (Nat.succ_ne_zero n)
    cases lookup with
    | null =>
      have hends := ends_null (s := s) (k := k) (by simp [hl])
      simp [retryLoop, not_answeredFrom_none hends]
    | raised what =>
      have hends := ends_null (s := s) (k := k) (by simp [hl])
      simp [retryLoop, not_answeredFrom_none hends]
    | channel conn =>
      rw [answeredFrom_succ (ends_channel hl)]
      generalize ha : s.attemptOn conn (k + 1) = a
      cases hc : a.completes with
      | false =>
        obtain ⟨what, rfl⟩ := Attempt.raised_of_not_completes hc
        simp [retryLoop, ha, caught]
      | true =>
        have hmem : .answered ∈ attempts ++ [a] ↔ .answered ∈ attempts ∨ a = .answered := by
          rw [List.mem_append, List.mem_singleton, eq_comm (a := Attempt.answered)]
        rcases retryLoop_again n attempts ha hc hf with ⟨lookup, hnext, -, he⟩ | ⟨what, hnext, he⟩
        · obtain ⟨hr, hi⟩ := ih (attempts ++ [a]) hnext (Attempt.mark_failed hf a)
          rw [he]
          refine ⟨hr, hi.trans ?_⟩
          rw [hmem, or_assoc]
          simp
        · have hends := ends_null (s := s) (k := k + 1) (by simp [hnext])
          rw [he]
          refine ⟨by simp [caught], ?_⟩
          calc .answered ∈ attempts ++ [a] ↔ .answered ∈ attempts ∨ a = .answered := hmem
            _ ↔ .answered ∈ attempts ∨ a = .answered ∨ true = true ∧ AnsweredFrom s n (k + 1 + 1) := by
              simp [not_answeredFrom_none hends]

/-- a controller that has failed behind the first attempt -/
theorem attempts_failed {a : Attempt} (ha : s.attemptOn conn 0 = a) (hc : a.completes = true)
    (hf : (a.mark ctrl).failed = true) :
    attemptPhase maxRetries s conn ctrl =
      retryLoop s (maxRetries + 1).toNat 0 (.channel conn) (a.mark ctrl) [a] := by
  cases a with
  | raised what => cases hc
  | _ => simp only [attemptPhase, ha, hf, if_true]

/-- the call that is over with its first attempt -/
theorem attempts_answered (ha : s.attemptOn conn 0 = .answered) (hf : ctrl.failed = false) :
    attemptPhase maxRetries s conn ctrl = ⟨.value true, Attempt.answered.mark ctrl, false, [.answered]⟩ := by
  have hm : (Attempt.answered.mark ctrl).failed = false := hf
  simp only [attemptPhase, ha, hm, Bool.false_eq_true, if_false]

/-- every other call does not return true, and an answer shows in its attempts alone -/
theorem attempts_unseen (maxRetries : ℤ) (h : s.lookup 0 = .channel conn)
    (hn : ¬ (ctrl.failed = false ∧ s.ends 0 = some .answered)) :
    (attemptPhase maxRetries s conn ctrl).returns ≠ .value true ∧
      (.answered ∈ (attemptPhase maxRetries s conn ctrl).attempts ↔
        ∃ k ≤ (maxRetries + 1).toNat, s.Reached k ∧ s.ends k = some .answered) := by
  have hends := ends_zero h
  rw [← answeredFrom_zero, answeredFrom_succ hends]
  generalize ha : s.attemptOn conn 0 = a at hends
  cases hc : a.completes with
  | false =>
    obtain ⟨what, rfl⟩ := Attempt.raised_of_not_completes hc
    simp [attemptPhase, ha, caught]
  | true =>
    have hf : (a.mark ctrl).failed = true := by
      apply Attempt.mark_unanswered hc
      rintro ⟨hf, rfl⟩
      exact hn ⟨hf, hends⟩
    rw [attempts_failed ha hc hf]
    obtain ⟨hr, hi⟩ := retry_failed (maxRetries + 1).toNat [a] (.inr h) hf
    refine ⟨hr, hi.trans ?_⟩
    rw [List.mem_singleton, eq_comm (a := Attempt.answered)]
    simp

theorem callTarget_channel (h : s.lookup 0 = .channel conn) :
    callTarget maxRetries target s ctrl = attemptPhase maxRetries s conn ctrl := by
  simp only [callTarget, h]

/-- a call that is over before its first attempt -/
theorem target_unreached (maxRetries : ℤ) (target : Bytes) (ctrl : RpcController)
    (h : ∀ conn, s.lookup 0 ≠ .channel conn) :
    (callTarget maxRetries target s ctrl).returns ≠ .value true ∧
      (callTarget maxRetries target s ctrl).returns ≠ .fault ∧ (callTarget maxRetries target s ctrl).attempts = [] := by
  cases hl : s.lookup 0 with
  | channel conn => exact absurd hl (h conn)
  | raised what => simp [callTarget, hl]
  | null =>
    simp only [callTarget, hl]
    split <;> simp

/-- **Retries**: the call does what its attempts say exactly if the first one is answered on a controller that has not
failed, or none is answered -/
theorem retry_outcome_iff (maxRetries : ℤ) (target : Bytes) (s : Script) (ctrl : RpcController) :
    RetryOutcome (callTarget maxRetries target s ctrl) ↔
      ctrl.failed = false ∧ s.ends 0 = some .answered ∨
        ∀ k ≤ (maxRetries + 1).toNat, s.Reached k → s.ends k ≠ some .answered := by
  by_cases hch : ∃ conn, s.lookup 0 = .channel conn
  swap
  · have hl : ∀ conn, s.lookup 0 ≠ .channel conn := fun conn hc => hch ⟨conn, hc⟩
    obtain ⟨hr, -, ha⟩ := target_unreached maxRetries target ctrl hl
    have hends := ends_zero_none hl
    refine ⟨fun _ => .inr ?_, fun _ => ⟨?_, by simp [ha], by simp [ha]⟩⟩
    · intro k hk hreached hans
      exact not_answeredFrom_none hends (answeredFrom_zero.2 ⟨k, hk, hreached, hans⟩)
    · simp [hr, ha]
  obtain ⟨conn, h⟩ := hch
  rw [callTarget_channel h]
  by_cases hn : ctrl.failed = false ∧ s.ends 0 = some .answered
  · have ha : s.attemptOn conn 0 = .answered := by
      simpa only [Script.ends, Nat.zero_sub, h, Option.some.injEq] using hn.2
    rw [attempts_answered ha hn.1]
    exact ⟨fun _ => .inl hn, fun _ => ⟨by simp, by simp, fun hm => (by cases hm)⟩⟩
  · obtain ⟨hr, hi⟩ := attempts_unseen maxRetries h hn
    have hnone : (∀ k ≤ (maxRetries + 1).toNat, s.Reached k → s.ends k ≠ some .answered) ↔
        .answered ∉ (attemptPhase maxRetries s conn ctrl).attempts := by
      rw [hi]
      push Not
      exact Iff.rfl
    rw [or_iff_right hn, hnone]
    constructor
    · exact fun ho hmem => hr (ho.returns.2 hmem)
    · refine fun hmem => ⟨⟨fun ht => absurd ht hr, fun ha => absurd ha hmem⟩, ?_, fun _ => hmem⟩
      exact fun hlast => hmem (List.mem_of_mem_dropLast hlast)

/-- a connection to `127.0.0.1:8080` -/
def localConn : Conn := ⟨ascii "127.0.0.1", 8080, true⟩

/-- the attempts of a call that has the connection throughout -/
def connectedScript (attempt : ℕ → Attempt) : Script := ⟨fun _ => .channel localConn, attempt⟩

/-- the first attempt fails, the retries are answered: four requests are served, the call is false and its target is
marked -/
theorem answered_unseen :
    callTarget 3 (ascii "127.0.0.1:8080")
        (connectedScript fun k => if k = 0 then .failed (ascii "rpc io error") else .answered) {} =
      ⟨.value false, { failed := true, errorText := ascii "rpc io error", finished := true }, true,
        [.failed (ascii "rpc io error"), .answered, .answered, .answered, .answered]⟩ ∧
    ¬ RetryOutcome (callTarget 3 (ascii "127.0.0.1:8080")
        (connectedScript fun k => if k = 0 then .failed (ascii "rpc io error") else .answered) {}) := by
  refine ⟨by decide, ?_⟩
  intro ho
  exact ho.marked (by decide) (by decide)

/-! ## The instances of a call -/

/-- an instance that accepts connections and answers, for as long as the call lasts -/
structure Healthy (w : World) (addr : Bytes) : Prop where
  addressed : Addressed addr
  connects : ∀ k, (w.connect addr k).result.isTimeout = false ∧ (w.connect addr k).result.ok = true
  answers : ∀ k, w.attempt addr k = .answered

/-- a call with a healthy instance returns true -/
def FailsOver (select : List Bytes → Bytes) (w : World) (controller : Option RpcController) (c : RpcClient) : Prop :=
  (∃ addr ∈ c.instances, Healthy w addr) →
    ∃ o, callMethodAsync select w controller c = some o ∧ o.returns = .value true

theorem attempts_true_iff (h : s.lookup 0 = .channel conn) :
    (attemptPhase maxRetries s conn ctrl).returns = .value true ↔
      ctrl.failed = false ∧ s.attemptOn conn 0 = .answered := by
  have hends := ends_zero h
  constructor
  · intro hr
    by_contra hn
    refine (attempts_unseen maxRetries h ?_).1 hr
    rwa [hends, Option.some.injEq]
  · intro ⟨hf, ha⟩
    rw [attempts_answered ha hf]

/-- a call returns true with its first channel and its first attempt, or not at all -/
theorem target_true_iff :
    (callTarget maxRetries target s ctrl).returns = .value true ↔
      ∃ conn, s.lookup 0 = .channel conn ∧ ctrl.failed = false ∧ s.attemptOn conn 0 = .answered := by
  cases h : s.lookup 0 with
  | channel conn =>
    rw [callTarget_channel h, attempts_true_iff h]
    simp
  | _ =>
    have hne := (target_unreached (s := s) maxRetries target ctrl (by simp [h])).1
    simp [hne]

/-- the instance that the balancer has chosen is reached and answers at once -/
def AnswersAtOnce (w : World) (addr : Bytes) (c : RpcClient) : Prop :=
  Accepts addr (w.connect addr 0) c.channels ∧ w.attempt addr 0 = .answered

variable {select : List Bytes → Bytes} {w : World} {controller : Option RpcController} {c : RpcClient}

theorem script_answered {addr : Bytes} :
    (∃ conn, (w.script addr c.channels).lookup 0 = .channel conn ∧ ctrl.failed = false ∧
      (w.script addr c.channels).attemptOn conn 0 = .answered) ↔ ctrl.failed = false ∧ AnswersAtOnce w addr c := by
  have hacc := @getOrCreateChannel_accepts addr (w.connect addr 0) c.channels
  constructor
  · intro ⟨conn, hl, hf, ha⟩
    cases hc : conn.connected with
    | false => simp [Script.attemptOn, hc] at ha
    | true =>
      refine ⟨hf, hacc.1 ⟨conn, hl, hc⟩, ?_⟩
      simpa [Script.attemptOn, hc] using ha
  · intro ⟨hf, ha, hans⟩
    obtain ⟨conn, hl, hc⟩ := hacc.2 ha
    refine ⟨conn, hl, hf, ?_⟩
    simpa [Script.attemptOn, hc] using hans

/-- **Calls that return true** -/
theorem call_true_iff :
    (∃ o, callMethodAsync select w controller c = some o ∧ o.returns = .value true) ↔
      ∃ ctrl, controller = some ctrl ∧ ctrl.failed = false ∧ c.available ≠ [] ∧
        AnswersAtOnce w (select c.available) c := by
  cases controller with
  | none => simp [callMethodAsync]
  | some ctrl =>
    by_cases hav : c.available = []
    · simp only [callMethodAsync, Option.map_some, Option.some.injEq, hav]
      split_ifs <;> simp
    · have hin : c.instances ≠ [] := by
        intro hin
        exact hav (by simp [available, hin])
      simp only [callMethodAsync, Option.map_some, Option.some.injEq, exists_eq_left', hin, hav, if_false]
      rw [target_true_iff, script_answered]
      simp [hav]

/-- **Failover**: a call with a healthy instance returns true exactly if its controller has not failed and the instance
that is chosen, of those not marked, is reached and answers at once -/
theorem failover_iff (select : List Bytes → Bytes) (w : World) (controller : Option RpcController) (c : RpcClient) :
    FailsOver select w controller c ↔ ((∃ addr ∈ c.instances, Healthy w addr) →
      ∃ ctrl, controller = some ctrl ∧ ctrl.failed = false ∧ c.available ≠ [] ∧
        AnswersAtOnce w (select c.available) c) := by
  unfold FailsOver
  rw [call_true_iff]

/-! ## What happens to a client -/

/-- what happens to a client, one call after another -/
inductive Event where
  /-- a call, which leaves the pool `channels` -/
  | call (select : List Bytes → Bytes) (w : World) (controller : Option RpcController) (channels : Pool)
  | updateInstances (instances : List Bytes)

def Event.isCall : Event → Bool
  | .call .. => true
  | .updateInstances _ => false

def step (c : RpcClient) : Event → RpcClient
  | .call select w controller channels =>
    match callMethodAsync select w controller c with
    | some o => { if o.marked then markUnavailable (select c.available) c else c with channels := channels }
    | none => c
  | .updateInstances instances => updateInstances instances c

theorem available_eq_nil : c.available = [] ↔ ∀ addr ∈ c.instances, addr ∈ c.failedAddrs := by
  simp [available, List.filter_eq_nil_iff]

/-- a call takes no mark away -/
theorem step_marks {e : Event} (he : e.isCall = true) :
    (step c e).instances = c.instances ∧ ∀ addr ∈ c.failedAddrs, addr ∈ (step c e).failedAddrs := by
  cases e with
  | updateInstances instances => cases he
  | call select w controller channels =>
    cases ho : callMethodAsync select w controller c with
    | none => simp [step, ho]
    | some o => cases hm : o.marked <;> simp +contextual [step, ho, hm, markUnavailable]

/-- **Marks stay**: once every instance has been marked, no call until the next updateInstances makes an attempt,
whatever has become of the instances -/
theorem marked_stays (hc : c.available = []) {es : List Event} (hes : ∀ e ∈ es, e.isCall = true)
    (ctrl : RpcController) :
    ∃ reason, callMethodAsync select w (some ctrl) (Machine.run step c es) =
      some ⟨.value false, ctrl.setFailed reason, false, []⟩ := by
  have hav : (Machine.run step c es).available = [] := by
    refine Machine.inv_run (P := fun _ (e : Event) => e.isCall = true)
      (I := fun (c : RpcClient) => c.available = []) ?_
      (Machine.along_of_mem hes c) hc
    intro c e he hav
    obtain ⟨hin, hmarks⟩ := step_marks (c := c) he
    rw [available_eq_nil] at hav ⊢
    rw [hin]
    exact fun addr haddr => hmarks addr (hav addr haddr)
  by_cases hin : (Machine.run step c es).instances = []
  · exact ⟨_, by simp only [callMethodAsync, Option.map_some, hin, if_true]; rfl⟩
  · exact ⟨_, by simp only [callMethodAsync, Option.map_some, hin, hav, if_false, if_true]; rfl⟩

/-- two instances, of which the first refuses connections -/
def twoInstances : RpcClient := ⟨3, [ascii "10.0.0.1:80", ascii "10.0.0.2:80"], ∅, []⟩

def firstRefuses : World where
  connect addr _ := ⟨{ ok := addr ≠ ascii "10.0.0.1:80" }, id⟩
  between _ := id
  attempt _ _ := .answered

/-- a new client whose balancer takes the first instance, which refuses: the second one is healthy and not tried -/
theorem not_switched : ¬ FailsOver (fun addrs => addrs.headD []) firstRefuses (some {}) twoInstances := by
  intro h
  have haddressed : Addressed (ascii "10.0.0.2:80") := ⟨8, 80, by decide, by decide⟩
  have hhealthy : Healthy firstRefuses (ascii "10.0.0.2:80") :=
    ⟨haddressed, fun _ => ⟨rfl, rfl⟩, fun _ => rfl⟩
  obtain ⟨ctrl, -, -, -, hacc, -⟩ := call_true_iff.1 (h ⟨_, by simp [twoInstances], hhealthy⟩)
  rcases hacc with ⟨conn, hl, -⟩ | ⟨-, -, hok⟩
  · cases hl
  · exact absurd hok (by decide)

end RpcClient

end MCoroRpc
