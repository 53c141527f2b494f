/-
What getOrCreateChannel gives, and what a call makes of it (src/rpc_client_impl.cc).

wait_for turns an exception of the connect into `ok = false`; getOrCreateChannel looks at `is_timeout` alone. A call
retries the lookups of its target, before its first attempt and between its retries, and looks at what they give in its
first round only.

- `postcondition_iff`: getOrCreateChannel keeps its postcondition exactly if no attempt to connect that it makes ends with
  an exception before the timer.
- `connectPhase_iff`: a call does with its first lookups what it should exactly if no retry is the first to give a channel.
- `unfaulted_iff`: a call stays off null channels exactly if its first attempt is answered, or no lookup behind attempts
  that have come back gives null.
-/
import MCoroRpc.Coro.WaitFor
import MCoroRpc.Rpc.Failover

namespace MCoroRpc

open TcpStream Search
open RpcDispatcher (ascii)

namespace RpcClient

/-! ## getOrCreateChannel -/

/-- an attempt to connect to `addr` is made: the pool has no connected channel to it, and it can be read -/
def Attempted (addr : Bytes) (pool : Pool) : Prop :=
  (∀ conn, pool.lookup addr = some (some conn) → conn.connected = false) ∧ Addressed addr

/-- what is promised of the result `r` -/
structure Postcondition (addr : Bytes) (con : Connect) (pool : Pool) (r : Lookup × Pool) : Prop where
  /-- a channel is connected, and it is the one in the pool -/
  connected : ∀ conn, r.1 = .channel conn → conn.connected = true ∧ r.2.lookup addr = some (some conn)
  /-- an attempt that has failed changes nothing -/
  failed : Attempted addr pool → ¬ (con.result.isTimeout = false ∧ con.result.ok = true) →
    r = (.null, con.meanwhile pool)

variable {addr : Bytes} {con : Connect} {pool : Pool}

theorem reuses {conn : Conn} (h : pool.lookup addr = some (some conn)) (hc : conn.connected = true) :
    getOrCreateChannel addr con pool = (.channel conn, pool) := by
  simp [getOrCreateChannel, h, hc]

theorem creates (h : ∀ conn, pool.lookup addr = some (some conn) → conn.connected = false) :
    getOrCreateChannel addr con pool = createChannel addr con pool := by
  cases hpool : pool.lookup addr with
  | none => simp [getOrCreateChannel, hpool]
  | some slot =>
    cases slot with
    | none => simp [getOrCreateChannel, hpool]
    | some conn => simp [getOrCreateChannel, hpool, h conn hpool]

/-- how an attempt to connect is answered -/
theorem createChannel_addressed {colonPos : ℕ} {port : ℤ} (hcolon : addr.idxOf? 58 = some colonPos)
    (hport : stoi (addr.drop (colonPos + 1)) = some port) : createChannel addr con pool =
      if con.result.isTimeout then (.null, con.meanwhile pool)
      else (.channel ⟨addr.take colonPos, port, con.result.ok⟩,
        (con.meanwhile pool).insert addr (some ⟨addr.take colonPos, port, con.result.ok⟩)) := by
  simp only [createChannel, hcolon, hport]

/-- without an attempt there is no new channel -/
theorem createChannel_unaddressed (h : ¬ Addressed addr) (conn : Conn) : (createChannel addr con pool).1 ≠ .channel conn := by
  cases hcolon : addr.idxOf? 58 with
  | none => simp [createChannel, hcolon]
  | some colonPos =>
    cases hport : stoi (addr.drop (colonPos + 1)) with
    | none => simp [createChannel, hcolon, hport]
    | some port => exact absurd ⟨colonPos, port, hcolon, hport⟩ h

/-- **getOrCreateChannel**: for every address, pool and end of the connect, the postcondition holds exactly if the connect,
where one is made, does not end with an exception before the timer -/
theorem postcondition_iff (addr : Bytes) (con : Connect) (pool : Pool) :
    Postcondition addr con pool (getOrCreateChannel addr con pool) ↔
      (Attempted addr pool → con.result.isTimeout = true ∨ con.result.ok = true) := by
  by_cases hreuse : ∃ conn, pool.lookup addr = some (some conn) ∧ conn.connected = true
  · obtain ⟨conn, hpool, hc⟩ := hreuse
    have hno : ¬ Attempted addr pool := fun ha => by cases hc.symm.trans (ha.1 conn hpool)
    rw [reuses hpool hc]
    refine ⟨fun _ ha => absurd ha hno, fun _ => ⟨?_, fun ha => absurd ha hno⟩⟩
    intro conn' he
    obtain rfl := Lookup.channel.inj he
    exact ⟨hc, hpool⟩
  · have hnew : ∀ conn, pool.lookup addr = some (some conn) → conn.connected = false := by
      intro conn hpool
      by_contra hc
      exact hreuse ⟨conn, hpool, Bool.of_not_eq_false hc⟩
    rw [creates hnew]
    by_cases haddr : Addressed addr
    swap
    · have hno : ¬ Attempted addr pool := fun ha => haddr ha.2
      refine ⟨fun _ ha => absurd ha hno, fun _ => ⟨?_, fun ha => absurd ha hno⟩⟩
      exact fun conn he => absurd he (createChannel_unaddressed haddr conn)
    have ha : Attempted addr pool := ⟨hnew, haddr⟩
    obtain ⟨colonPos, port, hcolon, hport⟩ := haddr
    rw [createChannel_addressed hcolon hport]
    cases ht : con.result.isTimeout with
    | true => exact ⟨fun _ _ => .inl rfl, fun _ => ⟨fun conn he => (by cases he), fun _ _ => rfl⟩⟩
    | false =>
      cases hok : con.result.ok with
      | true =>
        refine ⟨fun _ _ => .inr rfl, fun _ => ⟨?_, fun _ hn => absurd ⟨ht, hok⟩ hn⟩⟩
        intro conn he
        obtain rfl := Lookup.channel.inj he
        exact ⟨rfl, Finmap.lookup_insert _⟩
      | false =>
        -- the exception: the channel is given, and not connected
        refine ⟨?_, fun h => by simpa using h ha⟩
        intro hp
        cases (hp.connected _ rfl).1

/-- the instance is not there: its channel is stored and given -/
theorem refused_stored : ¬ Postcondition (ascii "10.0.0.1:80")
    ⟨WaitFor.told false (.error () : Except Unit Unit), id⟩ ∅
    (getOrCreateChannel (ascii "10.0.0.1:80") ⟨WaitFor.told false (.error () : Except Unit Unit), id⟩ ∅) := by
  have ha : Addressed (ascii "10.0.0.1:80") := ⟨8, 80, by decide, by decide⟩
  obtain ⟨colonPos, port, hcolon, hport⟩ := ha
  rw [creates (by intro conn h; cases h), createChannel_addressed hcolon hport]
  intro hp
  cases (hp.connected _ rfl).1

/-! ## The first lookups of a call -/

variable {s : Script} {ctrl : RpcController} {conn : Conn} {attempts : List Attempt} {maxRetries : ℤ} {target : Bytes}

/-- what is promised of the first lookups, of which `s` tells -/
structure ConnectPhase (maxRetries : ℤ) (s : Script) (o : Outcome) : Prop where
  /-- without a request the target is only marked if no lookup gives a channel -/
  gaveUp : o.attempts = [] → o.marked = true → ∀ k ≤ maxRetries.toNat, s.lookup k = .null
  /-- the request goes to the first channel; one that is not connected sends nothing -/
  sent : ∀ k ≤ maxRetries.toNat, ∀ conn, (∀ j < k, s.lookup j = .null) → s.lookup k = .channel conn →
    o.attempts.head? = some (s.attemptOn conn 0)

/-- the retries stop at the first lookup that is not null -/
theorem lookupAgain_iff {l : Lookup} (hl : l ≠ .null) (n k : ℕ) : lookupAgain s n k = l ↔
    Until (fun j => s.lookup j = .null) (fun j => s.lookup j = l) n (k + 1) := by
  induction n generalizing k with
  | zero =>
    simp only [lookupAgain, not_until_zero, iff_false]
    exact hl.symm
  | succ n ih =>
    rw [until_succ, ← ih]
    cases h : s.lookup (k + 1) <;> simp [lookupAgain, h, hl.symm]

theorem lookupAgain_null (n k : ℕ) : lookupAgain s n k = .null ↔ ∀ i < n, s.lookup (k + 1 + i) = .null := by
  constructor
  · intro h
    rcases forall_or_until (P := fun j => s.lookup j = .null) (n := n) (k := k + 1) with hall | ⟨i, hi, hj, hne⟩
    · exact hall
    · exact absurd (h.symm.trans ((lookupAgain_iff hne n k).2 ⟨i, hi, hj, rfl⟩)) (Ne.symm hne)
  · intro h
    by_contra hne
    obtain ⟨i, hi, -, he⟩ := (lookupAgain_iff hne n k).1 rfl
    exact hne (he.symm.trans (h i hi))

/-- behind a first lookup that gives nothing -/
theorem lookupAgain_channel (h0 : s.lookup 0 = .null) (n : ℕ) : lookupAgain s n 0 = .channel conn ↔
    ∃ k ≤ n, (∀ j < k, s.lookup j = .null) ∧ s.lookup k = .channel conn := by
  rw [lookupAgain_iff (by simp), ← until_zero (P := fun j => s.lookup j = .null), until_succ]
  simp [h0]

/-- behind a first lookup that gives something there are no retries -/
theorem eq_zero_of_nulls (h0 : s.lookup 0 ≠ .null) {k : ℕ} (h : ∀ j < k, s.lookup j = .null) : k = 0 := by
  by_contra hk
  exact h0 (h 0 (Nat.pos_of_ne_zero hk))

theorem retryLoop_prefix (n k : ℕ) (lookup : Lookup) (ctrl : RpcController) (attempts : List Attempt) :
    attempts <+: (retryLoop s n k lookup ctrl attempts).attempts := by
  induction n generalizing k lookup ctrl attempts with
  | zero => exact List.prefix_refl _
  | succ n ih =>
    cases lookup with
    | channel conn =>
      simp only [retryLoop]
      split
      · exact List.prefix_append _ _
      · split_ifs
        · exact (List.prefix_append _ _).trans (ih _ _ _ _)
        · split
          · exact List.prefix_append _ _
          · exact (List.prefix_append _ _).trans (ih _ _ _ _)
        · exact List.prefix_append _ _
    | _ => exact List.prefix_refl _

/-- the first attempt is made on the channel that is given -/
theorem attemptPhase_head : (attemptPhase maxRetries s conn ctrl).attempts.head? = some (s.attemptOn conn 0) := by
  unfold attemptPhase
  generalize s.attemptOn conn 0 = a
  split
  · rfl
  · split_ifs
    · obtain ⟨rest, hrest⟩ := retryLoop_prefix (s := s) (maxRetries + 1).toNat 0 (.channel conn) (a.mark ctrl) [a]
      rw [← hrest]
      rfl
    · rfl

/-- **The first lookups**: for every number of retries and all that getOrCreateChannel gives, a call does with it what it
should exactly if a channel is not given for the first time by a retry -/
theorem connectPhase_iff (maxRetries : ℤ) (target : Bytes) (s : Script) (ctrl : RpcController) :
    ConnectPhase maxRetries s (callTarget maxRetries target s ctrl) ↔
      ∀ k ≤ maxRetries.toNat, ∀ conn, (∀ j < k, s.lookup j = .null) → s.lookup k = .channel conn → k = 0 := by
  cases h0 : s.lookup 0 with
  | raised what =>
    have hne : s.lookup 0 ≠ .null := by simp [h0]
    refine ⟨fun _ k _ conn hj _ => eq_zero_of_nulls hne hj, fun _ => ⟨?_, ?_⟩⟩
    · intro _ hm
      simp [callTarget, h0] at hm
    · intro k _ conn hj hk
      obtain rfl := eq_zero_of_nulls hne hj
      cases h0.symm.trans hk
  | channel conn =>
    have hne : s.lookup 0 ≠ .null := by simp [h0]
    rw [callTarget_channel h0]
    refine ⟨fun _ k _ conn hj _ => eq_zero_of_nulls hne hj, fun _ => ⟨?_, ?_⟩⟩
    · intro hnil
      have hhead : (attemptPhase maxRetries s conn ctrl).attempts.head? = some (s.attemptOn conn 0) := attemptPhase_head
      simp [hnil] at hhead
    · intro k _ conn' hj hk
      obtain rfl := eq_zero_of_nulls hne hj
      obtain rfl := Lookup.channel.inj (h0.symm.trans hk)
      exact attemptPhase_head
  | null =>
    have hnil : (callTarget maxRetries target s ctrl).attempts = [] := by
      simp only [callTarget, h0]
      split <;> rfl
    constructor
    · intro h k hk conn hj hch
      have hsent := h.sent k hk conn hj hch
      simp [hnil] at hsent
    · intro h
      refine ⟨?_, ?_⟩
      · intro _ hm k hk
        have hagain : lookupAgain s maxRetries.toNat 0 = .null := by
          cases hl : lookupAgain s maxRetries.toNat 0 with
          | null => rfl
          | raised what => simp [callTarget, h0, hl] at hm
          | channel conn =>
            obtain ⟨k, hk, hj, hch⟩ := (lookupAgain_channel h0 _).1 hl
            obtain rfl := h k hk conn hj hch
            cases h0.symm.trans hch
        cases k with
        | zero => exact h0
        | succ k =>
          rw [show k + 1 = 0 + 1 + k by omega]
          exact (lookupAgain_null _ _).1 hagain k (by omega)
      · intro k hk conn hj hch
        obtain rfl := h k hk conn hj hch
        cases h0.symm.trans hch

/-- the first connect runs into its timer, and the next one succeeds -/
def upOnRetry : World where
  connect _ k := ⟨{ ok := k ≠ 0, isTimeout := k = 0 }, id⟩
  between _ := id
  attempt _ _ := .answered

/-- the script of a call to `127.0.0.1:8080` by a new client -/
def localScript (w : World) : Script := w.script (ascii "127.0.0.1:8080") ∅

/-- a retry gives a channel: the call gives up all the same -/
theorem retry_unused : ¬ ConnectPhase 3 (localScript upOnRetry)
    (callTarget 3 (ascii "127.0.0.1:8080") (localScript upOnRetry) {}) := by
  intro h
  have hnulls : ∀ j < 1, (localScript upOnRetry).lookup j = .null := by
    intro j hj
    rw [Nat.lt_one_iff.1 hj]
    decide
  have hhead := h.sent 1 (by decide) localConn hnulls (by decide)
  revert hhead
  decide

/-! ## The lookups between the retries -/

/-- a failed controller: the retries come to a null channel exactly if one is given behind attempts that have come back -/
theorem retryLoop_fault (n : ℕ) (attempts : List Attempt) {k : ℕ} {lookup : Lookup} (hl : n = 0 ∨ s.lookup k = lookup)
    (hr : ∀ what, lookup ≠ .raised what) (hf : ctrl.failed = true) :
    (retryLoop s n k lookup ctrl attempts).returns = .fault ↔
      Until (fun j => ∃ a, s.ends (j + 1) = some a ∧ a.completes = true) (fun j => s.lookup j = .null) n k := by
  induction n generalizing k lookup ctrl attempts with
  | zero => simp [retryLoop, not_until_zero]
  | succ n ih =>
    have hl : s.lookup k = lookup := hl.resolve_left (Nat.succ_ne_zero n)
    rw [until_succ]
    cases lookup with
    | null => simp [retryLoop, hl]
    | raised what => exact absurd rfl (hr what)
    | channel conn =>
      rw [ends_channel hl, hl]
      generalize ha : s.attemptOn conn (k + 1) = a
      cases hc : a.completes with
      | false =>
        obtain ⟨what, rfl⟩ := Attempt.raised_of_not_completes hc
        simp [retryLoop, ha, caught, Attempt.completes]
      | true =>
        rcases retryLoop_again n attempts ha hc hf with ⟨lookup, hnext, hnr, he⟩ | ⟨what, hnext, he⟩
        · rw [he, ih (attempts ++ [a]) hnext hnr (Attempt.mark_failed hf a)]
          simp [hc]
        · have hends := ends_null (s := s) (k := k + 1) (by simp [hnext])
          have hno : ¬ Until (fun j => ∃ a, s.ends (j + 1) = some a ∧ a.completes = true)
              (fun j => s.lookup j = .null) n (k + 1) := by
            apply not_until
            · simp [hends]
            · simp [hnext]
          rw [he]
          simp [caught, hno]

/-- the first attempt has come back -/
theorem reached_succ {a : Attempt} (ha : s.ends 0 = some a) (hc : a.completes = true) (k : ℕ) :
    s.Reached (k + 1) ↔ ∀ j < k, ∃ a, s.ends (j + 1) = some a ∧ a.completes = true := by
  unfold Script.Reached
  rw [Nat.forall_lt_succ_left]
  simp [ha, hc]

/-- the first attempt has failed and come back -/
theorem attemptPhase_fault {a : Attempt} (h : s.lookup 0 = .channel conn) (ha : s.attemptOn conn 0 = a)
    (hc : a.completes = true) (hf : (a.mark ctrl).failed = true) :
    (attemptPhase maxRetries s conn ctrl).returns = .fault ↔
      ∃ k : ℕ, 1 ≤ k ∧ k ≤ maxRetries ∧ s.Reached (k + 1) ∧ s.lookup k = .null := by
  have hends : s.ends 0 = some a := by rw [ends_zero h, ha]
  rw [attempts_failed ha hc hf, retryLoop_fault _ _ (.inr h) (by simp) hf]
  simp only [Until, Nat.zero_add, reached_succ hends hc]
  constructor
  · rintro ⟨k, hk, hj, hnull⟩
    refine ⟨k, ?_, by omega, hj, hnull⟩
    by_contra h1
    obtain rfl : k = 0 := by omega
    cases h.symm.trans hnull
  · rintro ⟨k, -, hk, hj, hnull⟩
    exact ⟨k, by omega, hj, hnull⟩

/-- **No null channel**: for every number of retries and all that the attempts and the lookups between them give, a call
stays off null channels exactly if its first attempt is answered, on a controller that has not failed, or no lookup behind
attempts that have come back gives null -/
theorem unfaulted_iff (maxRetries : ℤ) (target : Bytes) (s : Script) (ctrl : RpcController) :
    (callTarget maxRetries target s ctrl).returns ≠ .fault ↔
      ctrl.failed = false ∧ s.ends 0 = some .answered ∨
        ∀ k : ℕ, 1 ≤ k → k ≤ maxRetries → s.Reached (k + 1) → s.lookup k ≠ .null := by
  by_cases hch : ∃ conn, s.lookup 0 = .channel conn
  swap
  · have hl : ∀ conn, s.lookup 0 ≠ .channel conn := fun conn hc => hch ⟨conn, hc⟩
    have hends := ends_zero_none hl
    refine iff_of_true (target_unreached maxRetries target ctrl hl).2.1 (.inr ?_)
    intro k _ _ hreached
    obtain ⟨a, ha, -⟩ := hreached 0 (Nat.succ_pos k)
    cases hends.symm.trans ha
  obtain ⟨conn, h⟩ := hch
  have hends := ends_zero h
  rw [callTarget_channel h]
  by_cases hfirst : ctrl.failed = false ∧ s.ends 0 = some .answered
  · have ha : s.attemptOn conn 0 = .answered := Option.some.inj (hends.symm.trans hfirst.2)
    rw [attempts_answered ha hfirst.1]
    exact iff_of_true (by simp) (.inl hfirst)
  · rw [or_iff_right hfirst]
    generalize ha : s.attemptOn conn 0 = a at hends
    cases hc : a.completes with
    | false =>
      obtain ⟨what, rfl⟩ := Attempt.raised_of_not_completes hc
      refine iff_of_true (by simp [attemptPhase, ha, caught]) ?_
      intro k _ _ hreached
      obtain ⟨a, ha', hc'⟩ := hreached 0 (Nat.succ_pos k)
      obtain rfl := Option.some.inj (hends.symm.trans ha')
      cases hc'
    | true =>
      have hf : (a.mark ctrl).failed = true := by
        apply Attempt.mark_unanswered hc
        rintro ⟨hf, rfl⟩
        exact hfirst ⟨hf, hends⟩
      rw [Ne, attemptPhase_fault h ha hc hf]
      push Not
      exact Iff.rfl

/-- the attempts fail; between them the channel is taken out of the pool, and the next connect runs into its timer -/
def goneOnRetry : World where
  connect _ k := ⟨{ ok := k = 0, isTimeout := k ≠ 0 }, id⟩
  between _ _ := ∅
  attempt _ _ := .failed (ascii "rpc io error")

/-- the second retry is made on a null channel -/
theorem retry_on_null : (callTarget 3 (ascii "127.0.0.1:8080") (localScript goneOnRetry) {}).returns = .fault := by
  decide

end RpcClient

end MCoroRpc
