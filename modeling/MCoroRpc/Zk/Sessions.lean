/-
The start of a ZkClient and its sessions (start, close and globalWatcher in src/zkclient.cc).

start opens a session, waits until m_connNotified is set, takes m_connResult and resets the flag. Flag and result belong to
the client: every session writes them with its events, and close writes them as well.

- `Label`, `step`: start goes in the steps between which other threads come in, and there is one start at a time. An event
  that comes in the middle of close does the same as one in front of it, so close is one step.
- `Reports`: what each start has returned is due to the session that it opened.
- `reports_iff`: that holds throughout a run, however its starts go on, exactly if no session is opened while the flag is
  set, and neither close nor another session decides what a waiting start takes.
-/
import MCoroRpc.Core.Machine
import MCoroRpc.Zk.PendingOps

namespace MCoroRpc

namespace Sessions

open ZkClient (ZOK)

/-! ## Model -/

def ZSYSTEMERROR : ℤ := -1
def ZNOAUTH : ℤ := -102
def ZSESSIONEXPIRED : ℤ := -112
def ZCLOSING : ℤ := -116

/-- ZOO_CONNECTED_STATE, ZOO_EXPIRED_SESSION_STATE and ZOO_AUTH_FAILED_STATE -/
inductive EventKind where
  | connected
  | expired
  | authFailed
deriving DecidableEq, Repr

def EventKind.result : EventKind → ZkResult
  | .connected => ⟨ZOK, "", ""⟩
  | .expired => ⟨ZSESSIONEXPIRED, "", ""⟩
  | .authFailed => ⟨ZNOAUTH, "", ""⟩

inductive Notifier where
  | event (session : ℕ) (kind : EventKind)
  | close
deriving DecidableEq, Repr

/-- why start returns what it returns -/
inductive Cause where
  | alreadyConnected
  | initFailed
  /-- `elapsed` ns behind the begin; `heard`: there has been an event of the session -/
  | timeout (elapsed : ℕ) (heard : Bool)
  | notified (notifier : Option Notifier)
deriving DecidableEq, Repr

structure Return where
  /-- the session that start has opened -/
  session : Option ℕ
  result : ZkResult
  cause : Cause
deriving DecidableEq, Repr

/-- where start stands -/
inductive Phase where
  | idle
  | waiting (session : ℕ)
  /-- the loop has found m_connNotified set -/
  | notified (session : ℕ)
  /-- the result is known -/
  | leaving (session : ℕ) (result : ZkResult) (cause : Cause)
deriving DecidableEq, Repr

/-- a session is known by the number of those opened before -/
structure Client where
  zkHandle : Option ℕ
  connected : Bool
  connNotified : Bool
  connResult : ZkResult
  phase : Phase
  opened : ℕ
  /-- the sessions whose handle has not been closed -/
  live : List ℕ
  /-- who has written `connResult` -/
  notifier : Option Notifier
  /-- the events so far, with their sessions -/
  events : List (ℕ × EventKind)
  returned : List Return

def init : Client := ⟨none, false, false, ⟨0, "", ""⟩, .idle, 0, [], none, [], []⟩

/-- 5 s, in ns -/
def startTimeout : ℕ := 5000000000

namespace Client

/-- zookeeper_close, if there is a handle -/
def disconnect (c : Client) : Client :=
  { c with live := c.live.filter fun n => c.zkHandle ≠ some n, zkHandle := none, connected := false }

/-- start up to its loop; `ok` tells whether zookeeper_init gives a handle -/
def start (ok : Bool) (c : Client) : Client :=
  match c.phase with
  | .idle =>
    if c.connected then { c with returned := c.returned ++ [⟨none, ⟨ZOK, "", ""⟩, .alreadyConnected⟩] }
    else if ok then
      { c with zkHandle := some c.opened, live := c.live ++ [c.opened], opened := c.opened + 1, phase := .waiting c.opened }
    else
      { c with
        zkHandle := none
        returned := c.returned ++ [⟨none, ⟨ZSYSTEMERROR, "", "failed to init zookeeper"⟩, .initFailed⟩] }
  | _ => c

/-- one round of the loop -/
def poll (elapsed : ℕ) (c : Client) : Client :=
  match c.phase with
  | .waiting n =>
    if c.connNotified then { c with phase := .notified n }
    else if startTimeout ≤ elapsed then
      { c with phase :=
          .leaving n ⟨ZSYSTEMERROR, "", "connection timeout"⟩ (.timeout elapsed (c.events.any fun e => e.1 = n)) }
    else c
  | _ => c

/-- the result is copied and the flag reset, under m_connMutex -/
def take (c : Client) : Client :=
  match c.phase with
  | .notified n => { c with connNotified := false, phase := .leaving n c.connResult (.notified c.notifier) }
  | _ => c

def leave (c : Client) : Client :=
  match c.phase with
  | .leaving n r cause =>
    { (if r.rc = ZOK then c else c.disconnect) with phase := .idle, returned := c.returned ++ [⟨some n, r, cause⟩] }
  | _ => c

/-- globalWatcher, for an event of a session that is still live -/
def globalWatcher (n : ℕ) (kind : EventKind) (c : Client) : Client :=
  if n ∈ c.live then
    { c with
      connected := decide (kind = .connected)
      connNotified := true
      connResult := kind.result
      notifier := some (.event n kind)
      events := c.events ++ [(n, kind)] }
  else c

def close (c : Client) : Client :=
  if c.zkHandle.isSome then
    if c.connNotified then c.disconnect
    else { c with connNotified := true, connResult := ⟨ZCLOSING, "", "closing"⟩, notifier := some .close }.disconnect
  else c

end Client

inductive Label where
  | start (ok : Bool)
  | poll (elapsed : ℕ)
  | take
  | leave
  | event (session : ℕ) (kind : EventKind)
  | close
deriving DecidableEq, Repr

def step (c : Client) : Label → Client
  | .start ok => c.start ok
  | .poll elapsed => c.poll elapsed
  | .take => c.take
  | .leave => c.leave
  | .event n kind => c.globalWatcher n kind
  | .close => c.close

/-- a step with which a start that has begun goes on -/
def Label.goesOn : Label → Bool
  | .poll _ | .take | .leave => true
  | _ => false

/-! ## The property and its condition -/

/-- of a start on a client that is not connected -/
structure Own (events : List (ℕ × EventKind)) (r : Return) : Prop where
  /-- ok comes behind a connected event of the session -/
  ok : r.cause ≠ .alreadyConnected → r.result.rc = ZOK → ∃ n, r.session = some n ∧ (n, .connected) ∈ events
  /-- a failure comes from the initialisation, from five seconds without an event, or from an event of the session -/
  failure : r.result.rc ≠ ZOK →
    r.cause = .initFailed ∨ (∃ elapsed, r.cause = .timeout elapsed false ∧ startTimeout ≤ elapsed) ∨
      ∃ n kind, r.session = some n ∧ r.cause = .notified (some (.event n kind)) ∧ (n, kind) ∈ events ∧
        r.result = kind.result

def Reports (c : Client) : Prop := ∀ r ∈ c.returned, Own c.events r

/-- the session whose result start will take -/
def Phase.waitsFor : Phase → Option ℕ
  | .waiting n | .notified n => some n
  | _ => none

/-- what the flag and the result hold is for the start that takes it -/
def Undisturbed (c : Client) : Label → Prop
  | .start ok => c.phase = .idle → c.connected = false → ok = true → c.connNotified = false
  | .event n kind => ∀ m, c.phase.waitsFor = some m → n ∈ c.live → n = m ∨ kind = .connected ∧ (m, .connected) ∈ c.events
  | .close => ∀ m, c.phase.waitsFor = some m → c.zkHandle.isSome → c.connNotified = true
  | _ => True

/-- what start would return for the session `n` -/
def Client.pending (n : ℕ) (c : Client) : Return := ⟨some n, c.connResult, .notified c.notifier⟩

structure Inv (c : Client) : Prop where
  reports : Reports c
  known : ∀ e ∈ c.events, e.1 < c.opened
  /-- a session that nothing has been notified of has had no event -/
  unheard : ∀ n, c.phase = .waiting n → c.connNotified = false → ∀ e ∈ c.events, e.1 ≠ n
  own : ∀ n, c.phase.waitsFor = some n → c.connNotified = true → Own c.events (c.pending n)
  seen : ∀ n, c.phase = .notified n → c.connNotified = true
  leaving : ∀ n r cause, c.phase = .leaving n r cause → Own c.events ⟨some n, r, cause⟩
  live : ∀ n ∈ c.live, n < c.opened

section
variable {c : Client} {l : Label} {r : Return} {events : List (ℕ × EventKind)} {n : ℕ} {kind : EventKind}

/-! ## Single returns -/

theorem EventKind.result_ok : kind.result.rc = ZOK ↔ kind = .connected := by
  cases kind <;> decide

theorem Own.append (h : Own events r) (e : ℕ × EventKind) : Own (events ++ [e]) r := by
  constructor
  · intro hc hok
    obtain ⟨n, hn, hmem⟩ := h.ok hc hok
    exact ⟨n, hn, List.mem_append_left _ hmem⟩
  · intro hr
    rcases h.failure hr with hi | ht | ⟨n, kind, hn, hcause, hmem, hresult⟩
    · exact .inl hi
    · exact .inr (.inl ht)
    · exact .inr (.inr ⟨n, kind, hn, hcause, List.mem_append_left _ hmem, hresult⟩)

theorem own_connected : Own events ⟨none, ⟨ZOK, "", ""⟩, .alreadyConnected⟩ := ⟨fun h => absurd rfl h, fun h => absurd rfl h⟩

theorem own_initFailed (path : String) : Own events ⟨none, ⟨ZSYSTEMERROR, "", path⟩, .initFailed⟩ :=
  ⟨fun _ h => absurd h (by decide : ZSYSTEMERROR ≠ ZOK), fun _ => .inl rfl⟩

/-- five seconds without an event -/
theorem own_timeout {elapsed : ℕ} (path : String) (he : startTimeout ≤ elapsed) (hnone : ∀ e ∈ events, e.1 ≠ n) :
    Own events ⟨some n, ⟨ZSYSTEMERROR, "", path⟩, .timeout elapsed (events.any fun e => e.1 = n)⟩ := by
  have hheard : (events.any fun e => e.1 = n) = false := by
    simpa using fun a b hab => hnone (a, b) hab
  exact ⟨fun _ h => absurd h (by decide : ZSYSTEMERROR ≠ ZOK), fun _ => .inr (.inl ⟨elapsed, by rw [hheard], he⟩)⟩

/-- the session's own event has been written -/
theorem own_event (hmem : (n, kind) ∈ events) : Own events ⟨some n, kind.result, .notified (some (.event n kind))⟩ := by
  constructor
  · intro _ hok
    obtain rfl := EventKind.result_ok.1 hok
    exact ⟨n, rfl, hmem⟩
  · exact fun _ => .inr (.inr ⟨n, kind, rfl, rfl, hmem, rfl⟩)

/-- another session has said again what the session has said -/
theorem own_connected_again {w : Option Notifier} (hmem : (n, .connected) ∈ events) :
    Own events ⟨some n, EventKind.connected.result, .notified w⟩ :=
  ⟨fun _ _ => ⟨n, rfl, hmem⟩, fun h => absurd rfl h⟩

/-- of what has been notified by an event of another session or by close -/
theorem not_own_of_other {w : Option Notifier} {result : ZkResult} (hw : ∀ kind, w ≠ some (.event n kind))
    (hok : result.rc = ZOK → (n, .connected) ∉ events) : ¬ Own events ⟨some n, result, .notified w⟩ := by
  intro h
  by_cases hrc : result.rc = ZOK
  · obtain ⟨m, hm, hmem⟩ := h.ok (by simp) hrc
    cases hm
    exact hok hrc hmem
  · rcases h.failure hrc with hi | ⟨_, ht, -⟩ | ⟨m, kind, hm, hcause, -⟩
    · cases hi
    · cases ht
    · cases hm
      exact hw kind (Cause.notified.inj hcause)

/-- of a session without events -/
theorem not_own_of_unheard {w : Option Notifier} {result : ZkResult} (hnone : ∀ e ∈ events, e.1 ≠ n) :
    ¬ Own events ⟨some n, result, .notified w⟩ := by
  intro h
  by_cases hrc : result.rc = ZOK
  · obtain ⟨m, hm, hmem⟩ := h.ok (by simp) hrc
    cases hm
    exact hnone _ hmem rfl
  · rcases h.failure hrc with hi | ⟨_, ht, -⟩ | ⟨m, kind, hm, -, hmem, -⟩
    · cases hi
    · cases ht
    · cases hm
      exact hnone _ hmem rfl

/-! ## Single steps -/

theorem mem_returned_append {rs : List Return} {r' : Return} (h : ∀ r ∈ rs, Own events r) (hr : Own events r') :
    ∀ r ∈ rs ++ [r'], Own events r := by
  intro r hmem
  rcases List.mem_append.1 hmem with hold | hnew
  · exact h r hold
  · rwa [List.mem_singleton.1 hnew]

theorem init_inv : Inv init := by
  constructor <;> simp [init, Reports, Phase.waitsFor]

/-- closing the handle changes nothing that is asked about -/
theorem Inv.disconnect (h : Inv c) : Inv c.disconnect :=
  ⟨h.reports, h.known, h.unheard, h.own, h.seen, h.leaving, fun n hn => h.live n (List.mem_filter.1 hn).1⟩

theorem Inv.start (h : Inv c) {ok : Bool} (hl : Undisturbed c (.start ok)) : Inv (c.start ok) := by
  unfold Client.start
  split
  · next hidle =>
    split_ifs with hconnected hok
    · exact { h with reports := mem_returned_append h.reports own_connected }
    · have hnot : c.connNotified = false := hl hidle (Bool.eq_false_iff.2 hconnected) hok
      refine ⟨h.reports, fun e he => Nat.lt_succ_of_lt (h.known e he), ?_, ?_, nofun, nofun, ?_⟩
      · intro n hn _ e he
        cases hn
        exact Nat.ne_of_lt (h.known e he)
      · intro n _ hset
        cases hnot.symm.trans hset
      · intro n hn
        rcases List.mem_append.1 hn with hold | hnew
        · exact Nat.lt_succ_of_lt (h.live n hold)
        · rw [List.mem_singleton.1 hnew]
          exact Nat.lt_succ_self _
    · exact { h with reports := mem_returned_append h.reports (own_initFailed _) }
  · exact h

theorem Inv.poll (h : Inv c) (elapsed : ℕ) : Inv (c.poll elapsed) := by
  unfold Client.poll
  split
  · next n hphase =>
    split_ifs with hset htime
    · refine ⟨h.reports, h.known, nofun, fun m hm _ => ?_, fun _ _ => hset, nofun, h.live⟩
      apply h.own m _ hset
      rw [hphase]
      exact hm
    · refine ⟨h.reports, h.known, nofun, nofun, nofun, fun m r cause hm => ?_, h.live⟩
      cases hm
      exact own_timeout _ htime (h.unheard n hphase (Bool.eq_false_iff.2 hset))
    · exact h
  · exact h

theorem Inv.take (h : Inv c) : Inv c.take := by
  unfold Client.take
  split
  · next n hphase =>
    refine ⟨h.reports, h.known, nofun, nofun, nofun, fun m r cause hm => ?_, h.live⟩
    cases hm
    exact h.own n (by rw [hphase]; rfl) (h.seen n hphase)
  · exact h

theorem Inv.leave (h : Inv c) : Inv c.leave := by
  unfold Client.leave
  split
  · next n r cause hphase =>
    have hreturned := mem_returned_append h.reports (h.leaving n r cause hphase)
    split_ifs
    · exact ⟨hreturned, h.known, nofun, nofun, nofun, nofun, h.live⟩
    · exact ⟨hreturned, h.known, nofun, nofun, nofun, nofun, h.disconnect.live⟩
  · exact h

theorem Inv.globalWatcher (h : Inv c) (hl : Undisturbed c (.event n kind)) : Inv (c.globalWatcher n kind) := by
  unfold Client.globalWatcher
  split_ifs with hlive
  · refine ⟨fun r hr => (h.reports r hr).append _, ?_, fun _ _ => nofun, ?_, fun _ _ => rfl,
      fun m r cause hm => (h.leaving m r cause hm).append _, h.live⟩
    · intro e he
      rcases List.mem_append.1 he with hold | hnew
      · exact h.known e hold
      · rw [List.mem_singleton.1 hnew]
        exact h.live n hlive
    · intro m hm _
      rcases hl m hm hlive with rfl | ⟨rfl, hmem⟩
      · exact own_event (List.mem_append_right _ (List.mem_singleton.2 rfl))
      · exact own_connected_again (List.mem_append_left _ hmem)
  · exact h

theorem Inv.close (h : Inv c) (hl : Undisturbed c .close) : Inv c.close := by
  unfold Client.close
  split_ifs with hhandle hset
  · exact h.disconnect
  · -- nobody waits
    have hnobody : ∀ m, c.phase.waitsFor ≠ some m := fun m hm => hset (hl m hm hhandle)
    apply Inv.disconnect
    exact ⟨h.reports, h.known, fun _ _ => nofun, fun m hm _ => absurd hm (hnobody m), fun _ _ => rfl,
      h.leaving, h.live⟩
  · exact h

theorem Inv.step (h : Inv c) (hl : Undisturbed c l) : Inv (step c l) := by
  cases l with
  | start ok => exact h.start hl
  | poll elapsed => exact h.poll elapsed
  | take => exact h.take
  | leave => exact h.leave
  | event n kind => exact h.globalWatcher hl
  | close => exact h.close hl

/-! ## Starts that go on -/

theorem undisturbed_of_goesOn (h : l.goesOn = true) : Undisturbed c l := by
  cases l with
  | poll | take | leave => trivial
  | start | event | close => cases h

/-- every start reports its own session, however it goes on from here -/
def GoesOn (c : Client) : Prop := ∀ ls, (∀ l ∈ ls, l.goesOn = true) → Reports (Machine.run Sessions.step c ls)

theorem Inv.goesOn (h : Inv c) : GoesOn c := fun _ hls =>
  (Machine.inv_run (I := Inv) (fun _ _ hl hs => hs.step (undisturbed_of_goesOn hl)) (Machine.along_of_mem hls c) h).reports

/-- what has been notified is returned -/
theorem pending_of_goesOn (h : GoesOn c) (hn : c.phase.waitsFor = some n) (hset : c.connNotified = true) :
    Own c.events (c.pending n) := by
  -- the rest of a start that has seen the flag
  have hrest : ∀ s : Client, s.phase = .notified n →
      s.pending n ∈ (Machine.run Sessions.step s [.take, .leave]).returned := by
    intro s hs
    simp [Sessions.step, Client.take, hs, Client.leave, Client.pending]
  have hevents : ∀ s : Client, s.phase = .notified n →
      (Machine.run Sessions.step s [.take, .leave]).events = s.events := by
    intro s hs
    simp only [Machine.run_cons, Machine.run_nil, Sessions.step, Client.take, hs, Client.leave]
    split_ifs <;> rfl
  cases hphase : c.phase with
  | waiting m =>
    rw [hphase] at hn
    cases hn
    have hpoll : Sessions.step c (.poll 0) = { c with phase := .notified n } := by
      simp [Sessions.step, Client.poll, hphase, hset]
    have hreports := h [.poll 0, .take, .leave] (by decide)
    rw [Machine.run_cons, hpoll] at hreports
    have hown := hreports _ (hrest _ rfl)
    rwa [hevents _ rfl] at hown
  | notified m =>
    rw [hphase] at hn
    cases hn
    have hown := h [.take, .leave] (by decide) _ (hrest c hphase)
    rwa [hevents c hphase] at hown
  | idle | leaving =>
    rw [hphase] at hn
    cases hn

theorem not_goesOn (h : Inv c) (hl : ¬ Undisturbed c l) : ¬ GoesOn (Sessions.step c l) := by
  intro hgo
  cases l with
  | start ok =>
    simp only [Undisturbed, Classical.not_imp, Bool.not_eq_false] at hl
    obtain ⟨hidle, hconnected, rfl, hset⟩ := hl
    have hstep : Sessions.step c (.start true) = { c with
        zkHandle := some c.opened, live := c.live ++ [c.opened], opened := c.opened + 1, phase := .waiting c.opened } := by
      simp [Sessions.step, Client.start, hidle, hconnected]
    rw [hstep] at hgo
    have hown := pending_of_goesOn (n := c.opened) hgo rfl hset
    exact not_own_of_unheard (fun e he => Nat.ne_of_lt (h.known e he)) hown
  | event n kind =>
    simp only [Undisturbed, Classical.not_imp, not_forall, not_or, not_and] at hl
    obtain ⟨m, hm, hlive, hne, hnot⟩ := hl
    rw [Sessions.step, Client.globalWatcher, if_pos hlive] at hgo
    refine not_own_of_other (fun kind' hw => ?_) (fun hok hmem => ?_) (pending_of_goesOn hgo hm rfl)
    · cases hw
      exact hne rfl
    · obtain rfl := EventKind.result_ok.1 hok
      rcases List.mem_append.1 hmem with hold | hnew
      · exact hnot rfl hold
      · cases List.mem_singleton.1 hnew
        exact hne rfl
  | close =>
    simp only [Undisturbed, Classical.not_imp, not_forall, Bool.not_eq_true] at hl
    obtain ⟨m, hm, hhandle, hset⟩ := hl
    rw [Sessions.step, Client.close, if_pos hhandle, hset] at hgo
    exact not_own_of_other (by simp [Client.disconnect]) (fun hok => absurd hok (by decide : ZCLOSING ≠ ZOK))
      (pending_of_goesOn hgo hm rfl)
  | poll | take | leave => exact hl trivial

end

/-! ## Runs -/

/-- **Sessions**: over every run, however its starts go on, each start on a client that is not connected reports its own
session, exactly if nothing has been left in the flag when a session is opened, and while a start waits neither close nor
another session writes what it takes -/
theorem reports_iff (ls : List Label) :
    (∀ n ls', (∀ l ∈ ls', l.goesOn = true) → Reports (Machine.run step (Machine.run step init (ls.take n)) ls')) ↔
      Machine.Along step Undisturbed init ls :=
  Machine.along_iff (L := fun _ => True) (I := Inv) (P := GoesOn) (fun _ h => h.goesOn) (fun _ _ _ h hl => h.step hl)
    (fun _ _ _ h hl => not_goesOn h hl) init_inv (fun _ _ => trivial)

/-- start, close, start: the second start returns the notification of close; with a reconnect in front of close it returns
ok, though its session has had no event -/
theorem start_after_close :
    (Machine.run step init [.start true, .event 0 .connected, .poll 0, .take, .leave, .close,
        .start true, .poll 0, .take, .leave]).returned =
      [⟨some 0, ⟨ZOK, "", ""⟩, .notified (some (.event 0 .connected))⟩,
        ⟨some 1, ⟨ZCLOSING, "", "closing"⟩, .notified (some .close)⟩] ∧
    ¬ Reports (Machine.run step init [.start true, .event 0 .connected, .poll 0, .take, .leave, .close,
        .start true, .poll 0, .take, .leave]) ∧
    ¬ Reports (Machine.run step init [.start true, .event 0 .connected, .poll 0, .take, .leave, .event 0 .connected, .close,
        .start true, .poll 0, .take, .leave]) := by
  refine ⟨by decide, fun h => ?_, fun h => ?_⟩
  · exact not_own_of_other (n := 1) (w := some .close) (by simp) (fun hok => absurd hok (by decide : ZCLOSING ≠ ZOK))
      (h ⟨some 1, ⟨ZCLOSING, "", "closing"⟩, .notified (some .close)⟩ (by decide))
  · exact not_own_of_unheard (n := 1) (by decide)
      (h ⟨some 1, ⟨ZOK, "", ""⟩, .notified (some (.event 0 .connected))⟩ (by decide))

end Sessions

end MCoroRpc
