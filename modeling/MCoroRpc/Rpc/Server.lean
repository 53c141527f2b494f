/-
The coroutines of a running RpcProvider, and its stop (src/rpc_provider.cc, include/net/tcpservice.hpp,
include/coro/channel.hpp).

start() accepts clients and sends their streams to the workers over m_client_channel. stop sets the flag, closes the
listening socket, closes the channel (which cancels the send and the recvs that wait in it) and resets m_client_channel
and m_tcpService. The coroutines go on later, through the ready queue: accept(timeout), accept(), send and recv hold the
`this` of their object.

- `StartPc`, `WorkerPc`: where the coroutines stand. A call is scheduled before it runs, and its caller is scheduled when
  it has ended. A frame is never destroyed, the objects are.
- `Server`, `step`: the provider with its coroutines; a coroutine that uses a null pointer or a destroyed object crashes.
- `WorkerMove`: what a worker can do when it is resumed.
- `Alive`: between start() and a stop every pointer that is used is there.
-/
import MCoroRpc.Coro.Channel
import MCoroRpc.Core.Table
import MCoroRpc.Net.TcpService

namespace MCoroRpc

namespace Stopping

/-! ## Model -/

/-- how a coroutine goes wrong -/
inductive Fault where
  /-- it uses a pointer that is null -/
  | null
  /-- it uses an object that has been destroyed -/
  | destroyed
deriving DecidableEq, Repr

/-- what `accept(timeout)` ends with -/
inductive Accepted where
  | stream (client : ℕ)
  | timeoutException
  /-- with any other exception -/
  | failed
deriving DecidableEq, Repr

/-- where `accept(timeout)` stands; `none` is an exception of `accept()` -/
inductive AcceptPc where
  /-- scheduled -/
  | called
  /-- wait_for is scheduled -/
  | waitForCalled
  /-- `accept()` is scheduled -/
  | innerCalled
  /-- `accept()` is in its ReadAwaiter -/
  | waiting
  /-- the loop has seen the socket readable, `accept()` is in the ready queue -/
  | readable
  /-- `accept()` has ended, wait_for is scheduled -/
  | innerEnded (client : Option ℕ)
  /-- wait_for has ended, `accept(timeout)` is scheduled -/
  | waitForEnded (client : Option ℕ) (isTimeout : Bool)
deriving DecidableEq, Repr

/-- where `send` stands -/
inductive SendPc where
  | called (client : ℕ)
  /-- in its WriterAwaiter -/
  | waiting
  /-- it has ended, start() is scheduled; not `ok` is CancelledException -/
  | ended (ok : Bool)
deriving DecidableEq, Repr

/-- where start() stands -/
inductive StartPc where
  /-- not begun -/
  | absent
  /-- awaits start_tcp_service -/
  | startingService
  /-- awaits m_zkClient->start() -/
  | connecting
  /-- awaits registerToZk -/
  | registering
  | accepting (pc : AcceptPc)
  /-- accept(timeout) has ended, start() is scheduled -/
  | accepted (r : Accepted)
  | sending (pc : SendPc)
  /-- it has returned or thrown -/
  | ended
  | crashed (f : Fault)
deriving DecidableEq, Repr

/-- what recv ends with -/
inductive Received where
  | stream (client : ℕ)
  | channelClosed
  | cancelled
deriving DecidableEq, Repr

/-- where a worker stands -/
inductive WorkerPc where
  /-- scheduled -/
  | called
  /-- recv is scheduled -/
  | recvCalled
  /-- recv is in its ReaderAwaiter -/
  | receiving
  /-- recv has ended, the worker is scheduled -/
  | received (r : Received)
  /-- handleClient is scheduled -/
  | clientCalled
  /-- handleClient awaits readToBuffer -/
  | reading
  /-- handleClient awaits a write, with so many responses to be written behind it -/
  | writing (responses : ℕ)
  /-- handleClient has ended, the worker is scheduled -/
  | handled
  | ended
  | crashed (f : Fault)
deriving DecidableEq, Repr

structure Server where
  /-- `m_stop` -/
  stopped : Bool
  /-- `m_client_channel`; a stream is its descriptor -/
  channel : Option (Channel ℕ)
  /-- `m_tcpService`, and whether its `m_listen_fd` is not negative -/
  service : Option Bool
  start : StartPc
  workers : List WorkerPc
  /-- how often the conditions of the loops have been true -/
  turns : ℕ
deriving DecidableEq, Repr

/-- what start() finds in the provider -/
structure Config where
  /-- `m_zkHost` is not empty -/
  zk : Bool
  /-- `m_worker_count` -/
  workerCount : ℕ

/-- what a coroutine finds when it goes on; each place looks at what it needs -/
structure Awaited where
  ok : Bool
  throws : Bool
  accept4 : TcpService.Accept4
  /-- the timer of wait_for has expired -/
  timedOut : Bool
  /-- in what has been read -/
  requests : ℕ

def init : Server := ⟨true, none, none, .absent, [], 0⟩

/-- the WriterAwaiter is resumed -/
def StartPc.resumeWriter (ok : Bool) : StartPc → StartPc
  | .sending .waiting => .sending (.ended ok)
  | pc => pc

/-- the ReaderAwaiter is resumed -/
def WorkerPc.resumeReader (r : Received) : WorkerPc → WorkerPc
  | .receiving => .received r
  | pc => pc

namespace Server

def goTo (pc : StartPc) (s : Server) : Server := { s with start := pc }

def workerTo (i : ℕ) (pc : WorkerPc) (s : Server) : Server := { s with workers := s.workers.modify i fun _ => pc }

/-- `Channel::close` -/
def close (c : Channel ℕ) (s : Server) : Server :=
  if c.isActive then
    { s with
      channel := some { c.cleanup with isActive := false }
      start := if c.writers.isEmpty then s.start else s.start.resumeWriter false
      workers := s.workers.mapIdx fun i pc => if i ∈ c.readers then pc.resumeReader .cancelled else pc }
  else s

/-- behind the accept loop -/
def leaveLoop (s : Server) : Server :=
  match s.channel with
  | some c => (s.close c).goTo .ended
  | none => s.goTo (.crashed .null)

/-- the condition of the accept loop -/
def acceptLoop (s : Server) : Server :=
  if s.stopped then s.leaveLoop
  else
    match s.service with
    | some _ => { s with start := .accepting .called, turns := s.turns + 1 }
    | none => s.goTo (.crashed .null)

/-- the workers are scheduled -/
def serve (cfg : Config) (s : Server) : Server :=
  { s with workers := List.replicate cfg.workerCount .called }.acceptLoop

def resumeAccept (a : Awaited) (s : Server) : AcceptPc → Server
  | .called => s.goTo (.accepting .waitForCalled)
  | .waitForCalled => s.goTo (.accepting .innerCalled)
  | .innerCalled =>
    match s.service with
    | some listening => s.goTo (.accepting (if listening then .waiting else .innerEnded none))
    | none => s.goTo (.crashed .destroyed)
  | .waiting => s
  | .readable =>
    match s.service with
    | some _ =>
      match a.accept4 with
      | .fd client => s.goTo (.accepting (.innerEnded (some client)))
      | .again => s.goTo (.accepting .waiting)
      | .error _ => s.goTo (.accepting (.innerEnded none))
    | none => s.goTo (.crashed .destroyed)
  | .innerEnded client => s.goTo (.accepting (.waitForEnded client a.timedOut))
  | .waitForEnded client isTimeout =>
    if isTimeout then s.goTo (.accepted .timeoutException)
    else
      match client, s.service with
      | some client, _ => s.goTo (.accepted (.stream client))
      -- m_listen_fd tells which exception it is
      | none, some _ => s.goTo (.accepted .failed)
      | none, none => s.goTo (.crashed .destroyed)

/-- the section of `send`, and pushWriter right behind it if it has found the channel full -/
def put (x : Item ℕ) (c : Channel ℕ) : Channel ℕ × Channel.Put ℕ :=
  match c.send x with
  | (c', .full) => c'.pushWriter x
  | r => r

/-- `send` until it ends or waits -/
def send (client : ℕ) (c : Channel ℕ) (s : Server) : Server :=
  if c.isActive then
    match put ⟨0, client⟩ c with
    | (c', .handed r x) =>
      { s with
        channel := some c'
        start := .sending (.ended true)
        workers := s.workers.modify r (WorkerPc.resumeReader (.stream x.val)) }
    | (c', .queued) => { s with channel := some c', start := .sending .waiting }
    | (c', _) => { s with channel := some c', start := .sending (.ended true) }
  else s.goTo (.sending (.ended true))

def resumeStart (cfg : Config) (a : Awaited) (s : Server) : Server :=
  match s.start with
  | .startingService =>
    let s := { s with service := some a.ok }
    if cfg.zk then s.goTo .connecting else s.serve cfg
  | .connecting => if a.throws then s.goTo .ended else if a.ok then s.goTo .registering else s.serve cfg
  | .registering => if a.throws then s.goTo .ended else s.serve cfg
  | .accepting pc => s.resumeAccept a pc
  | .accepted .timeoutException => s.acceptLoop
  | .accepted .failed => s.leaveLoop
  | .accepted (.stream client) =>
    if s.stopped then s.leaveLoop
    else
      match s.channel with
      | some _ => s.goTo (.sending (.called client))
      | none => s.goTo (.crashed .null)
  | .sending (.called client) =>
    match s.channel with
    | some c => s.send client c
    | none => s.goTo (.crashed .destroyed)
  | .sending (.ended true) => s.acceptLoop
  | .sending (.ended false) => s.goTo .ended
  | .absent | .sending .waiting | .ended | .crashed _ => s

/-- the condition of the loop of a worker -/
def workerLoop (i : ℕ) (s : Server) : Server :=
  if s.stopped then s.workerTo i .ended
  else
    match s.channel with
    | some _ => { s.workerTo i .recvCalled with turns := s.turns + 1 }
    | none => s.workerTo i (.crashed .null)

/-- the condition of the loop of handleClient -/
def clientLoop (i : ℕ) (s : Server) : Server :=
  if s.stopped then s.workerTo i .handled else { s.workerTo i .reading with turns := s.turns + 1 }

/-- `recv` until it ends or waits; pushReader comes right behind a section that has found nothing -/
def recv (i : ℕ) (c : Channel ℕ) (s : Server) : Server :=
  match c.take with
  | some (c', taken) =>
    { s with
      channel := some c'
      start := if taken.writer.isSome then s.start.resumeWriter true else s.start }.workerTo i
      (.received (.stream taken.value.val))
  | none =>
    if c.isActive then { s with channel := some (c.enqueue i) }.workerTo i .receiving
    else s.workerTo i (.received .channelClosed)

def resumeWorker (i : ℕ) (a : Awaited) (s : Server) : Server :=
  match s.workers[i]? with
  | some .called => s.workerLoop i
  | some .recvCalled =>
    match s.channel with
    | some c => s.recv i c
    | none => s.workerTo i (.crashed .destroyed)
  | some (.received (.stream _)) => s.workerTo i .clientCalled
  | some (.received .channelClosed) => s.workerTo i .ended
  | some (.received .cancelled) => s.workerLoop i
  | some .clientCalled => s.clientLoop i
  | some .reading =>
    match a.ok, a.requests with
    | true, n + 1 => s.workerTo i (.writing n)
    | true, 0 => s.clientLoop i
    -- the peer has closed the connection, or an exception
    | false, _ => s.workerTo i .handled
  | some (.writing n) =>
    match a.ok, n with
    | true, n + 1 => s.workerTo i (.writing n)
    | true, 0 => s.clientLoop i
    | false, _ => s.workerTo i .handled
  | some .handled => s.workerLoop i
  | some .receiving | some .ended | some (.crashed _) | none => s

/-- nobody else runs while stop does -/
def stop (s : Server) : Server :=
  let s := { s with stopped := true }
  let s := match s.channel with
    | some c => { s.close c with channel := none }
    | none => s
  { s with service := none }

/-- a call of start() begins; another one returns at once -/
def begin (s : Server) : Server :=
  match s.start with
  | .absent => { s with stopped := false, channel := some (.make 100), start := .startingService }
  | _ => s

/-- epoll reports the listening socket, as long as it is open -/
def reportListening (s : Server) : Server :=
  match s.start, s.service with
  | .accepting .waiting, some true => s.goTo (.accepting .readable)
  | _, _ => s

end Server

inductive Label where
  | start
  | stop
  | listening
  /-- the loop goes on with start() or with the call that it awaits -/
  | resumeStart (a : Awaited)
  | resumeWorker (i : ℕ) (a : Awaited)

def step (cfg : Config) (s : Server) : Label → Server
  | .start => s.begin
  | .stop => s.stop
  | .listening => s.reportListening
  | .resumeStart a => s.resumeStart cfg a
  | .resumeWorker i a => s.resumeWorker i a

/-! ## Crashes -/

def StartPc.isCrashed : StartPc → Bool
  | .crashed _ => true
  | _ => false

def WorkerPc.isCrashed : WorkerPc → Bool
  | .crashed _ => true
  | _ => false

/-- start() is behind start_tcp_service -/
def StartPc.serves : StartPc → Bool
  | .connecting | .registering | .accepting _ | .accepted _ | .sending _ => true
  | _ => false

def Found (s : Server) : Prop := s.start.isCrashed = false ∧ ∀ pc ∈ s.workers, pc.isCrashed = false

def WorkerPc.safe : WorkerPc → Bool
  | .recvCalled | .crashed _ => false
  | _ => true

theorem WorkerPc.isCrashed_of_safe {pc : WorkerPc} (h : pc.safe = true) : pc.isCrashed = false := by
  cases pc <;> first | rfl | cases h

@[simp] theorem StartPc.isCrashed_resumeWriter (ok : Bool) (pc : StartPc) :
    (pc.resumeWriter ok).isCrashed = pc.isCrashed := by
  cases pc with
  | sending pc => cases pc <;> rfl
  | _ => rfl

@[simp] theorem StartPc.serves_resumeWriter (ok : Bool) (pc : StartPc) :
    (pc.resumeWriter ok).serves = pc.serves := by
  cases pc with
  | sending pc => cases pc <;> rfl
  | _ => rfl

@[simp] theorem StartPc.resumeWriter_eq_absent (ok : Bool) (pc : StartPc) :
    pc.resumeWriter ok = .absent ↔ pc = .absent := by
  cases pc with
  | sending pc => cases pc <;> simp [StartPc.resumeWriter]
  | _ => simp [StartPc.resumeWriter]

theorem StartPc.resumeWriter_ne_waiting (ok : Bool) (pc : StartPc) : pc.resumeWriter ok ≠ .sending .waiting := by
  cases pc with
  | sending pc => cases pc <;> simp [StartPc.resumeWriter]
  | _ => simp [StartPc.resumeWriter]

/-- nothing else changes where start() is -/
theorem StartPc.resumeWriter_of_ne (ok : Bool) {pc : StartPc} (h : pc ≠ .sending .waiting) :
    pc.resumeWriter ok = pc := by
  unfold StartPc.resumeWriter
  split
  · exact absurd rfl h
  · rfl

theorem WorkerPc.resumeReader_of_ne (r : Received) {pc : WorkerPc} (h : pc ≠ .receiving) : pc.resumeReader r = pc := by
  unfold WorkerPc.resumeReader
  split
  · exact absurd rfl h
  · rfl

theorem WorkerPc.safe_resumeReader (r : Received) {pc : WorkerPc} (h : pc.safe = true) :
    (pc.resumeReader r).safe = true := by
  cases pc <;> first | rfl | cases h

theorem WorkerPc.isCrashed_resumeReader (r : Received) {pc : WorkerPc} (h : pc.isCrashed = false) :
    (pc.resumeReader r).isCrashed = false := by
  cases pc <;> first | rfl | cases h

/-! ## What a worker can do -/

/-- a worker that is resumed looks at a condition, begins its recv, or only goes to its next await -/
inductive WorkerMove (s : Server) (i : ℕ) : Server → Prop where
  | stays : WorkerMove s i s
  | goes (pc : WorkerPc) (hpc : pc.safe = true) : WorkerMove s i (s.workerTo i pc)
  | worker : WorkerMove s i (s.workerLoop i)
  | client : WorkerMove s i (s.clientLoop i)
  | recv (c : Channel ℕ) (hi : s.workers[i]? = some .recvCalled) (hc : s.channel = some c) :
    WorkerMove s i (s.recv i c)
  | lost (hi : s.workers[i]? = some .recvCalled) (hc : s.channel = none) :
    WorkerMove s i (s.workerTo i (.crashed .destroyed))

theorem resumeWorker_move (s : Server) (i : ℕ) (a : Awaited) : WorkerMove s i (s.resumeWorker i a) := by
  unfold Server.resumeWorker
  split
  · exact .worker
  · next hi =>
    split
    · next c hc => exact .recv c hi hc
    · next hc => exact .lost hi hc
  · exact .goes _ rfl
  · exact .goes _ rfl
  · exact .worker
  · exact .client
  · split
    · exact .goes _ rfl
    · exact .client
    · exact .goes _ rfl
  · split
    · exact .goes _ rfl
    · exact .client
    · exact .goes _ rfl
  · exact .worker
  · exact .stays
  · exact .stays
  · exact .stays
  · exact .stays

section
variable {s s' : Server} {cfg : Config} {c : Channel ℕ} {i : ℕ} {a : Awaited}

/-! ## While nobody stops it -/

/-- between start() and a stop every pointer that is used is there -/
structure Alive (s : Server) : Prop where
  stopped : s.stopped = false
  channel : s.channel ≠ none
  service : s.start.serves = true → s.service ≠ none
  found : Found s

theorem Found.workerTo (h : Found s) {pc : WorkerPc} (hpc : pc.isCrashed = false) : Found (s.workerTo i pc) :=
  ⟨h.1, Table.forall_mem_modify h.2 fun _ _ _ => hpc⟩

namespace Alive

theorem goTo (h : Alive s) {pc : StartPc} (hpc : pc.isCrashed = false) (hs : pc.serves = true → s.service ≠ none) :
    Alive (s.goTo pc) :=
  ⟨h.stopped, h.channel, hs, hpc, h.found.2⟩

theorem workerTo (h : Alive s) {pc : WorkerPc} (hpc : pc.isCrashed = false) : Alive (s.workerTo i pc) :=
  ⟨h.stopped, h.channel, h.service, h.found.workerTo hpc⟩

theorem close (h : Alive s) (c : Channel ℕ) : Alive (s.close c) := by
  have hstart : ∀ b : Bool, (if b then s.start else s.start.resumeWriter false).serves = s.start.serves ∧
      (if b then s.start else s.start.resumeWriter false).isCrashed = s.start.isCrashed := by
    intro b
    cases b <;> simp
  unfold Server.close
  by_cases hactive : c.isActive = true
  · rw [if_pos hactive]
    refine ⟨h.stopped, by nofun, ?_, (hstart _).2.trans h.found.1, ?_⟩
    · intro hserves
      exact h.service ((hstart _).1.symm.trans hserves)
    · intro pc hpc
      obtain ⟨i, hi, rfl⟩ := List.mem_mapIdx.1 hpc
      have hold := h.found.2 _ (List.getElem_mem hi)
      split_ifs
      · exact WorkerPc.isCrashed_resumeReader _ hold
      · exact hold
  · rw [if_neg hactive]
    exact h

theorem leaveLoop (h : Alive s) : Alive s.leaveLoop := by
  obtain ⟨c, hc⟩ := Option.ne_none_iff_exists'.1 h.channel
  simp only [Server.leaveLoop, hc]
  exact (h.close c).goTo rfl (by nofun)

theorem acceptLoop (h : Alive s) (hs : s.service ≠ none) : Alive s.acceptLoop := by
  obtain ⟨listening, hl⟩ := Option.ne_none_iff_exists'.1 hs
  rw [Server.acceptLoop, if_neg (by rw [h.stopped]; exact Bool.false_ne_true)]
  simp only [hl]
  exact ⟨h.stopped, h.channel, fun _ => by nofun, rfl, h.found.2⟩

theorem serve (h : Alive s) (hs : s.service ≠ none) : Alive (s.serve cfg) := by
  refine acceptLoop ⟨h.stopped, h.channel, h.service, h.found.1, fun pc hpc => ?_⟩ hs
  rw [List.eq_of_mem_replicate hpc]
  rfl

theorem resumeAccept (h : Alive s) (hs : s.service ≠ none) (pc : AcceptPc) : Alive (s.resumeAccept a pc) := by
  have hgo : ∀ {pc : StartPc}, pc.isCrashed = false → Alive (s.goTo pc) := fun hpc => h.goTo hpc fun _ => hs
  obtain ⟨listening, hl⟩ := Option.ne_none_iff_exists'.1 hs
  cases pc with
  | called => exact hgo rfl
  | waitForCalled => exact hgo rfl
  | innerCalled =>
    simp only [Server.resumeAccept, hl]
    exact hgo rfl
  | waiting => exact h
  | readable =>
    simp only [Server.resumeAccept, hl]
    cases a.accept4 with
    | fd client => exact hgo rfl
    | again => exact hgo rfl
    | error errno => exact hgo rfl
  | innerEnded client => exact hgo rfl
  | waitForEnded client isTimeout =>
    simp only [Server.resumeAccept]
    split_ifs
    · exact hgo rfl
    · cases client with
      | some client => exact hgo rfl
      | none =>
        simp only [hl]
        exact hgo rfl

theorem send (h : Alive s) (hs : s.service ≠ none) (client : ℕ) (c : Channel ℕ) : Alive (s.send client c) := by
  unfold Server.send
  split_ifs
  · split
    · next r x _ =>
      refine ⟨h.stopped, by nofun, fun _ => hs, rfl, ?_⟩
      exact Table.forall_mem_modify h.found.2 fun _ _ hpc => WorkerPc.isCrashed_resumeReader _ hpc
    · exact ⟨h.stopped, by nofun, fun _ => hs, rfl, h.found.2⟩
    · exact ⟨h.stopped, by nofun, fun _ => hs, rfl, h.found.2⟩
  · exact h.goTo rfl fun _ => hs

theorem resumeStart (h : Alive s) : Alive (s.resumeStart cfg a) := by
  have hend : Alive (s.goTo .ended) := h.goTo rfl (by nofun)
  have hserves : ∀ {pc : StartPc}, s.start = pc → pc.serves = true → s.service ≠ none := by
    intro pc hpc hs
    exact h.service (hpc ▸ hs)
  unfold Server.resumeStart
  cases hpc : s.start with
  | absent => exact h
  | startingService =>
    have hnew : Alive { s with service := some a.ok, start := .startingService } :=
      ⟨h.stopped, h.channel, by nofun, rfl, h.found.2⟩
    dsimp only
    by_cases hzk : cfg.zk = true
    · rw [if_pos hzk]
      exact hnew.goTo rfl (by nofun)
    · rw [if_neg hzk]
      exact hnew.serve (by nofun)
  | connecting =>
    have hs := hserves hpc rfl
    dsimp only
    split_ifs
    · exact hend
    · exact h.goTo rfl fun _ => hs
    · exact h.serve hs
  | registering =>
    dsimp only
    split_ifs
    · exact hend
    · exact h.serve (hserves hpc rfl)
  | accepting pc => exact h.resumeAccept (hserves hpc rfl) pc
  | accepted r =>
    have hs := hserves hpc rfl
    cases r with
    | timeoutException => exact h.acceptLoop hs
    | failed => exact h.leaveLoop
    | stream client =>
      obtain ⟨c, hc⟩ := Option.ne_none_iff_exists'.1 h.channel
      simp only [h.stopped, hc]
      exact h.goTo rfl fun _ => hs
  | sending pc =>
    have hs := hserves hpc rfl
    cases pc with
    | called client =>
      obtain ⟨c, hc⟩ := Option.ne_none_iff_exists'.1 h.channel
      simp only [hc]
      exact h.send hs client c
    | waiting => exact h
    | ended ok =>
      cases ok with
      | true => exact h.acceptLoop hs
      | false => exact hend
  | ended => exact h
  | crashed f => exact h

theorem workerLoop (h : Alive s) : Alive (s.workerLoop i) := by
  obtain ⟨c, hc⟩ := Option.ne_none_iff_exists'.1 h.channel
  have hnew : Alive (s.workerTo i .recvCalled) := h.workerTo rfl
  simp only [Server.workerLoop, h.stopped, hc]
  exact ⟨hnew.stopped, hnew.channel, hnew.service, hnew.found⟩

theorem clientLoop (h : Alive s) : Alive (s.clientLoop i) := by
  have hnew : Alive (s.workerTo i .reading) := h.workerTo rfl
  simp only [Server.clientLoop, h.stopped]
  exact ⟨hnew.stopped, hnew.channel, hnew.service, hnew.found⟩

theorem recv (h : Alive s) (c : Channel ℕ) : Alive (s.recv i c) := by
  unfold Server.recv
  split
  · next c' taken _ =>
    refine workerTo (s := { s with channel := some c', start := _ }) ⟨h.stopped, by nofun, ?_, ?_, h.found.2⟩ rfl
    · dsimp only
      split_ifs
      · rw [StartPc.serves_resumeWriter]
        exact h.service
      · exact h.service
    · dsimp only
      split_ifs
      · rw [StartPc.isCrashed_resumeWriter]
        exact h.found.1
      · exact h.found.1
  · split_ifs
    · have hnew : Alive { s with channel := some (c.enqueue i) } := ⟨h.stopped, by nofun, h.service, h.found⟩
      exact hnew.workerTo rfl
    · exact h.workerTo rfl

theorem move (h : Alive s) (hm : WorkerMove s i s') : Alive s' := by
  cases hm with
  | stays => exact h
  | goes pc hpc => exact h.workerTo (WorkerPc.isCrashed_of_safe hpc)
  | worker => exact h.workerLoop
  | client => exact h.clientLoop
  | recv c _ _ => exact h.recv c
  | lost _ hc => exact absurd hc h.channel

theorem reportListening (h : Alive s) : Alive s.reportListening := by
  unfold Server.reportListening
  split
  · next hserv => exact h.goTo rfl fun _ => by rw [hserv]; nofun
  · exact h

theorem begin (h : Alive s) : Alive s.begin := by
  unfold Server.begin
  split
  · exact ⟨rfl, by nofun, by nofun, rfl, h.found.2⟩
  · exact h

theorem step (h : Alive s) {l : Label} (hl : l ≠ .stop) : Alive (step cfg s l) := by
  cases l with
  | start => exact h.begin
  | stop => exact absurd rfl hl
  | listening => exact h.reportListening
  | resumeStart a => exact h.resumeStart
  | resumeWorker i a => exact h.move (resumeWorker_move s i a)

end Alive

end

end Stopping

end MCoroRpc
