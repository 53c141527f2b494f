/-
One RpcChannel under interleaving (include/rpc/rpc_channel.inl): CallMethod, CallMethodAsync, workerLoop, reconnect and
close.

Coroutines change hands at their `co_await` only, and every `co_await` of a Task is a suspension: the child is scheduled,
and so is the parent at its end. A `Pc` is the `co_await` at which a coroutine stands. A label starts something, closes
the channel, or ends the await of one coroutine with an `Awaited`; the coroutine then runs to its next `co_await`.

`m_stream` is a pointer that is null or not: a stream is closed only where the pointer is reset. A coroutine that
dereferences null is `crashed`. `m_request_chan` is a `Channel`; a request is known by the number of its CallMethod.
The books say which requests CallMethod has put into the channel (`accepted`), whose callback has run and with what
(`ended`), and what `cleanup` has thrown away (`dropped`).

- `Move`, `resume_move`: all that a resumption can do.
- `start`, `step`: the machine.
-/
import MCoroRpc.Core.Machine
import MCoroRpc.Core.Table
import MCoroRpc.Coro.Channel
import MCoroRpc.Rpc.RpcChannel

namespace MCoroRpc

open TcpStream (Bytes)
open RpcDispatcher (ascii)

/-! ## Model -/

/-- how a request ends: what its controller is told before the callback runs -/
inductive Finish where
  | result
  | refused (code : ℤ) (info : Bytes)
  | failed (reason : Bytes)
deriving DecidableEq, Repr

/-- what workerLoop makes of the bytes it has read; it decodes the read buffer twice, and this is the second time -/
inductive Decoded where
  /-- an exception, the first time or the second, with its text if it is a `std::exception` -/
  | raised (what : Option Bytes)
  | nothing
  | unparsed
  | refused (code : ℤ) (info : Bytes)
  | parsed
deriving DecidableEq, Repr

/-- how an await ends -/
structure Awaited where
  /-- without an exception -/
  ok : Bool
  timedOut : Bool := false
  decoded : Decoded := .nothing
deriving DecidableEq, Repr

/-- an await that ends well -/
def awaited : Awaited := { ok := true }

/-- the `co_await` at which a coroutine stands -/
inductive Pc where
  /-- connect, behind its check -/
  | dialing
  /-- CallMethodAsync: its lambda has not started yet -/
  | opening
  | writing
  | reading
  /-- wait_for has ended, with or without an exception inside -/
  | answered (ok : Bool)
  /-- workerLoop, not started yet -/
  | entering
  /-- at `reconnect`, not started yet -/
  | reconnect
  | sleeping
  | connecting
  | reconnected
  /-- at `recv`, not started yet -/
  | asking
  /-- a reader of the channel -/
  | waiting
  /-- recv has ended, with a request or an exception -/
  | handed (r : Option ℕ)
  | sending (r : ℕ)
  | receiving (r : ℕ)
  | finished
  /-- m_stream was null -/
  | crashed (r : Option ℕ)
deriving DecidableEq, Repr

structure Connection where
  /-- m_stream is not null -/
  stream : Bool
  connected : Bool
  stopped : Bool
  retry : ℕ
  chan : Channel Unit
  coros : List Pc
  /-- the number of the next CallMethod -/
  next : ℕ
  accepted : List ℕ
  ended : List (ℕ × Finish)
  dropped : List ℕ
deriving DecidableEq, Repr

namespace Connection

inductive Label where
  | connect
  | callMethod (serializes : Bool)
  | callMethodAsync (serializes : Bool)
  | workerLoop
  | resume (i : ℕ) (a : Awaited)
  | close
deriving DecidableEq, Repr

/-- a new channel -/
def start : Connection := ⟨false, false, false, 0, Channel.make 100, [], 0, [], [], []⟩

def moveTo (i : ℕ) (pc : Pc) (s : Connection) : Connection := { s with coros := s.coros.modify i fun _ => pc }

/-- the callback of a request runs -/
def finish (r : ℕ) (f : Finish) (s : Connection) : Connection := { s with ended := s.ended ++ [(r, f)] }

/-- the readers of the channel wake up with an exception -/
def cancelReaders (s : Connection) : List Pc := Table.setAll (.handed none) s.chan.readers s.coros

/-- the head of workerLoop -/
def loopHead (s : Connection) : Pc :=
  if s.stopped then .finished
  else if s.connected then .asking
  else .reconnect

/-- the head of the loop of reconnect; `kMaxReconnectRetry` is 3 -/
def retryHead (i : ℕ) (s : Connection) : Connection :=
  if s.retry < 3 ∧ s.stopped = false then s.moveTo i .sleeping
  else { s with chan := s.chan.cancelAllAwaiters, coros := s.cancelReaders }.moveTo i .reconnected

/-- the body of `recv` -/
def recv (i : ℕ) (s : Connection) : Connection :=
  match s.chan.take with
  | some (c, t) => { s with chan := c }.moveTo i (.handed (some t.value.src))
  | none =>
    if s.chan.isActive then { s with chan := s.chan.enqueue i }.moveTo i .waiting
    else s.moveTo i (.handed none)

/-- the request of a round of workerLoop ends, and the next round begins -/
def roundEnds (i r : ℕ) (f : Finish) (s : Connection) : Connection := (s.finish r f).moveTo i s.loopHead

/-- behind a read that has ended in time -/
def decoded (i r : ℕ) (s : Connection) : Decoded → Connection
  | .raised (some what) => { s with connected := false }.roundEnds i r (.failed (ascii "rpc error: " ++ what))
  | .raised none => { s with connected := false }.roundEnds i r (.failed (ascii "unknown rpc error"))
  | .nothing => s.roundEnds i r (.failed (ascii "decode response failed"))
  | .unparsed => s.roundEnds i r (.failed (ascii "parse response failed"))
  | .refused code info => s.roundEnds i r (.refused code info)
  | .parsed => s.roundEnds i r .result

/-- the await at which the coroutine `i` stands has ended with `a` -/
def resume (i : ℕ) (a : Awaited) (s : Connection) : Connection :=
  match s.coros[i]? with
  | some .dialing =>
    if a.ok then { s with stream := true, connected := true, retry := 0 }.moveTo i .finished else s.moveTo i .finished
  | some .opening => s.moveTo i (if s.stream then .writing else .crashed none)
  | some .writing =>
    if a.ok then s.moveTo i (if s.stream then .reading else .crashed none) else s.moveTo i (.answered false)
  | some .reading => s.moveTo i (.answered a.ok)
  | some (.answered ok) =>
    if a.timedOut ∨ ok = false then s.moveTo i .finished
    else s.moveTo i (if s.stream then .finished else .crashed none)
  | some .entering => s.moveTo i s.loopHead
  | some .reconnect =>
    if s.stopped then s.moveTo i .reconnected
    else { s with connected := false, stream := false }.retryHead i
  | some .sleeping => s.moveTo i (if s.stopped then .reconnected else .connecting)
  | some .connecting =>
    if a.ok then { s with stream := true, connected := true, retry := 0 }.moveTo i .reconnected
    else { s with retry := s.retry + 1 }.retryHead i
  | some .reconnected => s.moveTo i (if s.connected then .asking else .finished)
  | some .asking => s.recv i
  | some (.handed none) => s.moveTo i .finished
  | some (.handed (some r)) =>
    if s.stream then s.moveTo i (.sending r) else s.roundEnds i r (.failed (ascii "connection closed"))
  | some (.sending r) =>
    if a.ok = false then { s with connected := false }.roundEnds i r (.failed (ascii "rpc write error"))
    else if a.timedOut then
      { s with connected := false, stream := false }.roundEnds i r
        (.failed (ascii "rpc write timeout, connection closed"))
    else s.moveTo i (if s.stream then .receiving r else .crashed (some r))
  | some (.receiving r) =>
    if a.ok = false then { s with connected := false }.roundEnds i r (.failed (ascii "rpc read error"))
    else if a.timedOut then
      { s with connected := false, stream := false }.roundEnds i r
        (.failed (ascii "rpc read timeout, connection closed"))
    else if s.stream then s.decoded i r a.decoded
    else s.moveTo i (.crashed (some r))
  | _ => s

def callMethod (serializes : Bool) (s : Connection) : Connection :=
  let r := s.next
  let s := { s with next := r + 1 }
  if s.connected = false then s.finish r (.failed (ascii "not connected"))
  else if serializes = false then s.finish r (.failed (ascii "serialize request failed"))
  else if s.chan.isActive = false then s.finish r (.failed (ascii "channel closed"))
  else
    match s.chan.sendSync ⟨r, ()⟩ with
    | (c, .handed w y) => { s with chan := c, accepted := s.accepted ++ [r] }.moveTo w (.handed (some y.src))
    | (_, .full) => s.finish r (.failed (ascii "channel closed"))
    | (c, _) => { s with chan := c, accepted := s.accepted ++ [r] }

def callMethodAsync (serializes : Bool) (s : Connection) : Connection :=
  { s with coros := s.coros ++ [if s.connected ∧ s.stream ∧ serializes then .opening else .finished] }

/-- the request channel is closed once -/
def close (s : Connection) : Connection :=
  let s :=
    if s.chan.isActive then
      { s with
        chan := { s.chan.cleanup with isActive := false }
        coros := s.cancelReaders
        dropped := s.dropped ++ s.chan.buffer.map Item.src }
    else s
  { s with stopped := true, stream := false, connected := false }

def step (s : Connection) : Label → Connection
  | .connect => { s with coros := s.coros ++ [if s.connected then .finished else .dialing] }
  | .callMethod serializes => s.callMethod serializes
  | .callMethodAsync serializes => s.callMethodAsync serializes
  | .workerLoop => { s with coros := s.coros ++ [.entering] }
  | .resume i a => s.resume i a
  | .close => s.close

end Connection

/-! ## What a resumption can do -/

namespace Pc

/-- the coroutine has found m_stream and will dereference it again, at its next resumption or behind it -/
def uses : Pc → Bool
  | .opening => true
  | .writing => true
  | .reading => true
  | .answered ok => ok
  | .sending _ => true
  | .receiving _ => true
  | _ => false

def isCrashed : Pc → Bool
  | .crashed _ => true
  | _ => false

/-- the request that the coroutine has in its hands -/
def held : Pc → Multiset ℕ
  | .handed (some r) => {r}
  | .sending r => {r}
  | .receiving r => {r}
  | .crashed (some r) => {r}
  | _ => 0

/-- neither in the middle of a request nor of a use of m_stream -/
def Rests (pc : Pc) : Prop := pc.uses = false ∧ pc.isCrashed = false ∧ pc.held = 0

end Pc

namespace Connection

/-- the step resets m_stream -/
def Resets (s : Connection) : Label → Prop
  | .close => True
  | .resume i a =>
    (∃ r, s.coros[i]? = some (.sending r) ∨ s.coros[i]? = some (.receiving r)) ∧ a.ok = true ∧ a.timedOut = true ∨
      s.coros[i]? = some .reconnect ∧ s.stopped = false
  | _ => False

/-- what the resumption of the coroutine `i`, which stands at `pc`, can do -/
inductive Move (s : Connection) (i : ℕ) (a : Awaited) (pc : Pc) : Connection → Prop where
  | idle : Move s i a pc s
  /-- it goes on with what it has in its hands -/
  | goes (hwait : pc ≠ .waiting) (pc' : Pc) (stream connected : Bool) (retry : ℕ) (hheld : pc'.held = pc.held)
      (huses : pc'.uses = true → stream = true ∨ pc.uses = true)
      (hcrash : pc'.isCrashed = true → s.stream = false ∧ pc.uses = true) (hstream : stream = false → s.stream = false) :
      Move s i a pc
        { s with coros := s.coros.modify i fun _ => pc', stream := stream, connected := connected, retry := retry }
  /-- the request in its hands ends -/
  | ends (r : ℕ) (f : Finish) (pc' : Pc) (stream connected : Bool) (hpc : pc.held = {r}) (hrests : pc'.Rests)
      (hstream : stream = false → s.stream = false ∨ Resets s (.resume i a)) :
      Move s i a pc
        { s with
          coros := s.coros.modify i fun _ => pc'
          stream := stream
          connected := connected
          ended := s.ended ++ [(r, f)] }
  | takes (hpc : pc = .asking) (c : Channel Unit) (t : Channel.Taken Unit) (htake : s.chan.take = some (c, t)) :
      Move s i a pc { s with chan := c, coros := s.coros.modify i fun _ => .handed (some t.value.src) }
  | blocks (hpc : pc = .asking) (htake : s.chan.take = none) (hactive : s.chan.isActive = true) :
      Move s i a pc { s with chan := s.chan.enqueue i, coros := s.coros.modify i fun _ => .waiting }
  /-- reconnect drops the stream and waits before it connects -/
  | retries (hpc : pc.Rests) (hwait : pc ≠ .waiting) (stream connected : Bool) (retry : ℕ)
      (hstream : stream = false → s.stream = false ∨ Resets s (.resume i a)) :
      Move s i a pc
        { s with coros := s.coros.modify i fun _ => .sleeping, stream := stream, connected := connected, retry := retry }
  /-- reconnect gives up -/
  | givesUp (hpc : pc.Rests) (hwait : pc ≠ .waiting) (stream connected : Bool) (retry : ℕ)
      (hstream : stream = false → s.stream = false ∨ Resets s (.resume i a)) :
      Move s i a pc
        { s with
          chan := s.chan.cancelAllAwaiters
          coros := s.cancelReaders.modify i fun _ => .reconnected
          stream := stream
          connected := connected
          retry := retry }

section
variable {s : Connection} {i : ℕ} {a : Awaited} {pc : Pc}

theorem loopHead_rests (s : Connection) : s.loopHead.Rests := by
  unfold loopHead
  split_ifs <;> exact ⟨rfl, rfl, rfl⟩

/-- nothing but where the coroutine stands -/
theorem moveTo_move (hwait : pc ≠ .waiting) (pc' : Pc) (hheld : pc'.held = pc.held)
    (huses : pc'.uses = true → s.stream = true ∨ pc.uses = true)
    (hcrash : pc'.isCrashed = true → s.stream = false ∧ pc.uses = true) : Move s i a pc (s.moveTo i pc') :=
  .goes hwait pc' s.stream s.connected s.retry hheld huses hcrash id

/-- a place at which m_stream is not looked at -/
theorem rest_move (hwait : pc ≠ .waiting) (pc' : Pc) (hheld : pc'.held = pc.held) (huses : pc'.uses = false)
    (hcrash : pc'.isCrashed = false) : Move s i a pc (s.moveTo i pc') :=
  moveTo_move hwait pc' hheld (fun h => by rw [huses] at h; cases h) (fun h => by rw [hcrash] at h; cases h)

/-- a dereference: the coroutine goes on, or m_stream was null -/
theorem deref_move (pc' : Pc) (r : Option ℕ) (hpc : pc.uses = true) (hheld : pc'.held = pc.held)
    (hcrash : pc'.isCrashed = false) (hr : (Pc.crashed r).held = pc.held) :
    Move s i a pc (s.moveTo i (if s.stream then pc' else .crashed r)) := by
  have hwait : pc ≠ .waiting := by
    rintro rfl
    cases hpc
  cases hs : s.stream with
  | true =>
    simp only [if_true]
    exact moveTo_move hwait pc' hheld (fun _ => .inl hs) (fun h => by rw [hcrash] at h; cases h)
  | false =>
    simp only [Bool.false_eq_true, if_false]
    exact moveTo_move hwait (.crashed r) hr (by nofun) (fun _ => ⟨hs, hpc⟩)

theorem roundEnds_move (r : ℕ) (f : Finish) (stream connected : Bool) (hpc : pc.held = {r})
    (hstream : stream = false → s.stream = false ∨ Resets s (.resume i a)) :
    Move s i a pc ({ s with stream := stream, connected := connected }.roundEnds i r f) :=
  .ends r f _ stream connected hpc (loopHead_rests _) hstream

theorem decoded_move (r : ℕ) (d : Decoded) (hpc : pc.held = {r}) : Move s i a pc (s.decoded i r d) := by
  cases d with
  | raised what =>
    cases what with
    | some what => exact roundEnds_move r _ s.stream false hpc .inl
    | none => exact roundEnds_move r _ s.stream false hpc .inl
  | nothing => exact roundEnds_move r _ s.stream s.connected hpc .inl
  | unparsed => exact roundEnds_move r _ s.stream s.connected hpc .inl
  | refused code info => exact roundEnds_move r _ s.stream s.connected hpc .inl
  | parsed => exact roundEnds_move r _ s.stream s.connected hpc .inl

theorem retryHead_move (stream connected : Bool) (retry : ℕ) (hpc : pc.Rests) (hwait : pc ≠ .waiting)
    (hstream : stream = false → s.stream = false ∨ Resets s (.resume i a)) :
    Move s i a pc ({ s with stream := stream, connected := connected, retry := retry }.retryHead i) := by
  unfold retryHead
  split_ifs
  · exact .retries hpc hwait stream connected retry hstream
  · exact .givesUp hpc hwait stream connected retry hstream

theorem recv_move (hpc : pc = .asking) : Move s i a pc (s.recv i) := by
  unfold recv
  cases htake : s.chan.take with
  | some p => exact .takes hpc p.1 p.2 htake
  | none =>
    dsimp only
    split_ifs with hactive
    · exact .blocks hpc htake hactive
    · subst hpc
      exact moveTo_move (by nofun) _ rfl (by nofun) (by nofun)

/-- CallMethodAsync behind its read -/
theorem resume_answered_move {ok : Bool} (hi : s.coros[i]? = some (.answered ok)) :
    Move s i a (.answered ok) (s.resume i a) := by
  simp only [resume, hi]
  cases ok with
  | false =>
    rw [if_pos (.inr rfl)]
    exact rest_move (by nofun) _ rfl rfl rfl
  | true =>
    by_cases ht : a.timedOut = true
    · rw [if_pos (.inl ht)]
      exact rest_move (by nofun) _ rfl rfl rfl
    · rw [if_neg (by simpa using ht)]
      exact deref_move .finished none rfl rfl rfl rfl

/-- workerLoop, which has a request or the end of the channel -/
theorem resume_handed_move {r : Option ℕ} (hi : s.coros[i]? = some (.handed r)) :
    Move s i a (.handed r) (s.resume i a) := by
  simp only [resume, hi]
  cases r with
  | none => exact rest_move (by nofun) _ rfl rfl rfl
  | some r =>
    dsimp only
    by_cases hs : s.stream = true
    · rw [if_pos hs]
      exact moveTo_move (by nofun) _ rfl (fun _ => .inl hs) (by nofun)
    · rw [if_neg hs]
      exact roundEnds_move r _ s.stream s.connected rfl .inl

/-- workerLoop behind its write -/
theorem resume_sending_move {r : ℕ} (hi : s.coros[i]? = some (.sending r)) : Move s i a (.sending r) (s.resume i a) := by
  simp only [resume, hi]
  by_cases hok : a.ok = false
  · rw [if_pos hok]
    exact roundEnds_move r _ s.stream false rfl .inl
  · rw [if_neg hok]
    by_cases ht : a.timedOut = true
    · rw [if_pos ht]
      exact roundEnds_move r _ false false rfl fun _ => .inr (.inl ⟨⟨r, .inl hi⟩, by simpa using hok, ht⟩)
    · rw [if_neg ht]
      exact deref_move (.receiving r) (some r) rfl rfl rfl rfl

/-- workerLoop behind its read -/
theorem resume_receiving_move {r : ℕ} (hi : s.coros[i]? = some (.receiving r)) :
    Move s i a (.receiving r) (s.resume i a) := by
  simp only [resume, hi]
  by_cases hok : a.ok = false
  · rw [if_pos hok]
    exact roundEnds_move r _ s.stream false rfl .inl
  · rw [if_neg hok]
    by_cases ht : a.timedOut = true
    · rw [if_pos ht]
      exact roundEnds_move r _ false false rfl fun _ => .inr (.inl ⟨⟨r, .inr hi⟩, by simpa using hok, ht⟩)
    · rw [if_neg ht]
      by_cases hs : s.stream = true
      · rw [if_pos hs]
        exact decoded_move r _ rfl
      · rw [if_neg hs]
        exact moveTo_move (by nofun) _ rfl (by nofun) (fun _ => ⟨by simpa using hs, rfl⟩)

/-- reconnect, from its start -/
theorem resume_reconnect_move (hi : s.coros[i]? = some .reconnect) : Move s i a .reconnect (s.resume i a) := by
  simp only [resume, hi]
  by_cases hs : s.stopped = true
  · rw [if_pos hs]
    exact moveTo_move (by nofun) _ rfl (by nofun) (by nofun)
  · rw [if_neg hs]
    have hresets : Resets s (.resume i a) := .inr ⟨hi, by simpa using hs⟩
    exact retryHead_move false false s.retry ⟨rfl, rfl, rfl⟩ (by nofun) fun _ => .inr hresets

/-- reconnect, from a connect that has ended -/
theorem resume_connecting_move (hi : s.coros[i]? = some .connecting) : Move s i a .connecting (s.resume i a) := by
  simp only [resume, hi]
  by_cases hok : a.ok = true
  · rw [if_pos hok]
    exact .goes (by nofun) _ true true 0 rfl (by nofun) (by nofun) (by nofun)
  · rw [if_neg hok]
    exact retryHead_move s.stream s.connected (s.retry + 1) ⟨rfl, rfl, rfl⟩ (by nofun) .inl

theorem resume_move (hi : s.coros[i]? = some pc) : Move s i a pc (s.resume i a) := by
  cases pc with
  | dialing =>
    simp only [resume, hi]
    split_ifs
    · exact .goes (by nofun) _ true true 0 rfl (by nofun) (by nofun) (by nofun)
    · exact rest_move (by nofun) _ rfl rfl rfl
  | opening =>
    simp only [resume, hi]
    exact deref_move .writing none rfl rfl rfl rfl
  | writing =>
    simp only [resume, hi]
    by_cases hok : a.ok = true
    · rw [if_pos hok]
      exact deref_move .reading none rfl rfl rfl rfl
    · rw [if_neg hok]
      exact rest_move (by nofun) _ rfl rfl rfl
  | reading =>
    simp only [resume, hi]
    exact moveTo_move (by nofun) _ (by cases a.ok <;> rfl) (fun _ => .inr rfl) (by nofun)
  | answered ok => exact resume_answered_move hi
  | entering =>
    simp only [resume, hi]
    have hrests := loopHead_rests s
    exact rest_move (by nofun) _ hrests.2.2 hrests.1 hrests.2.1
  | reconnect => exact resume_reconnect_move hi
  | sleeping =>
    simp only [resume, hi]
    cases s.stopped with
    | true => exact rest_move (by nofun) _ rfl rfl rfl
    | false => exact rest_move (by nofun) _ rfl rfl rfl
  | connecting => exact resume_connecting_move hi
  | reconnected =>
    simp only [resume, hi]
    cases s.connected with
    | true => exact rest_move (by nofun) _ rfl rfl rfl
    | false => exact rest_move (by nofun) _ rfl rfl rfl
  | asking =>
    simp only [resume, hi]
    exact recv_move rfl
  | waiting =>
    simp only [resume, hi]
    exact .idle
  | handed r => exact resume_handed_move hi
  | sending r => exact resume_sending_move hi
  | receiving r => exact resume_receiving_move hi
  | finished =>
    simp only [resume, hi]
    exact .idle
  | crashed r =>
    simp only [resume, hi]
    exact .idle

/-! ## What a call can do -/

/-- CallMethod fails, gives the request to a reader, or puts it into the buffer -/
inductive Call (s : Connection) : Connection → Prop where
  | fails (f : Finish) : Call s { s with next := s.next + 1, ended := s.ended ++ [(s.next, f)] }
  | handed (w : ℕ) (ws : List ℕ) (hactive : s.chan.isActive = true) (hreaders : s.chan.readers = w :: ws) :
      Call s
        { s with
          next := s.next + 1
          chan := { s.chan with readers := ws }
          coros := s.coros.modify w fun _ => .handed (some s.next)
          accepted := s.accepted ++ [s.next] }
  | queued (hactive : s.chan.isActive = true) (hreaders : s.chan.readers = []) :
      Call s
        { s with
          next := s.next + 1
          chan := { s.chan with buffer := s.chan.buffer ++ [⟨s.next, ()⟩] }
          accepted := s.accepted ++ [s.next] }

theorem callMethod_call (s : Connection) (serializes : Bool) : Call s (s.callMethod serializes) := by
  unfold callMethod
  dsimp only
  split_ifs with hconnected hserial hclosed
  · exact .fails _
  · exact .fails _
  · exact .fails _
  · have hactive : s.chan.isActive = true := by simpa using hclosed
    rw [Channel.sendSync_eq]
    cases hr : s.chan.readers with
    | cons w ws =>
      rw [Channel.send_handed hr]
      exact .handed w ws hactive hr
    | nil =>
      rcases lt_or_ge s.chan.buffer.length s.chan.capacity with hlt | hle
      · rw [Channel.send_buffered hr hlt]
        exact .queued hactive hr
      · rw [Channel.send_full hr hle]
        exact .fails _

/-! ## The waiting workers -/

/-- no request waits for room, and the readers of the channel are waiting coroutines -/
structure Linked (s : Connection) : Prop where
  writers : s.chan.writers = []
  nodup : s.chan.readers.Nodup
  waits : ∀ w ∈ s.chan.readers, s.coros[w]? = some .waiting

namespace Linked

variable {w : ℕ} {ws : List ℕ}

/-- a coroutine that does not wait is no reader -/
theorem not_mem (h : Linked s) (hi : s.coros[i]? = some pc) (hwait : pc ≠ .waiting) : i ∉ s.chan.readers := by
  intro hmem
  have heq := (h.waits i hmem).symm.trans hi
  exact hwait (Option.some.inj heq).symm

theorem set_waits (h : Linked s) (hi : i ∉ s.chan.readers) (pc' : Pc) :
    ∀ w ∈ s.chan.readers, (s.coros.modify i fun _ => pc')[w]? = some .waiting := by
  intro w hw
  have hne : i ≠ w := by
    rintro rfl
    exact hi hw
  rw [List.getElem?_modify_ne _ _ hne]
  exact h.waits w hw

theorem append_waits (h : Linked s) (pc' : Pc) : ∀ w ∈ s.chan.readers, (s.coros ++ [pc'])[w]? = some .waiting := by
  intro w hw
  have hlt : w < s.coros.length := (List.getElem?_eq_some_iff.1 (h.waits w hw)).1
  rw [List.getElem?_append_left hlt]
  exact h.waits w hw

/-- what recv takes is the front of the buffer -/
theorem take_eq (h : Linked s) {c : Channel Unit} {t : Channel.Taken Unit} (htake : s.chan.take = some (c, t)) :
    ∃ xs, s.chan.buffer = t.value :: xs ∧ c = { s.chan with buffer := xs } := by
  cases hb : s.chan.buffer with
  | nil =>
    rw [Channel.take_none h.writers hb] at htake
    cases htake
  | cons x xs =>
    rw [Channel.take_buffer h.writers hb] at htake
    cases htake
    exact ⟨xs, rfl, rfl⟩

theorem move (h : Linked s) (hi : s.coros[i]? = some pc) {s' : Connection} (hm : Move s i a pc s') : Linked s' := by
  cases hm with
  | idle => exact h
  | goes hwait pc' => exact ⟨h.writers, h.nodup, h.set_waits (h.not_mem hi hwait) pc'⟩
  | ends r f pc' _ _ hpc =>
    have hwait : pc ≠ .waiting := by
      rintro rfl
      exact Multiset.singleton_ne_zero r hpc.symm
    exact ⟨h.writers, h.nodup, h.set_waits (h.not_mem hi hwait) pc'⟩
  | takes hpc c t htake =>
    obtain ⟨xs, _, rfl⟩ := h.take_eq htake
    subst hpc
    exact ⟨h.writers, h.nodup, h.set_waits (h.not_mem hi (by nofun)) _⟩
  | blocks hpc htake =>
    subst hpc
    have hnew := h.not_mem hi (by nofun)
    refine ⟨h.writers, List.nodup_append.2 ⟨h.nodup, List.nodup_singleton i, ?_⟩, ?_⟩
    · intro w hw j hj
      rw [List.mem_singleton.1 hj]
      exact ne_of_mem_of_not_mem hw hnew
    · intro w hw
      rcases List.mem_append.1 hw with hw | hw
      · exact h.set_waits hnew _ w hw
      · rw [List.mem_singleton.1 hw, List.getElem?_modify_eq, hi]
        rfl
  | retries hpc hwait => exact ⟨h.writers, h.nodup, h.set_waits (h.not_mem hi hwait) _⟩
  | givesUp => exact ⟨rfl, List.nodup_nil, fun _ hw => absurd hw List.not_mem_nil⟩

/-- a step of `i` leaves the others where they are, but for the readers -/
theorem move_frame (h : Linked s) {s' : Connection} (hm : Move s i a pc s') {j : ℕ} {pcj : Pc} (hij : j ≠ i)
    (hj : s.coros[j]? = some pcj) (hwait : pcj ≠ .waiting) : s'.coros[j]? = some pcj := by
  have hset : ∀ pc', (s.coros.modify i fun _ => pc')[j]? = some pcj := by
    intro pc'
    rw [List.getElem?_modify_ne _ _ hij.symm]
    exact hj
  cases hm with
  | idle => exact hj
  | goes _ pc' => exact hset pc'
  | ends _ _ pc' => exact hset pc'
  | takes => exact hset _
  | blocks => exact hset _
  | retries => exact hset _
  | givesUp =>
    have hframe : s.cancelReaders[j]? = s.coros[j]? := Table.getElem?_setAll_of_not_mem (h.not_mem hj hwait)
    exact (List.getElem?_modify_ne _ _ hij.symm).trans (hframe.trans hj)

theorem call (h : Linked s) {s' : Connection} (hc : Call s s') : Linked s' := by
  cases hc with
  | fails f => exact ⟨h.writers, h.nodup, h.waits⟩
  | handed w ws _ hreaders =>
    have hnodup := h.nodup
    rw [hreaders, List.nodup_cons] at hnodup
    refine ⟨h.writers, hnodup.2, ?_⟩
    intro v hv
    have hne : w ≠ v := by
      rintro rfl
      exact hnodup.1 hv
    have hmem : v ∈ s.chan.readers := by
      rw [hreaders]
      exact List.mem_cons_of_mem w hv
    exact (List.getElem?_modify_ne _ _ hne).trans (h.waits v hmem)
  | queued => exact ⟨h.writers, h.nodup, h.waits⟩

theorem close (h : Linked s) : Linked s.close := by
  unfold Connection.close
  split_ifs
  · exact ⟨rfl, List.nodup_nil, fun _ hw => absurd hw List.not_mem_nil⟩
  · exact ⟨h.writers, h.nodup, h.waits⟩

end Linked

theorem resume_none (hi : s.coros[i]? = none) : s.resume i a = s := by
  simp only [resume, hi]

theorem step_linked (h : Linked s) (l : Label) : Linked (s.step l) := by
  cases l with
  | connect => exact ⟨h.writers, h.nodup, h.append_waits _⟩
  | callMethod serializes => exact h.call (callMethod_call s serializes)
  | callMethodAsync serializes => exact ⟨h.writers, h.nodup, h.append_waits _⟩
  | workerLoop => exact ⟨h.writers, h.nodup, h.append_waits _⟩
  | resume i a =>
    simp only [step]
    cases hi : s.coros[i]? with
    | none =>
      rw [resume_none hi]
      exact h
    | some pc => exact h.move hi (resume_move hi)
  | close => exact h.close

theorem start_linked : Linked start := ⟨rfl, List.nodup_nil, fun _ hw => absurd hw List.not_mem_nil⟩

end

end Connection

end MCoroRpc
