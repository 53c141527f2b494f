/-
A client and a server on one connection (RpcChannel::CallMethodAsync in include/rpc/rpc_channel.inl against
RpcProvider::handleClient in src/rpc_provider.cc).

Both sides are the coroutines of `RpcChannel` and `RpcProvider`; what is under way to one side is its `incoming`, and
nothing else joins them. A caller makes its calls one after another: a call writes its frame, then waits for what its
reads bring. Reads of the client, turns of the server and the timer come in any order; a write is one step.

- `told`, `handled`: what a caller is told, and which handlers run, if a request is dispatched where it is made.
- `Orderly`: the request is written whole and its response can be read back, a read that ends has taken all that is under
  way, and no timer fires during a call.
- `remote_is_local`: in every run of orderly steps the calls that have ended are the calls made, in their order, but for
  the one that waits; each has been told what it would have been told locally; and the handlers have run as they would
  have run locally, once for each call.
- `pending_answered`: from the end of every such run the call that waits can be answered by further orderly steps, if its
  frames fit what is free of a read buffer between two reads.
- `requests_answered`: any list of requests that can be carried is answered in some orderly run.
-/
import MCoroRpc.Core.Machine
import MCoroRpc.Rpc.Completion
import MCoroRpc.Rpc.Replies

namespace MCoroRpc

open CInt TcpBuffer TcpStream TinyPB Result

namespace RemoteCall

open RpcChannel (Client Completed complete ioError protocolOf receive respond)
open RpcProvider (Session Readable Deliverable handleClient reply)
open RpcDispatcher

/-! ## Model -/

/-- what the caller gives to CallMethodAsync -/
structure Request where
  methodName : Bytes
  /-- `SerializeToString` of the request -/
  request : Option Bytes
  controller : RpcController
  /-- a callback is given -/
  done : Bool
deriving DecidableEq, Repr

/-- the call of a request: its answer and its arrivals are up to the connection -/
def Request.call (r : Request) (expired : Bool) : RpcChannel.Call where
  methodName := r.methodName
  request := r.request
  controller := r.controller
  done := r.done
  written := true
  answer := {}
  arrivals := []
  expired := expired

/-- how the write of a request ends -/
inductive Write where
  | whole
  /-- it throws behind `k` bytes; has the timer fired? -/
  | fails (k : ℕ) (expired : Bool)
deriving DecidableEq, Repr

structure System where
  client : Client
  /-- the call that waits for its answer, and whether its timer has fired -/
  pending : Option (Request × Bool)
  server : Session
  /-- the calls made so far -/
  made : List Request
deriving DecidableEq, Repr

inductive Label where
  | call (r : Request) (w : Write)
  /-- what the `recv` calls of the client's next read meet -/
  | clientReads (os : List Recv)
  /-- what the `recv` calls of the server's next read meet -/
  | serverTurn (os : List Recv)
  | expire
deriving DecidableEq, Repr

/-- a new connection -/
def start : System := ⟨RpcChannel.connect, none, RpcProvider.accept [], []⟩

namespace System

/-- the call ends without a message -/
def fails (r : Request) (expired : Bool) (incoming : Bytes) (b : TcpBuffer) (ctrl : RpcController) (s : System) :
    System :=
  { s with client := complete s.client (r.call expired) incoming b ctrl none, pending := none }

/-- the bytes of a request are written -/
def write (r : Request) (data : Bytes) (s : System) : Write → System
  | .whole =>
    { s with pending := some (r, false), server := { s.server with incoming := s.server.incoming ++ data } }
  | .fails k expired =>
    { s with server := { s.server with incoming := s.server.incoming ++ data.take k } }.fails r expired
      s.client.incoming s.client.buffer (ioError (r.call expired))

/-- the request has been encoded -/
def send (r : Request) (w : Write) (s : System) : Except Fault (List TinyPBProtocol × TcpBuffer) → System
  | .error _ => { s with client := { s.client with status := .fault } }
  | .ok (_, outBuf) => s.write r (outBuf.bytes outBuf.readIndex outBuf.readAble) w

def callMethodAsync (r : Request) (w : Write) (s : System) : System :=
  if s.client.status = .ready ∧ s.pending = none then
    let s := { s with made := s.made ++ [r] }
    match r.request with
    | none =>
      s.fails r false s.client.incoming s.client.buffer (r.controller.setFailed (ascii "serialize request failed"))
    | some pbData => s.send r w (encode [protocolOf (r.call false) pbData] (make 1024))
  else s

/-- readToBuffer of the call that waits, and what is behind it -/
def clientReads (fuel : ℕ) (os : List Recv) (s : System) : System :=
  match s.pending with
  | none => s
  | some (r, expired) =>
    match readToBuffer os 0 s.client.incoming s.client.buffer with
    | .error _ => { s with client := { s.client with status := .fault }, pending := none }
    | .ok (.waiting, incoming, b) => { s with client := { s.client with incoming := incoming, buffer := b } }
    | .ok (.failed, incoming, b) => s.fails r expired incoming b (ioError (r.call expired))
    | .ok (.done _, incoming, b) =>
      { s with client := receive fuel s.client (r.call expired) incoming b, pending := none }

end System

section
variable {Msg : Type} (services : Services Msg)

/-- a turn of handleClient: what it writes is under way to the client -/
def System.serverTurn (fuel : ℕ) (os : List Recv) (s : System) : System :=
  let t := handleClient services fuel s.server os
  { s with
    server := t
    client := { s.client with incoming := s.client.incoming ++ t.written.drop s.server.written.length } }

def step (fuel : ℕ) (s : System) : Label → System
  | .call r w => s.callMethodAsync r w
  | .clientReads os => s.clientReads fuel os
  | .serverTurn os => s.serverTurn services fuel os
  | .expire => { s with pending := s.pending.map fun p => (p.1, true) }

/-! ## What the connection is for -/

/-- how a call ends if its request is dispatched where it is made -/
def told (r : Request) : Completed :=
  match r.request with
  | none => ⟨r.controller.setFailed (ascii "serialize request failed"), none, if r.done then 1 else 0, {}⟩
  | some pbData =>
    let rsp := reply services (protocolOf (r.call false) pbData)
    if rsp.errCode ≠ 0 then
      ⟨{ r.controller with failed := true, errorText := rsp.errInfo, errorCode := rsp.errCode, finished := true }, none,
        if r.done then 1 else 0, {}⟩
    else ⟨{ r.controller with finished := true }, some rsp.pbData, if r.done then 1 else 0, {}⟩

/-- the handlers that run for a message -/
def invoked (m : TinyPBProtocol) : List (Bytes × Bytes × Msg) := (dispatch services m {} {}).invoked

/-- the handlers that run if a request is dispatched where it is made -/
def handled (r : Request) : List (Bytes × Bytes × Msg) :=
  match r.request with
  | none => []
  | some pbData => invoked services (protocolOf (r.call false) pbData)

/-! ## Orderly steps -/

/-- the request can be encoded and decoded, and so can its response -/
structure Carried (m : TinyPBProtocol) : Prop where
  deliverable : Deliverable m
  length : frameLen (withId m) < 2147483648
  readable : Readable services (sent m)

/-- a read that ends has taken all that is under way, and something -/
def TakesAll (os : List Recv) (incoming : Bytes) (b : TcpBuffer) : Prop :=
  ∀ e incoming' b', readToBuffer os 0 incoming b = .ok (e, incoming', b') →
    e = .waiting ∨ incoming' = [] ∧ ∃ n, 0 < n ∧ e = .done n

def Orderly (s : System) : Label → Prop
  | .call r w =>
    ∀ pbData, r.request = some pbData → w = .whole ∧ Carried services (protocolOf (r.call false) pbData)
  | .clientReads os => s.pending ≠ none → TakesAll os s.client.incoming s.client.buffer
  | .serverTurn os => TakesAll os s.server.incoming s.server.buffer
  | .expire => s.pending = none

/-- the calls made are those that have ended and the one that waits; the handlers have run for them -/
structure AsIfLocal (s : System) : Prop where
  calls : ∃ ended, s.client.calls = ended.map (told services) ∧ s.made = ended ++ (s.pending.map Prod.fst).toList ∧
    ∃ begun, ended <+: begun ∧ begun <+: s.made ∧
      s.server.requests.flatMap (invoked services) = begun.flatMap (handled services)
  client : s.client.status = .ready
  server : s.server.status = .running

/-! ## Messages -/

variable {services} {m m' : TinyPBProtocol}

/-- dispatch looks at the name and the payload of its request -/
theorem dispatch_same (services : Services Msg) (hname : m.methodName = m'.methodName) (hdata : m.pbData = m'.pbData) :
    (reply services m).errCode = (reply services m').errCode ∧ (reply services m).errInfo = (reply services m').errInfo ∧
      (reply services m).pbData = (reply services m').pbData ∧ invoked services m = invoked services m' := by
  simp only [reply, invoked, dispatch, hname, hdata]
  cases parseServiceFullName m'.methodName with
  | none => exact ⟨rfl, rfl, rfl, rfl⟩
  | some p =>
    dsimp only
    cases services.lookup p.1 with
    | none => exact ⟨rfl, rfl, rfl, rfl⟩
    | some service =>
      dsimp only
      cases service.findMethodByName p.2 with
      | none => exact ⟨rfl, rfl, rfl, rfl⟩
      | some method =>
        dsimp only
        cases method.parse m'.pbData with
        | none => exact ⟨rfl, rfl, rfl, rfl⟩
        | some req =>
          dsimp only
          cases method.serialize (method.call req) with
          | none => exact ⟨rfl, rfl, rfl, rfl⟩
          | some pbData => exact ⟨rfl, rfl, rfl, rfl⟩

theorem sent_call (m : TinyPBProtocol) : (sent m).methodName = m.methodName ∧ (sent m).pbData = m.pbData ∧
    (sent m).errInfo = m.errInfo ∧ (sent m).errCode = m.errCode := by
  simp only [sent, withId]
  split_ifs <;> exact ⟨rfl, rfl, rfl, rfl⟩

/-- on its way a request keeps what dispatch looks at, and its response what the caller looks at -/
theorem carried_same (services : Services Msg) (m : TinyPBProtocol) :
    (sent (reply services (sent m))).errCode = (reply services m).errCode ∧
      (sent (reply services (sent m))).errInfo = (reply services m).errInfo ∧
      (sent (reply services (sent m))).pbData = (reply services m).pbData ∧
      invoked services (sent m) = invoked services m := by
  obtain ⟨hname, hdata, -, -⟩ := sent_call m
  obtain ⟨h1, h2, h3, h4⟩ := dispatch_same services hname hdata
  obtain ⟨-, h5, h6, h7⟩ := sent_call (reply services (sent m))
  exact ⟨h7.trans h1, h6.trans h2, h5.trans h3, h4⟩

namespace Carried

variable (h : Carried services m)
include h

theorem limits (h0 : m.errInfo = []) (h1 : m.errCode = 0) : WithinLimits m :=
  ⟨h.deliverable.msgId, h.deliverable.methodName, by rw [h0]; decide, h.deliverable.msgIdNul,
    h.deliverable.methodNameNul, by rw [h0]; exact List.not_mem_nil, by rw [h1]; decide⟩

theorem sent_deliverable : Deliverable (sent m) := by
  have hd := h.deliverable
  refine ⟨?_, by rw [(sent_call m).1]; exact hd.methodName, ?_, by rw [(sent_call m).1]; exact hd.methodNameNul⟩
  · rw [RpcProvider.sent_msgId, withId]
    split_ifs
    · exact (by decide : defaultMsgId.length < 100)
    · exact hd.msgId
  · rw [RpcProvider.sent_msgId, withId]
    split_ifs
    · exact (by decide : 0 ∉ defaultMsgId)
    · exact hd.msgIdNul

/-- the response can be decoded and fits its buffer -/
theorem reply_limits : WithinLimits (reply services (sent m)) ∧
    frameLen (withId (reply services (sent m))) < 2147483648 := by
  obtain ⟨hid, hinfo, hlen⟩ := (RpcProvider.reply_fits_iff h.sent_deliverable).2 h.readable
  exact ⟨(RpcProvider.reply_plain h.sent_deliverable).withinLimits hinfo, by rwa [withId_of_ne hid]⟩

/-- the frame that a caller writes -/
theorem encoded : ∃ ms b, encode [m] (make 1024) = .ok (ms, b) ∧ b.bytes b.readIndex b.readAble = wire [m] := by
  have hlen : (wire [m]).length < 2147483648 := by
    simpa using h.length
  obtain ⟨b, pre, post, hok, hl, -⟩ := encode_layout (make_layout 1024) hlen
  exact ⟨_, b, hok, hl.content_eq⟩

end Carried

/-! ## Reads -/

/-- between two reads nothing is left in a buffer, and what has been read is in its first third -/
structure Empty (b : TcpBuffer) : Prop where
  layout : ∃ pre post, Layout b pre [] post
  size : b.size = 65536
  front : b.readIndex < b.size / 3

theorem make_empty : Empty (make 65536) := by
  refine ⟨⟨[], _, make_layout 65536⟩, make_size 65536, ?_⟩
  rw [make_size]
  decide

/-- two thirds of the buffer are free -/
theorem Empty.writeAble {b : TcpBuffer} (h : Empty b) : 43692 ≤ b.writeAble := by
  obtain ⟨pre, post, hl⟩ := h.layout
  have hfront := h.front
  rw [hl.read, h.size] at hfront
  rw [TcpBuffer.writeAble, h.size, hl.write, List.length_nil]
  omega

/-- the read index moved over one frame, the last one -/
theorem moveReadIndex_empty {b b' : TcpBuffer} {pre x post : Bytes} (h : Layout b pre x post) (hsize : b.size = 65536)
    (hmove : b.moveReadIndex x.length = .ok b') : Empty b' := by
  have hl : Layout b pre (x ++ []) post := by rwa [List.append_nil]
  rcases moveReadIndex_cases hl with ⟨hlt, b₁, hb₁, hl₁, hs₁⟩ | ⟨-, b₁, post₁, hb₁, hl₁, hs₁⟩
  · obtain rfl := Except.ok.inj (hb₁.symm.trans hmove)
    refine ⟨⟨_, _, hl₁⟩, hs₁.trans hsize, ?_⟩
    rw [hl₁.read, hs₁, List.length_append]
    exact hlt
  · obtain rfl := Except.ok.inj (hb₁.symm.trans hmove)
    refine ⟨⟨_, _, hl₁⟩, hs₁.trans hsize, ?_⟩
    rw [hl₁.read, hs₁, hsize]
    decide

/-- one frame in a buffer: its message is decoded, and nothing is left -/
theorem decodes_one {b : TcpBuffer} {pre post : Bytes} (hm : WithinLimits m) (hl : Layout b pre (wire [m]) post)
    (hsize : b.size = 65536) : ∃ b', Decodes [] b (.ok ([sent m], b')) ∧ Empty b' := by
  have hms : ∀ x ∈ [m], WithinLimits x := by
    intro x hx
    rw [List.mem_singleton.1 hx]
    exact hm
  have hl' : Layout b pre (wire [m] ++ []) post := by rwa [List.append_nil]
  have hfits := positionsFit_of_layout hl (by rw [hsize]; norm_num)
  obtain ⟨b', pre', post', hreach, hskip, hl₁, hpre, -⟩ := reach_wire [] .storage hms hl' hfits
  refine ⟨b', (Loop.ends_reach hreach).2 (Loop.ends_of_return (decodeTurn_nil _ .storage hl₁ hpre)), ?_⟩
  apply moveReadIndex_empty hl hsize
  rw [wire_length]
  simp only [lens_cons, lens_nil, skip, List.sum_cons, List.sum_nil, Nat.add_zero] at hskip ⊢
  obtain ⟨b₁, hmove, hdone⟩ := bind_eq_ok.1 hskip
  rw [hmove, hdone]

/-- a read that waits has changed nothing -/
theorem readToBuffer_waits {os : List Recv} {incoming incoming' : Bytes} {b b' : TcpBuffer} {pre c post : Bytes}
    (hl : Layout b pre c post) (hroom : b.writeAble ≠ 0)
    (hread : readToBuffer os 0 incoming b = .ok (.waiting, incoming', b')) : incoming' = incoming ∧ b' = b := by
  have hmake : makeRoom b = .ok b := by rw [makeRoom, if_neg hroom]
  induction os with
  | nil =>
    simp only [readToBuffer, lt_irrefl, if_false, Except.ok.injEq, Prod.mk.injEq, true_and] at hread
    exact ⟨hread.1.symm, hread.2.symm⟩
  | cons o os ih =>
    rcases readToBuffer_cons o os 0 incoming hmake with ⟨-, ⟨e, he, -, hcall⟩ | hcall⟩ | ⟨x, bs, hr, hcall⟩
    · rw [hcall] at hread
      cases hread
      exact absurd rfl he
    · exact ih (hcall ▸ hread)
    · -- behind the first byte the read returns
      have h0 : 0 ≤ b.writeAble := by
        rw [TcpBuffer.writeAble, hl.size_eq, hl.write]
        omega
      obtain ⟨b₂, pre₂, post₂, hinto, hl₂, -⟩ := recvInto_layout hl (recv_bytes h0 hr).2
      obtain ⟨e, got, incoming₃, b₃, pre₃, post₃, hrest, -, -, -, -, hwait⟩ :=
        readToBuffer_layout os (0 + (x :: bs).length) (incoming.drop (x :: bs).length) hl₂
      rw [hcall, hinto, ok_bind, hrest] at hread
      cases hread
      have hzero := (hwait rfl).1
      rw [List.length_cons] at hzero
      omega

/-- a read into an empty buffer waits and changes nothing, or takes all -/
theorem takesAll_cases {os : List Recv} {incoming : Bytes} {b : TcpBuffer} (hb : Empty b)
    (ht : TakesAll os incoming b) :
    readToBuffer os 0 incoming b = .ok (.waiting, incoming, b) ∨
      ∃ n b' pre post, readToBuffer os 0 incoming b = .ok (.done n, [], b') ∧ incoming ≠ [] ∧
        Layout b' pre incoming post ∧ b'.size = 65536 := by
  obtain ⟨pre, post, hl⟩ := hb.layout
  obtain ⟨e, got, incoming', b', pre', post', hread, hgot, hl', hsize, htotal, -⟩ :=
    readToBuffer_layout os 0 incoming hl
  rw [List.nil_append] at hl'
  rcases ht e incoming' b' hread with rfl | ⟨rfl, n, hn, rfl⟩
  · left
    have hfree := hb.writeAble
    obtain ⟨rfl, rfl⟩ := readToBuffer_waits hl (by omega) hread
    exact hread
  · right
    rw [List.append_nil] at hgot
    subst hgot
    refine ⟨n, b', pre', post', hread, ?_, hl', by rw [hsize (by rw [hb.size]; norm_num), hb.size]⟩
    rintro rfl
    have hzero := htotal n rfl
    rw [List.length_nil] at hzero
    omega

/-- with nothing under way a read waits -/
theorem takesAll_nil {os : List Recv} {b : TcpBuffer} (hb : Empty b) (ht : TakesAll os [] b) :
    readToBuffer os 0 [] b = .ok (.waiting, [], b) := by
  rcases takesAll_cases hb ht with h | ⟨_, _, _, _, _, hne, _⟩
  · exact h
  · exact absurd rfl hne

/-! ## The invariant -/

/-- the messages of the requests that have been serialised -/
def messages (rs : List Request) : List TinyPBProtocol :=
  rs.filterMap fun r => r.request.map fun pbData => sent (protocolOf (r.call false) pbData)

/-- where the call is that has been made last -/
inductive Phase (services : Services Msg) (s : System) (ended : List Request) : Prop where
  | idle (pending : s.pending = none) (made : s.made = ended) (request : s.server.incoming = [])
      (response : s.client.incoming = []) (decoded : s.server.requests = messages ended)
  | requested (r : Request) (pbData : Bytes) (pending : s.pending = some (r, false)) (made : s.made = ended ++ [r])
      (serialized : r.request = some pbData) (carried : Carried services (protocolOf (r.call false) pbData))
      (request : s.server.incoming = wire [protocolOf (r.call false) pbData]) (response : s.client.incoming = [])
      (decoded : s.server.requests = messages ended)
  | replied (r : Request) (pbData : Bytes) (pending : s.pending = some (r, false)) (made : s.made = ended ++ [r])
      (serialized : r.request = some pbData) (carried : Carried services (protocolOf (r.call false) pbData))
      (request : s.server.incoming = [])
      (response : s.client.incoming = wire [reply services (sent (protocolOf (r.call false) pbData))])
      (decoded : s.server.requests = messages (ended ++ [r]))

structure Inv (services : Services Msg) (s : System) (ended : List Request) : Prop where
  clientBuffer : Empty s.client.buffer
  serverBuffer : Empty s.server.buffer
  client : s.client.status = .ready
  server : s.server.status = .running
  calls : s.client.calls = ended.map (told services)
  phase : Phase services s ended

theorem start_inv : Inv services start [] :=
  ⟨make_empty, make_empty, rfl, rfl, rfl, .idle rfl rfl rfl rfl rfl⟩

theorem messages_invoked (rs : List Request) :
    (messages rs).flatMap (invoked services) = rs.flatMap (handled services) := by
  induction rs with
  | nil => rfl
  | cons r rs ih =>
    rw [List.flatMap_cons, ← ih, messages, List.filterMap_cons, handled]
    cases r.request with
    | none => rfl
    | some pbData =>
      simp only [Option.map_some, List.flatMap_cons, (carried_same services _).2.2.2]
      rfl

theorem messages_snoc {r : Request} {pbData : Bytes} (hr : r.request = some pbData) (rs : List Request) :
    messages (rs ++ [r]) = messages rs ++ [sent (protocolOf (r.call false) pbData)] := by
  rw [messages, List.filterMap_append, List.filterMap_cons, hr]
  rfl

theorem messages_snoc_none {r : Request} (hr : r.request = none) (rs : List Request) :
    messages (rs ++ [r]) = messages rs := by
  rw [messages, List.filterMap_append, List.filterMap_cons, hr]
  exact List.append_nil _

variable {s : System} {ended : List Request}

theorem Inv.asIfLocal (h : Inv services s ended) : AsIfLocal services s := by
  refine ⟨⟨ended, h.calls, ?_⟩, h.client, h.server⟩
  cases h.phase with
  | idle hpending hmade _ _ hdecoded =>
    refine ⟨by rw [hpending, hmade]; exact (List.append_nil _).symm, ended, List.prefix_rfl, by rw [hmade], ?_⟩
    rw [hdecoded, messages_invoked]
  | requested r pbData hpending hmade _ _ _ _ hdecoded =>
    refine ⟨by rw [hpending, hmade]; rfl, ended, List.prefix_rfl, by rw [hmade]; exact List.prefix_append _ _, ?_⟩
    rw [hdecoded, messages_invoked]
  | replied r pbData hpending hmade _ _ _ _ hdecoded =>
    refine ⟨by rw [hpending, hmade]; rfl, ended ++ [r], List.prefix_append _ _, by rw [hmade], ?_⟩
    rw [hdecoded, messages_invoked]

/-! ## The steps -/

theorem told_none {r : Request} (hr : r.request = none) : told services r =
    ⟨r.controller.setFailed (ascii "serialize request failed"), none, if r.done then 1 else 0, {}⟩ := by
  simp only [told, hr]

theorem call_unserialized (hready : s.client.status = .ready) (hpending : s.pending = none) {r : Request}
    (hr : r.request = none) (w : Write) : s.callMethodAsync r w =
      { s with made := s.made ++ [r] }.fails r false s.client.incoming s.client.buffer
        (r.controller.setFailed (ascii "serialize request failed")) := by
  simp only [System.callMethodAsync, hready, hpending, and_self, if_true, hr]

theorem call_written (hready : s.client.status = .ready) (hpending : s.pending = none) {r : Request} {pbData : Bytes}
    (hr : r.request = some pbData) (hc : Carried services (protocolOf (r.call false) pbData)) :
    s.callMethodAsync r .whole =
      { s with
        made := s.made ++ [r]
        pending := some (r, false)
        server := { s.server with incoming := s.server.incoming ++ wire [protocolOf (r.call false) pbData] } } := by
  obtain ⟨ms, b, hok, hdata⟩ := hc.encoded
  have hcall : s.callMethodAsync r .whole =
      { s with made := s.made ++ [r] }.send r .whole (encode [protocolOf (r.call false) pbData] (make 1024)) := by
    simp only [System.callMethodAsync, hready, hpending, and_self, if_true, hr]
  rw [hcall, hok, System.send, hdata, System.write]

/-- a request that cannot be serialised ends at once -/
theorem unserialized_inv (h : Inv services s ended) (hpending : s.pending = none) {r : Request} (hr : r.request = none)
    (w : Write) : Inv services (s.callMethodAsync r w) (ended ++ [r]) ∧ (s.callMethodAsync r w).pending = none := by
  cases h.phase with
  | requested r' _ hp => exact absurd (hp.symm.trans hpending) (by simp)
  | replied r' _ hp => exact absurd (hp.symm.trans hpending) (by simp)
  | idle _ hmade hrequest hresponse hdecoded =>
    rw [call_unserialized h.client hpending hr]
    refine ⟨⟨h.clientBuffer, h.serverBuffer, rfl, h.server, ?_, ?_⟩, rfl⟩
    · rw [List.map_append, ← h.calls, List.map_singleton, told_none hr]
      rfl
    · exact .idle rfl (congrArg (· ++ [r]) hmade) hrequest hresponse (hdecoded.trans (messages_snoc_none hr ended).symm)

/-- a request that is written waits for its answer -/
theorem written_inv (h : Inv services s ended) (hpending : s.pending = none) {r : Request} {pbData : Bytes}
    (hr : r.request = some pbData) (hc : Carried services (protocolOf (r.call false) pbData)) :
    Inv services (s.callMethodAsync r .whole) ended ∧ (s.callMethodAsync r .whole).pending = some (r, false) := by
  cases h.phase with
  | requested r' _ hp => exact absurd (hp.symm.trans hpending) (by simp)
  | replied r' _ hp => exact absurd (hp.symm.trans hpending) (by simp)
  | idle _ hmade hrequest hresponse hdecoded =>
    rw [call_written h.client hpending hr hc]
    refine ⟨⟨h.clientBuffer, h.serverBuffer, h.client, h.server, h.calls, ?_⟩, rfl⟩
    refine .requested r pbData rfl ?_ hr hc ?_ hresponse hdecoded
    · rw [hmade]
    · rw [hrequest, List.nil_append]

theorem call_inv (h : Inv services s ended) (r : Request) (w : Write)
    (hw : ∀ pbData, r.request = some pbData → w = .whole ∧ Carried services (protocolOf (r.call false) pbData)) :
    ∃ ended', Inv services (s.callMethodAsync r w) ended' := by
  by_cases hpending : s.pending = none
  swap
  · exact ⟨ended, by rwa [System.callMethodAsync, if_neg (fun hidle => hpending hidle.2)]⟩
  cases hr : r.request with
  | none => exact ⟨_, (unserialized_inv h hpending hr w).1⟩
  | some pbData =>
    obtain ⟨rfl, hc⟩ := hw pbData hr
    exact ⟨_, (written_inv h hpending hr hc).1⟩

theorem wire_one_ne (m : TinyPBProtocol) : wire [m] ≠ [] := by
  intro h
  exact List.cons_ne_nil m [] (RpcProvider.wire_eq_nil h)

/-- a turn that decodes, answers and empties the buffer -/
theorem turn_eq {t : Session} {os : List Recv} {n fuel : ℕ} {incoming data : Bytes} {b b₁ b₂ : TcpBuffer}
    {msgs : List TinyPBProtocol} (hrun : t.status = .running)
    (hread : readToBuffer os 0 t.incoming t.buffer = .ok (.done n, incoming, b)) (hne : b.readAble ≠ 0)
    (hdec : decode fuel [] b = some (.ok (msgs, b₁))) (hanswer : RpcProvider.answer services msgs = .ok data)
    (hmove : b₁.moveReadIndex b₁.readAble = .ok b₂) :
    handleClient services fuel t os = ⟨b₂, incoming, t.requests ++ msgs, t.written ++ data, .running⟩ := by
  simp only [handleClient, hrun, if_true, hread, hne, if_false, hdec, hanswer, hmove]

/-- the message `m` has been dispatched, and its response is under way; `b` is what is left of the read buffer -/
def System.answered (services : Services Msg) (m : TinyPBProtocol) (b : TcpBuffer) (s : System) : System :=
  { s with
    client := { s.client with incoming := s.client.incoming ++ wire [reply services (sent m)] }
    server := ⟨b, [], s.server.requests ++ [sent m], s.server.written ++ wire [reply services (sent m)], .running⟩ }

/-- the request has arrived -/
theorem serverTurn_replies (hrun : s.server.status = .running) (hc : Carried services m) (h0 : m.errInfo = [])
    (h1 : m.errCode = 0) {os : List Recv} {n : ℕ} {b : TcpBuffer} {pre post : Bytes}
    (hread : readToBuffer os 0 s.server.incoming s.server.buffer = .ok (.done n, [], b))
    (hl : Layout b pre (wire [m]) post) (hsize : b.size = 65536) :
    ∃ N b', Empty b' ∧ ∀ fuel, N ≤ fuel → s.serverTurn services fuel os = s.answered services m b' := by
  obtain ⟨b', ⟨N, hN⟩, hb'⟩ := decodes_one (hc.limits h0 h1) hl hsize
  have hne : b.readAble ≠ 0 := by
    rw [hl.readAble_eq]
    exact_mod_cast fun h => wire_one_ne m (List.length_eq_zero_iff.1 h)
  have hanswer : RpcProvider.answer services [sent m] = .ok (wire [reply services (sent m)]) := by
    apply RpcProvider.answer_eq
    intro x hx
    rw [List.mem_singleton.1 hx]
    exact hc.reply_limits.2
  have hmove : b'.moveReadIndex b'.readAble = .ok b' := by
    obtain ⟨pre', post', hl'⟩ := hb'.layout
    have hl'' : Layout b' pre' ([] ++ []) post' := hl'
    have hadjust := (moveReadIndex_eq hl'').1
    rw [hl'.readAble_eq, hadjust, List.length_nil, Nat.cast_zero, add_zero]
    exact adjustBuffer_of_lt hb'.front
  refine ⟨N, b', hb', ?_⟩
  intro fuel hfuel
  have hdec : decode fuel [] b = some (.ok ([sent m], b')) := Loop.run_mono hN hfuel
  simp only [System.serverTurn, turn_eq hrun hread hne hdec hanswer hmove, List.drop_left, System.answered]

theorem Inv.answered {r : Request} {pbData : Bytes} (h : Inv services s ended) (hpending : s.pending = some (r, false))
    (hmade : s.made = ended ++ [r]) (hr : r.request = some pbData)
    (hc : Carried services (protocolOf (r.call false) pbData)) (hresponse : s.client.incoming = [])
    (hdecoded : s.server.requests = messages ended) {b : TcpBuffer} (hb : Empty b) :
    Inv services (s.answered services (protocolOf (r.call false) pbData) b) ended := by
  refine ⟨h.clientBuffer, hb, h.client, rfl, h.calls, .replied r pbData hpending hmade hr hc rfl ?_ ?_⟩
  · rw [System.answered, hresponse, List.nil_append]
  · rw [System.answered, messages_snoc hr, hdecoded]

/-- the server answers what has arrived, or waits -/
theorem serverTurn_inv (h : Inv services s ended) {os : List Recv}
    (ht : TakesAll os s.server.incoming s.server.buffer) :
    ∃ N s', Inv services s' ended ∧ ∀ fuel, N ≤ fuel → s.serverTurn services fuel os = s' := by
  rcases takesAll_cases h.serverBuffer ht with hread | ⟨n, b, pre, post, hread, hne, hl, hsize⟩
  · refine ⟨0, s, h, ?_⟩
    intro fuel _
    have hturn : handleClient services fuel s.server os = s.server := by
      simp only [handleClient, h.server, if_true, hread]
      rw [← h.server]
    simp only [System.serverTurn, hturn, List.drop_length, List.append_nil]
  · cases h.phase with
    | idle _ _ hrequest => exact absurd hrequest hne
    | replied _ _ _ _ _ _ hrequest => exact absurd hrequest hne
    | requested r pbData hpending hmade hr hc hrequest hresponse hdecoded =>
      rw [hrequest] at hl
      obtain ⟨N, b', hb', hturn⟩ := serverTurn_replies h.server hc rfl rfl hread hl hsize
      exact ⟨N, _, h.answered hpending hmade hr hc hresponse hdecoded hb', hturn⟩

/-- the call that has been answered ends as it would have ended locally -/
theorem respond_told {r : Request} {pbData : Bytes} (hr : r.request = some pbData) (c : Client) (b : TcpBuffer) :
    respond c (r.call false) [] b (sent (reply services (sent (protocolOf (r.call false) pbData)))) =
      ⟨b, [], c.calls ++ [told services r], .ready⟩ := by
  obtain ⟨h1, h2, h3, -⟩ := carried_same services (protocolOf (r.call false) pbData)
  simp only [respond, told, hr, h1, h2, h3]
  by_cases h0 : (reply services (protocolOf (r.call false) pbData)).errCode ≠ 0
  · rw [if_pos h0, if_pos h0]
    rfl
  · rw [if_neg h0, if_neg h0]
    rfl

/-- the response has arrived: the call that waits ends -/
theorem clientReads_ends {r : Request} {pbData : Bytes} (hpending : s.pending = some (r, false))
    (hr : r.request = some pbData) (hc : Carried services (protocolOf (r.call false) pbData)) {os : List Recv} {n : ℕ}
    {b : TcpBuffer} {pre post : Bytes}
    (hread : readToBuffer os 0 s.client.incoming s.client.buffer = .ok (.done n, [], b))
    (hl : Layout b pre (wire [reply services (sent (protocolOf (r.call false) pbData))]) post) (hsize : b.size = 65536) :
    ∃ N b', Empty b' ∧ ∀ fuel, N ≤ fuel → s.clientReads fuel os =
      { s with client := ⟨b', [], s.client.calls ++ [told services r], .ready⟩, pending := none } := by
  obtain ⟨b', hd, hb'⟩ := decodes_one hc.reply_limits.1 hl hsize
  obtain ⟨N, hN⟩ := RpcChannel.receive_returns (s := s.client) (c := r.call false) [] rfl hd
  refine ⟨N, b', hb', ?_⟩
  intro fuel hfuel
  have hrec : receive fuel s.client (r.call false) [] b = ⟨b', [], s.client.calls ++ [told services r], .ready⟩ :=
    (hN fuel hfuel).trans (respond_told hr s.client b')
  simp only [System.clientReads, hpending, hread, hrec]

/-- the client takes the response, or waits -/
theorem clientReads_inv (h : Inv services s ended) {os : List Recv}
    (ht : s.pending ≠ none → TakesAll os s.client.incoming s.client.buffer) :
    ∃ N s' ended', Inv services s' ended' ∧ ∀ fuel, N ≤ fuel → s.clientReads fuel os = s' := by
  -- a read that waits
  have hwaits : readToBuffer os 0 s.client.incoming s.client.buffer = .ok (.waiting, s.client.incoming, s.client.buffer) →
      ∃ N s' ended', Inv services s' ended' ∧ ∀ fuel, N ≤ fuel → s.clientReads fuel os = s' := by
    intro hread
    refine ⟨0, s, ended, h, ?_⟩
    intro fuel _
    cases hpending : s.pending with
    | none => simp only [System.clientReads, hpending]
    | some p =>
      simp only [System.clientReads, hpending, hread]
      rw [← hpending]
  cases h.phase with
  | idle hpending =>
    refine ⟨0, s, ended, h, ?_⟩
    intro fuel _
    simp only [System.clientReads, hpending]
  | requested r pbData hpending hmade hr hc hrequest hresponse hdecoded =>
    apply hwaits
    have ht' := ht (by rw [hpending]; simp)
    rw [hresponse] at ht' ⊢
    exact takesAll_nil h.clientBuffer ht'
  | replied r pbData hpending hmade hr hc hrequest hresponse hdecoded =>
    rcases takesAll_cases h.clientBuffer (ht (by rw [hpending]; simp)) with hread | ⟨n, b, pre, post, hread, -, hl, hsize⟩
    · exact hwaits hread
    · rw [hresponse] at hl
      obtain ⟨N, b', hb', hends⟩ := clientReads_ends hpending hr hc hread hl hsize
      refine ⟨N, _, ended ++ [r], ?_, hends⟩
      refine ⟨hb', h.serverBuffer, rfl, h.server, ?_, .idle rfl hmade hrequest rfl hdecoded⟩
      rw [List.map_append, ← h.calls]
      rfl

/-- **One step** -/
theorem step_inv (h : ∃ ended, Inv services s ended) (l : Label) (hl : Orderly services s l) :
    ∃ N s', (∃ ended, Inv services s' ended) ∧ ∀ fuel, N ≤ fuel → step services fuel s l = s' := by
  obtain ⟨ended, h⟩ := h
  cases l with
  | call r w => exact ⟨0, _, call_inv h r w hl, fun _ _ => rfl⟩
  | clientReads os =>
    obtain ⟨N, s', ended', h', hstep⟩ := clientReads_inv h hl
    exact ⟨N, s', ⟨ended', h'⟩, hstep⟩
  | serverTurn os =>
    obtain ⟨N, s', h', hstep⟩ := serverTurn_inv h hl
    exact ⟨N, s', ⟨ended, h'⟩, hstep⟩
  | expire =>
    have hp : s.pending = none := hl
    refine ⟨0, s, ⟨ended, h⟩, ?_⟩
    intro fuel _
    simp only [step, hp, Option.map_none]
    rw [← hp]

/-- **A remote call is a local one** -/
theorem remote_is_local (services : Services Msg) (ls : List Label) : ∃ N, ∀ fuel, N ≤ fuel →
    Machine.Along (step services fuel) (Orderly services) start ls →
      AsIfLocal services (Machine.run (step services fuel) start ls) := by
  obtain ⟨N, hN⟩ := Machine.inv_run_fuel (fun s l hl h => step_inv h l hl)
    (⟨[], start_inv⟩ : ∃ ended, Inv services start ended) ls
  refine ⟨N, ?_⟩
  intro fuel hfuel halong
  obtain ⟨ended, h⟩ := hN fuel hfuel halong
  exact h.asIfLocal

/-! ## Answers come -/

/-- the frames fit what is free of a buffer between two reads -/
def Small (services : Services Msg) (r : Request) : Prop :=
  ∀ pbData, r.request = some pbData → frameLen (withId (protocolOf (r.call false) pbData)) ≤ 43692 ∧
    frameLen (withId (reply services (sent (protocolOf (r.call false) pbData)))) ≤ 43692

/-- all that is under way arrives at once -/
theorem takesAll_once (incoming : Bytes) {b : TcpBuffer} (hb : Empty b) (hne : incoming ≠ [])
    (hlen : incoming.length ≤ 43692) :
    ∃ b' pre post, readToBuffer [.data (incoming.length - 1)] 0 incoming b = .ok (.done incoming.length, [], b') ∧
      Layout b' pre incoming post ∧ b'.size = 65536 ∧ TakesAll [.data (incoming.length - 1)] incoming b := by
  obtain ⟨pre, post, hl⟩ := hb.layout
  have hpos := List.length_pos_iff.2 hne
  have hfree := hb.writeAble
  have htake : incoming.take (incoming.length - 1 + 1) = incoming := List.take_of_length_le (by omega)
  obtain ⟨b', pre', post', hread, hl', hsize, -⟩ := readToBuffer_once hl htake hne (by omega)
  rw [List.drop_length] at hread
  rw [List.nil_append] at hl'
  refine ⟨b', pre', post', hread, hl', hsize.trans hb.size, ?_⟩
  intro e incoming' b₁ hread₁
  have heq := hread.symm.trans hread₁
  simp only [Except.ok.injEq, Prod.mk.injEq] at heq
  obtain ⟨rfl, rfl, -⟩ := heq
  exact .inr ⟨rfl, incoming.length, hpos, rfl⟩

theorem wire_one_length (m : TinyPBProtocol) : (wire [m]).length = frameLen (withId m) := by
  rw [wire_cons, wire_nil, List.append_nil, frame_length]

/-- the steps lead from `s` to `s'`, with enough fuel -/
def Steps (services : Services Msg) (s s' : System) (ls : List Label) : Prop :=
  ∃ N, ∀ fuel, N ≤ fuel → Machine.Along (step services fuel) (Orderly services) s ls ∧
    Machine.run (step services fuel) s ls = s'

theorem Steps.one {s' : System} {l : Label} (hl : Orderly services s l) {N : ℕ}
    (hstep : ∀ fuel, N ≤ fuel → step services fuel s l = s') : Steps services s s' [l] :=
  ⟨N, fun fuel hfuel => ⟨⟨hl, trivial⟩, hstep fuel hfuel⟩⟩

theorem Steps.trans {s' s'' : System} {ls ls' : List Label} (h : Steps services s s' ls)
    (h' : Steps services s' s'' ls') : Steps services s s'' (ls ++ ls') := by
  obtain ⟨N, hN⟩ := h
  obtain ⟨N', hN'⟩ := h'
  refine ⟨max N N', ?_⟩
  intro fuel hfuel
  obtain ⟨h1, h2⟩ := hN fuel (le_trans (le_max_left N N') hfuel)
  obtain ⟨h3, h4⟩ := hN' fuel (le_trans (le_max_right N N') hfuel)
  refine ⟨Machine.along_append.2 ⟨h1, by rwa [h2]⟩, ?_⟩
  rw [Machine.run_append, h2, h4]

/-- a call whose response is under way ends -/
theorem replied_ends {r : Request} {pbData : Bytes} (h : Inv services s ended) (hpending : s.pending = some (r, false))
    (hmade : s.made = ended ++ [r]) (hr : r.request = some pbData)
    (hc : Carried services (protocolOf (r.call false) pbData)) (hrequest : s.server.incoming = [])
    (hresponse : s.client.incoming = wire [reply services (sent (protocolOf (r.call false) pbData))])
    (hdecoded : s.server.requests = messages (ended ++ [r])) (hsmall : Small services r) :
    ∃ ls s', Steps services s s' ls ∧ Inv services s' (ended ++ [r]) ∧ s'.pending = none := by
  obtain ⟨b, pre, post, hread, hl, hsize, htakes⟩ := takesAll_once s.client.incoming h.clientBuffer
    (by rw [hresponse]; exact wire_one_ne _) (by rw [hresponse, wire_one_length]; exact (hsmall pbData hr).2)
  rw [hresponse] at hl
  obtain ⟨N, b', hb', hends⟩ := clientReads_ends hpending hr hc hread hl hsize
  refine ⟨_, _, Steps.one (l := .clientReads _) (fun _ => htakes) hends, ?_, rfl⟩
  refine ⟨hb', h.serverBuffer, rfl, h.server, ?_, .idle rfl hmade hrequest rfl hdecoded⟩
  rw [List.map_append, ← h.calls]
  rfl

/-- a call whose request is under way ends -/
theorem requested_ends {r : Request} {pbData : Bytes} (h : Inv services s ended) (hpending : s.pending = some (r, false))
    (hmade : s.made = ended ++ [r]) (hr : r.request = some pbData)
    (hc : Carried services (protocolOf (r.call false) pbData))
    (hrequest : s.server.incoming = wire [protocolOf (r.call false) pbData]) (hresponse : s.client.incoming = [])
    (hdecoded : s.server.requests = messages ended) (hsmall : Small services r) :
    ∃ ls s', Steps services s s' ls ∧ Inv services s' (ended ++ [r]) ∧ s'.pending = none := by
  obtain ⟨b, pre, post, hread, hl, hsize, htakes⟩ := takesAll_once s.server.incoming h.serverBuffer
    (by rw [hrequest]; exact wire_one_ne _) (by rw [hrequest, wire_one_length]; exact (hsmall pbData hr).1)
  rw [hrequest] at hl
  obtain ⟨N, b', hb', hturn⟩ := serverTurn_replies h.server hc rfl rfl hread hl hsize
  have hfirst : Steps services s _ [.serverTurn _] := Steps.one htakes hturn
  have hnext := h.answered hpending hmade hr hc hresponse hdecoded hb'
  obtain ⟨ls, s', hrest, h'⟩ := replied_ends hnext hpending hmade hr hc rfl
    (by rw [System.answered, hresponse, List.nil_append]) (by rw [System.answered, messages_snoc hr, hdecoded]) hsmall
  exact ⟨_, s', hfirst.trans hrest, h'⟩

/-- a call that waits ends -/
theorem pending_ends {r : Request} {expired : Bool} (h : Inv services s ended) (hpending : s.pending = some (r, expired))
    (hsmall : Small services r) :
    ∃ ls s', Steps services s s' ls ∧ Inv services s' (ended ++ [r]) ∧ s'.pending = none := by
  cases h.phase with
  | idle hp => exact absurd (hp.symm.trans hpending) (by simp)
  | requested r' pbData hp hmade hr hc hrequest hresponse hdecoded =>
    obtain ⟨rfl, -⟩ := Prod.mk.inj (Option.some.inj (hpending.symm.trans hp))
    exact requested_ends h hp hmade hr hc hrequest hresponse hdecoded hsmall
  | replied r' pbData hp hmade hr hc hrequest hresponse hdecoded =>
    obtain ⟨rfl, -⟩ := Prod.mk.inj (Option.some.inj (hpending.symm.trans hp))
    exact replied_ends h hp hmade hr hc hrequest hresponse hdecoded hsmall

/-- **A pending call can be answered**: from the end of every orderly run, for frames of 43692 bytes at most -/
theorem pending_answered (services : Services Msg) (ls : List Label) : ∃ N, ∀ fuel, N ≤ fuel →
    Machine.Along (step services fuel) (Orderly services) start ls →
      ∀ r ∈ (Machine.run (step services fuel) start ls).pending.map Prod.fst, Small services r →
        Machine.Leads (step services fuel) (Orderly services)
          (fun t => t.pending = none ∧
            t.client.calls = (Machine.run (step services fuel) start ls).client.calls ++ [told services r])
          (Machine.run (step services fuel) start ls) := by
  obtain ⟨N, s, hN⟩ := Machine.run_settles (fun s l hl h => step_inv h l hl)
    (⟨[], start_inv⟩ : ∃ ended, Inv services start ended) ls
  by_cases hs : ∃ ended r expired, Inv services s ended ∧ s.pending = some (r, expired) ∧ Small services r
  · obtain ⟨ended, r, expired, h, hpending, hsmall⟩ := hs
    obtain ⟨cont, s', ⟨M, hM⟩, h', hidle⟩ := pending_ends h hpending hsmall
    refine ⟨max N M, ?_⟩
    intro fuel hfuel halong r' hr' _
    obtain ⟨-, hrun⟩ := hN fuel (le_trans (le_max_left N M) hfuel) halong
    obtain ⟨hcont, hend⟩ := hM fuel (le_trans (le_max_right N M) hfuel)
    rw [hrun] at hr' ⊢
    obtain rfl : r = r' := by
      rw [hpending] at hr'
      exact Option.some.inj hr'
    refine ⟨cont, hcont, ?_⟩
    dsimp only
    rw [hend, h'.calls, h.calls, List.map_append]
    exact ⟨hidle, rfl⟩
  · refine ⟨N, ?_⟩
    intro fuel hfuel halong r hr hsmall
    obtain ⟨⟨ended, h⟩, hrun⟩ := hN fuel hfuel halong
    rw [hrun] at hr
    obtain ⟨p, hp, rfl⟩ := Option.mem_map.1 hr
    exact absurd ⟨ended, p.1, p.2, h, hp, hsmall⟩ hs

/-- the request can be carried to the server, and its response back -/
def Callable (services : Services Msg) (r : Request) : Prop :=
  (∀ pbData, r.request = some pbData → Carried services (protocolOf (r.call false) pbData)) ∧ Small services r

theorem call_ends {r : Request} (h : Inv services s ended) (hpending : s.pending = none) (hr : Callable services r) :
    ∃ ls s', Steps services s s' ls ∧ Inv services s' (ended ++ [r]) ∧ s'.pending = none := by
  have horderly : Orderly services s (.call r .whole) := fun pbData hreq => ⟨rfl, hr.1 pbData hreq⟩
  have hcall : Steps services s (s.callMethodAsync r .whole) [.call r .whole] :=
    Steps.one horderly (N := 0) fun _ _ => rfl
  cases hreq : r.request with
  | none => exact ⟨_, _, hcall, unserialized_inv h hpending hreq .whole⟩
  | some pbData =>
    obtain ⟨h', hp'⟩ := written_inv h hpending hreq (hr.1 pbData hreq)
    obtain ⟨ls, s', hrest, hend⟩ := pending_ends h' hp' hr.2
    exact ⟨_, s', hcall.trans hrest, hend⟩

/-- any list of requests can be answered, one after another -/
theorem requests_answered (services : Services Msg) (rs : List Request) (hrs : ∀ r ∈ rs, Callable services r) :
    ∃ ls s', Steps services start s' ls ∧ Inv services s' rs ∧ s'.pending = none := by
  induction rs using List.reverseRecOn with
  | nil => exact ⟨[], start, ⟨0, fun _ _ => ⟨trivial, rfl⟩⟩, start_inv, rfl⟩
  | append_singleton rs r ih =>
    obtain ⟨ls, s, hfirst, h, hpending⟩ := ih fun r' hr' => hrs r' (List.mem_append_left _ hr')
    obtain ⟨ls', s', hrest, h'⟩ := call_ends h hpending (hrs r (List.mem_append_right _ List.mem_cons_self))
    exact ⟨ls ++ ls', s', hfirst.trans hrest, h'⟩

/-! ## A service that echoes -/

/-- the service `a` with the method `b` -/
def echo : Services Bytes := [([97], ⟨[97], [⟨[98], some, id, some⟩]⟩)]

def ping : Request := ⟨[97, 46, 98], some [7], { msgId := [49] }, true⟩

theorem ping_callable : Callable echo ping := by
  have hreply : reply echo (sent (protocolOf (ping.call false) [7])) =
      { msgId := [49], methodName := [97, 46, 98], pbData := [7] } := by decide
  constructor
  · intro pbData hreq
    obtain rfl : [7] = pbData := Option.some.inj hreq
    refine ⟨⟨by decide, by decide, by decide, by decide⟩, by decide, by decide, ?_⟩
    have hparse : parseServiceFullName (sent (protocolOf (ping.call false) [7])).methodName = some ([97], [98]) := by
      decide
    rw [hparse]
    intro req pbData hreq' hser
    obtain rfl : [7] = req := Option.some.inj hreq'
    obtain rfl : [7] = pbData := Option.some.inj hser
    decide
  · intro pbData hreq
    obtain rfl : [7] = pbData := Option.some.inj hreq
    rw [hreply]
    exact ⟨by decide, by decide⟩

/-- two calls: each is told its echo -/
theorem remote_is_local_echo : ∃ ls N, ∀ fuel, N ≤ fuel →
    (Machine.run (step echo fuel) start ls).client.calls =
        List.replicate 2 ⟨{ finished := true, msgId := [49] }, some [7], 1, {}⟩ ∧
      AsIfLocal echo (Machine.run (step echo fuel) start ls) := by
  have hcallable : ∀ r ∈ [ping, ping], Callable echo r := by
    intro r hr
    obtain rfl : r = ping := by simpa using hr
    exact ping_callable
  obtain ⟨ls, s, ⟨N, hN⟩, h, -⟩ := requests_answered echo [ping, ping] hcallable
  obtain ⟨M, hM⟩ := remote_is_local echo ls
  refine ⟨ls, max N M, ?_⟩
  intro fuel hfuel
  obtain ⟨halong, hrun⟩ := hN fuel (le_trans (le_max_left N M) hfuel)
  refine ⟨?_, hM fuel (le_trans (le_max_right N M) hfuel) halong⟩
  rw [hrun, h.calls]
  decide

/-- a call that has been written -/
theorem pending_answered_echo : ∃ N, ∀ fuel, N ≤ fuel →
    (Machine.run (step echo fuel) start [.call ping .whole]).pending = some (ping, false) ∧
      Machine.Leads (step echo fuel) (Orderly echo)
        (fun t => t.pending = none ∧
          t.client.calls = (Machine.run (step echo fuel) start [.call ping .whole]).client.calls ++ [told echo ping])
        (Machine.run (step echo fuel) start [.call ping .whole]) := by
  have hwritten : (start.callMethodAsync ping .whole).pending = some (ping, false) :=
    (written_inv start_inv rfl rfl (ping_callable.1 [7] rfl)).2
  have hpending : ∀ fuel, (Machine.run (step echo fuel) start [.call ping .whole]).pending = some (ping, false) := by
    intro fuel
    rw [Machine.run_cons, Machine.run_nil, step]
    exact hwritten
  obtain ⟨N, hN⟩ := pending_answered echo [.call ping .whole]
  refine ⟨N, ?_⟩
  intro fuel hfuel
  refine ⟨hpending fuel, hN fuel hfuel ⟨fun pbData hreq => ⟨rfl, ping_callable.1 pbData hreq⟩, trivial⟩ ping ?_
    ping_callable.2⟩
  rw [hpending fuel]
  rfl

end

end RemoteCall

end MCoroRpc
