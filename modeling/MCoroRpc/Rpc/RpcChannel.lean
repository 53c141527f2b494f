/-
Calls on one channel of the client (RpcChannel::CallMethodAsync in include/rpc/rpc_channel.inl, wait_for in
include/coro/wait_for.hpp).

Calls are made one after another on a connected channel; each is one label. A `Client` is the read buffer of the stream
and the bytes that the server has sent and the client has not received yet. The server answers a request that has been
written once, behind its earlier answers; when an answer arrives is up to the arrivals of the calls that read.

`wait_for` awaits the write and the read to their end, whether the timer has fired or not: the timer only decides what is
made of the outcome. So a call that times out leaves its answer in the read buffer or under way.

Main results:
- `calls_correlated`: a call that does not fail has its own answer, in every run in which no call finds bytes of an
  earlier answer and what it reads is its answer or does not read like a frame.
- `calls_not_correlated`: the call behind one that has timed out gets the late answer.
-/
import MCoroRpc.Coder.RoundTrip
import MCoroRpc.Coder.Scan
import MCoroRpc.Core.Machine
import MCoroRpc.Net.TcpStream
import MCoroRpc.Rpc.Dispatcher

namespace MCoroRpc

open CInt TcpBuffer TcpStream TinyPB Result

structure RpcController where
  failed : Bool := false
  errorText : Bytes := []
  errorCode : ℤ := 0
  finished : Bool := false
  msgId : Bytes := []
deriving DecidableEq, Repr

def RpcController.setFailed (reason : Bytes) (ctrl : RpcController) : RpcController :=
  { ctrl with failed := true, errorText := reason }

namespace RpcChannel

open RpcDispatcher (ascii)

/-- a call, and what the world does during it -/
structure Call where
  /-- `method->full_name()` -/
  methodName : Bytes
  /-- `SerializeToString` of the request -/
  request : Option Bytes
  controller : RpcController
  /-- a callback is given -/
  done : Bool
  /-- the request is written; otherwise the write throws -/
  written : Bool
  /-- what the server answers to the request -/
  answer : TinyPBProtocol
  arrivals : List Recv
  /-- the timer fires before the write and the read have ended -/
  expired : Bool
deriving DecidableEq, Repr

/-- a call that has completed -/
structure Completed where
  controller : RpcController
  /-- the bytes that `ParseFromString` of the response was given -/
  response : Option Bytes
  /-- how often the callback has run -/
  doneRuns : ℕ
  /-- the server's answer to this call -/
  answer : TinyPBProtocol
deriving DecidableEq, Repr

inductive Status where
  | ready
  /-- a call waits for bytes that do not arrive -/
  | suspended
  /-- an exception has left the coroutine, or the program has gone wrong -/
  | fault
  /-- decode goes round for ever -/
  | hung
deriving DecidableEq, Repr

structure Client where
  buffer : TcpBuffer
  /-- sent by the server, not received yet -/
  incoming : Bytes
  /-- the completed calls -/
  calls : List Completed
  status : Status
deriving DecidableEq, Repr

/-- a new connection -/
def connect : Client := ⟨make 65536, [], [], .ready⟩

def protocolOf (c : Call) (pbData : Bytes) : TinyPBProtocol :=
  { msgId := c.controller.msgId, methodName := c.methodName, pbData := pbData }

/-- the call completes; its callback runs if it has one -/
def complete (s : Client) (c : Call) (incoming : Bytes) (b : TcpBuffer) (ctrl : RpcController)
    (response : Option Bytes) : Client :=
  ⟨b, incoming, s.calls ++ [⟨ctrl, response, if c.done then 1 else 0, c.answer⟩], .ready⟩

/-- what the controller is told of a write or a read that has thrown -/
def ioError (c : Call) : RpcController :=
  c.controller.setFailed (ascii (if c.expired then "rpc timeout" else "rpc io error"))

/-- the first decoded message is taken for the answer -/
def respond (s : Client) (c : Call) (incoming : Bytes) (b : TcpBuffer) (rsp : TinyPBProtocol) : Client :=
  if rsp.errCode ≠ 0 then
    complete s c incoming b
      { c.controller with failed := true, errorText := rsp.errInfo, errorCode := rsp.errCode, finished := true } none
  else complete s c incoming b { c.controller with finished := true } (some rsp.pbData)

/-- behind the read: the timer is looked at, then what has been read is decoded -/
def receive (fuel : ℕ) (s : Client) (c : Call) (incoming : Bytes) (b : TcpBuffer) : Client :=
  if c.expired then complete s c incoming b (c.controller.setFailed (ascii "rpc timeout")) none
  else
    match decode fuel [] b with
    | none => { s with incoming := incoming, buffer := b, status := .hung }
    | some (.error _) => { s with incoming := incoming, buffer := b, status := .fault }
    | some (.ok ([], b)) => complete s c incoming b (c.controller.setFailed (ascii "decode response failed")) none
    | some (.ok (rsp :: _, b)) => respond s c incoming b rsp

/-- the encoded request is written and the answer read -/
def exchange (fuel : ℕ) (s : Client) (c : Call) (encoded : Except Fault (List TinyPBProtocol × TcpBuffer)) : Client :=
  match encoded with
  | .error _ => { s with status := .fault }
  | .ok _ =>
    if c.written then
      match readToBuffer c.arrivals 0 (s.incoming ++ frame (withId c.answer)) s.buffer with
      | .error _ => { s with status := .fault }
      | .ok (.waiting, incoming, b) => { s with incoming := incoming, buffer := b, status := .suspended }
      | .ok (.failed, incoming, b) => complete s c incoming b (ioError c) none
      | .ok (.done _, incoming, b) => receive fuel s c incoming b
    else complete s c s.incoming s.buffer (ioError c) none

def callMethodAsync (fuel : ℕ) (s : Client) (c : Call) : Client :=
  if s.status = .ready then
    match c.request with
    | none => complete s c s.incoming s.buffer (c.controller.setFailed (ascii "serialize request failed")) none
    | some pbData => exchange fuel s c (encode [protocolOf c pbData] (make 1024))
  else s

/-! ## Whose answer -/

/-- a call that has not failed has the answer to itself -/
def Correlated (r : Completed) : Prop :=
  r.controller.failed = false → r.response = some r.answer.pbData ∧ r.answer.errCode = 0

/-- the server's answers can be encoded and carry the ids of their requests -/
structure Answers (c : Call) : Prop where
  limits : WithinLimits c.answer
  length : frameLen (withId c.answer) < 2147483648
  msgId : c.answer.msgId = (withId (protocolOf c [])).msgId

/-- what the next call reads before its timer fires is its answer and nothing else, or does not read like a frame -/
def Clean (s : Client) (c : Call) : Prop :=
  s.status = .ready → c.written = true → c.expired = false → ∀ n incoming b,
    readToBuffer c.arrivals 0 (s.incoming ++ frame (withId c.answer)) s.buffer = .ok (.done n, incoming, b) →
      (s.buffer.content = [] ∧ s.incoming = [] ∧ incoming = []) ∨ Quiet .storage b

/-- what holds between two calls -/
structure Inv (s : Client) : Prop where
  buffer : ∃ pre c post, Layout s.buffer pre c post
  size : s.buffer.size = 65536
  calls : ∀ r ∈ s.calls, Correlated r

theorem connect_inv : Inv connect :=
  ⟨⟨[], [], _, make_layout 65536⟩, make_size 65536, by simp [connect]⟩

variable {s : Client} {c : Call}

theorem complete_inv (h : Inv s) {incoming : Bytes} {b : TcpBuffer} {ctrl : RpcController} {response : Option Bytes}
    (hb : ∃ pre c post, Layout b pre c post) (hsize : b.size = 65536)
    (hr : ctrl.failed = false → response = some c.answer.pbData ∧ c.answer.errCode = 0) :
    Inv (complete s c incoming b ctrl response) := by
  refine ⟨hb, hsize, ?_⟩
  intro r hmem
  simp only [complete, List.mem_append, List.mem_singleton] at hmem
  rcases hmem with hmem | rfl
  · exact h.calls r hmem
  · exact hr

/-- a call that fails has no answer at all -/
theorem fails_inv (h : Inv s) (incoming : Bytes) {b : TcpBuffer} {ctrl : RpcController}
    (hb : ∃ pre c post, Layout b pre c post) (hsize : b.size = 65536) (hf : ctrl.failed = true) :
    Inv (complete s c incoming b ctrl none) :=
  complete_inv h hb hsize fun hr => by simp [hf] at hr

/-- the call that is given its own answer -/
theorem respond_inv (h : Inv s) (incoming : Bytes) {b : TcpBuffer} (hb : ∃ pre c post, Layout b pre c post)
    (hsize : b.size = 65536) : Inv (respond s c incoming b (sent c.answer)) := by
  obtain ⟨herr, hpb⟩ := sent_payload c.answer
  unfold respond
  split_ifs with h0
  · exact fails_inv h incoming hb hsize rfl
  · exact complete_inv h hb hsize fun _ => ⟨by rw [hpb], by rw [← herr]; exact not_not.1 h0⟩

/-- behind a read that has brought the answer to this call and nothing else -/
theorem receive_whole (h : Inv s) (hans : Answers c) (incoming : Bytes) {b : TcpBuffer} {pre post : Bytes}
    (hl : Layout b pre (frame (withId c.answer)) post) (hsize : b.size = 65536) (hexp : c.expired = false) :
    ∃ N s', Inv s' ∧ ∀ fuel, N ≤ fuel → receive fuel s c incoming b = s' := by
  have hl' : Layout b pre (wire [c.answer]) post := by
    simpa using hl
  have hm : ∀ m ∈ [c.answer], WithinLimits m := by
    intro m hm
    rw [List.mem_singleton.1 hm]
    exact hans.limits
  obtain ⟨b', pre', post', ⟨N, hN⟩, hl2, hs2⟩ :=
    decodes_wire [] hm hl' (positionsFit_of_layout hl' (by rw [hsize]; norm_num))
  refine ⟨N, respond s c incoming b' (sent c.answer), respond_inv h incoming ⟨_, _, _, hl2⟩ (hs2.trans hsize), ?_⟩
  intro fuel hfuel
  have hdec : decode fuel [] b = some (.ok ([sent c.answer], b')) := Loop.run_mono hN hfuel
  simp only [receive, hexp, Bool.false_eq_true, if_false, hdec]

/-- behind a read that has brought nothing that reads like a frame -/
theorem receive_quiet (h : Inv s) (incoming : Bytes) {b : TcpBuffer} (hb : ∃ pre c post, Layout b pre c post)
    (hsize : b.size = 65536) (hexp : c.expired = false) (hq : Quiet .storage b) :
    ∃ N s', Inv s' ∧ ∀ fuel, N ≤ fuel → receive fuel s c incoming b = s' := by
  refine ⟨1, complete s c incoming b (c.controller.setFailed (ascii "decode response failed")) none,
    fails_inv h incoming hb hsize rfl, ?_⟩
  intro fuel hfuel
  have hdec : decode fuel [] b = some (.ok ([], b)) := decode_quiet hq hfuel
  simp only [receive, hexp, Bool.false_eq_true, if_false, hdec]

/-- the timer has fired -/
theorem receive_expired (h : Inv s) (incoming : Bytes) {b : TcpBuffer} (hb : ∃ pre c post, Layout b pre c post)
    (hsize : b.size = 65536) (hexp : c.expired = true) :
    ∃ N s', Inv s' ∧ ∀ fuel, N ≤ fuel → receive fuel s c incoming b = s' :=
  ⟨0, _, fails_inv h incoming hb hsize rfl, fun _ _ => if_pos hexp⟩

/-- what holds behind a read, whatever has been read -/
theorem read_inv (h : Inv s) (hans : Answers c) (hclean : Clean s c) (hready : s.status = .ready)
    (hw : c.written = true) {n : ℕ} {incoming : Bytes} {b : TcpBuffer}
    (hread : readToBuffer c.arrivals 0 (s.incoming ++ frame (withId c.answer)) s.buffer = .ok (.done n, incoming, b)) :
    ∃ N s', Inv s' ∧ ∀ fuel, N ≤ fuel → receive fuel s c incoming b = s' := by
  obtain ⟨pre, old, post, hl⟩ := h.buffer
  obtain ⟨e, got, incoming1, b1, pre1, post1, hread1, hgot, hl1, hsize, -, -⟩ :=
    readToBuffer_layout c.arrivals 0 (s.incoming ++ frame (withId c.answer)) hl
  obtain ⟨-, rfl, rfl⟩ : e = .done n ∧ incoming1 = incoming ∧ b1 = b := by
    simpa using hread1.symm.trans hread
  have hsize1 : b1.size = 65536 := by rw [hsize (by rw [h.size]; norm_num), h.size]
  cases hexp : c.expired with
  | true => exact receive_expired h incoming1 ⟨_, _, _, hl1⟩ hsize1 hexp
  | false =>
    rcases hclean hready hw hexp n incoming1 b1 hread with ⟨hcontent, hin, hall⟩ | hquiet
    · rw [hin, hall, List.nil_append, List.append_nil] at hgot
      rw [← hl.content_eq, hcontent, List.nil_append, ← hgot] at hl1
      exact receive_whole h hans incoming1 hl1 hsize1 hexp
    · exact receive_quiet h incoming1 ⟨_, _, _, hl1⟩ hsize1 hexp hquiet

theorem exchange_inv (h : Inv s) (hans : Answers c) (hclean : Clean s c) (hready : s.status = .ready)
    (encoded : Except Fault (List TinyPBProtocol × TcpBuffer)) :
    ∃ N s', Inv s' ∧ ∀ fuel, N ≤ fuel → exchange fuel s c encoded = s' := by
  cases encoded with
  | error f =>
    refine ⟨0, { s with status := .fault }, ⟨h.buffer, h.size, h.calls⟩, ?_⟩
    intro fuel _
    simp only [exchange]
  | ok r =>
    cases hw : c.written with
    | false =>
      refine ⟨0, complete s c s.incoming s.buffer (ioError c) none, fails_inv h s.incoming h.buffer h.size rfl,
        ?_⟩
      intro fuel _
      simp only [exchange, hw, Bool.false_eq_true, if_false]
    | true =>
      obtain ⟨pre, old, post, hl⟩ := h.buffer
      obtain ⟨e, got, incoming, b, pre1, post1, hread, -, hl1, hsize, -, -⟩ :=
        readToBuffer_layout c.arrivals 0 (s.incoming ++ frame (withId c.answer)) hl
      have hsize1 : b.size = 65536 := by rw [hsize (by rw [h.size]; norm_num), h.size]
      cases e with
      | waiting =>
        refine ⟨0, { s with incoming := incoming, buffer := b, status := .suspended },
          ⟨⟨_, _, _, hl1⟩, hsize1, h.calls⟩, ?_⟩
        intro fuel _
        simp only [exchange, hw, if_true, hread]
      | failed =>
        refine ⟨0, complete s c incoming b (ioError c) none, fails_inv h incoming ⟨_, _, _, hl1⟩ hsize1 rfl,
          ?_⟩
        intro fuel _
        simp only [exchange, hw, if_true, hread]
      | done n =>
        obtain ⟨N, s', h', hrec⟩ := read_inv h hans hclean hready hw hread
        refine ⟨N, s', h', ?_⟩
        intro fuel hfuel
        simp only [exchange, hw, if_true, hread, hrec fuel hfuel]

theorem call_encodes (fuel : ℕ) (hready : s.status = .ready) {pbData : Bytes} (hreq : c.request = some pbData) :
    callMethodAsync fuel s c = exchange fuel s c (encode [protocolOf c pbData] (make 1024)) := by
  simp only [callMethodAsync, hready, if_true, hreq]

/-- **One call** -/
theorem call_inv (h : Inv s) (hans : Answers c) (hclean : Clean s c) :
    ∃ N s', Inv s' ∧ ∀ fuel, N ≤ fuel → callMethodAsync fuel s c = s' := by
  by_cases hready : s.status = .ready
  swap
  · exact ⟨0, s, h, fun fuel _ => if_neg hready⟩
  cases hreq : c.request with
  | none =>
    refine ⟨0, complete s c s.incoming s.buffer (c.controller.setFailed (ascii "serialize request failed")) none,
      fails_inv h s.incoming h.buffer h.size rfl, ?_⟩
    intro fuel _
    simp only [callMethodAsync, hready, if_true, hreq]
  | some pbData =>
    obtain ⟨N, s', h', hex⟩ := exchange_inv h hans hclean hready (encode [protocolOf c pbData] (make 1024))
    exact ⟨N, s', h', fun fuel hfuel => by rw [call_encodes fuel hready hreq, hex fuel hfuel]⟩

/-- **Correlation**: in every run of calls that find no byte of an earlier answer, each call that does not fail has its
own answer -/
theorem calls_correlated {calls : List Call} (hans : ∀ c ∈ calls, Answers c) :
    ∃ N, ∀ fuel, N ≤ fuel → Machine.Along (callMethodAsync fuel) Clean connect calls →
      ∀ r ∈ (Machine.run (callMethodAsync fuel) connect calls).calls, Correlated r := by
  have key : ∀ s, Inv s → ∃ N, ∀ fuel, N ≤ fuel → Machine.Along (callMethodAsync fuel) Clean s calls →
      ∀ r ∈ (Machine.run (callMethodAsync fuel) s calls).calls, Correlated r := by
    induction calls with
    | nil =>
      intro s h
      exact ⟨0, fun fuel _ _ => h.calls⟩
    | cons c calls ih =>
      intro s h
      by_cases hclean : Clean s c
      · obtain ⟨N, s', h', hstep⟩ := call_inv h (hans c List.mem_cons_self) hclean
        obtain ⟨N', hN'⟩ := ih (fun c' hc' => hans c' (List.mem_cons_of_mem c hc')) s' h'
        refine ⟨max N N', ?_⟩
        intro fuel hfuel halong
        have hs := hstep fuel (le_trans (le_max_left _ _) hfuel)
        rw [Machine.along_cons, hs] at halong
        rw [Machine.run_cons, hs]
        exact hN' fuel (le_trans (le_max_right _ _) hfuel) halong.2
      · exact ⟨0, fun fuel _ halong => absurd halong.1 hclean⟩
  exact key connect connect_inv

/-! ## A prompt answer and a late one -/

/-- a call whose answer, of 101 bytes at most, is there at the first `recv` -/
def prompt (a : TinyPBProtocol) (expired : Bool) : Call where
  methodName := []
  request := some []
  controller := { msgId := a.msgId }
  done := false
  written := true
  answer := a
  arrivals := [.data 100]
  expired := expired

/-- what such a call reads comes behind what the buffer holds -/
theorem prompt_reads {a : TinyPBProtocol} (expired : Bool) {pre old post : Bytes} (hready : s.status = .ready)
    (hin : s.incoming = []) (hl : Layout s.buffer pre old post) (hlen : frameLen (withId a) ≤ 101)
    (hroom : 101 ≤ s.buffer.writeAble) (hreq : frameLen (withId (protocolOf (prompt a expired) [])) < 2147483648) :
    ∃ b pre' post', Layout b pre' (old ++ frame (withId a)) post' ∧ b.size = s.buffer.size ∧
      b.writeIndex ≤ s.buffer.writeIndex + frameLen (withId a) ∧
      readToBuffer [.data 100] 0 (s.incoming ++ frame (withId a)) s.buffer = .ok (.done (frameLen (withId a)), [], b) ∧
      ∀ fuel, callMethodAsync fuel s (prompt a expired) = receive fuel s (prompt a expired) [] b := by
  have hframe : (frame (withId a)).length = frameLen (withId a) := frame_length _
  have hge : 26 ≤ frameLen (withId a) := frameLen_ge _
  have htake : (s.incoming ++ frame (withId a)).take (100 + 1) = frame (withId a) := by
    rw [hin, List.nil_append]
    exact List.take_of_length_le (by omega)
  have hne : frame (withId a) ≠ [] := List.ne_nil_of_length_pos (by omega)
  obtain ⟨b, pre', post', hread, hl', hsize, hw⟩ := readToBuffer_once hl htake hne hroom
  rw [hin, List.nil_append, List.drop_length, hframe] at hread
  rw [hframe] at hw
  refine ⟨b, pre', post', hl', hsize, hw, by rw [hin]; exact hread, ?_⟩
  intro fuel
  have hwire : (wire [protocolOf (prompt a expired) []]).length < 2147483648 := by
    rw [wire_length]
    simpa using hreq
  obtain ⟨out, pre2, post2, henc, -⟩ := encode_layout (make_layout 1024) hwire
  have hread' : readToBuffer (prompt a expired).arrivals 0 (s.incoming ++ frame (withId (prompt a expired).answer))
      s.buffer = .ok (.done (frameLen (withId a)), [], b) := by
    rw [hin]; exact hread
  have hwritten : (prompt a expired).written = true := rfl
  rw [call_encodes fuel hready (rfl : (prompt a expired).request = some []), henc]
  simp only [exchange, hwritten, if_true, hread']

/-- the answer to one call -/
def ones : TinyPBProtocol := { msgId := [49], pbData := [1] }

/-- the answer to the next one -/
def twos : TinyPBProtocol := { msgId := [50], pbData := [2] }

theorem ones_limits : WithinLimits ones :=
  ⟨by decide, by decide, by decide, by decide, by decide, by decide, by decide⟩

theorem twos_limits : WithinLimits twos :=
  ⟨by decide, by decide, by decide, by decide, by decide, by decide, by decide⟩

theorem connect_layout : Layout connect.buffer [] [] (List.replicate 65536 0) := make_layout 65536

theorem connect_writeAble : connect.buffer.writeAble = 65536 := by
  simp only [connect, writeAble, make_size]
  decide

/-- its answer is all that such a call reads if nothing is left of the calls before -/
theorem prompt_clean {a : TinyPBProtocol} {pre post : Bytes} (hready : s.status = .ready) (hin : s.incoming = [])
    (hl : Layout s.buffer pre [] post) (hlen : frameLen (withId a) ≤ 101) (hroom : 101 ≤ s.buffer.writeAble)
    (hreq : frameLen (withId (protocolOf (prompt a false) [])) < 2147483648) : Clean s (prompt a false) := by
  intro _ _ _ n incoming b' hread'
  obtain ⟨b, pre', post', -, -, -, hread, -⟩ := prompt_reads false hready hin hl hlen hroom hreq
  have heq := hread.symm.trans hread'
  simp only [Except.ok.injEq, Prod.mk.injEq] at heq
  exact .inl ⟨hl.content_eq, hin, heq.2.1.symm⟩

/-- and nothing is left of it for the next one -/
theorem prompt_responds {a : TinyPBProtocol} {pre post : Bytes} (ha : WithinLimits a) (hready : s.status = .ready)
    (hin : s.incoming = []) (hl : Layout s.buffer pre [] post) (hlen : frameLen (withId a) ≤ 101)
    (hroom : 101 ≤ s.buffer.writeAble) (hsize : s.buffer.size < 2147483648)
    (hreq : frameLen (withId (protocolOf (prompt a false) [])) < 2147483648) :
    ∃ N b' pre' post', Layout b' pre' [] post' ∧ b'.size = s.buffer.size ∧
      b'.writeIndex ≤ s.buffer.writeIndex + frameLen (withId a) ∧
      ∀ fuel, N ≤ fuel → callMethodAsync fuel s (prompt a false) = respond s (prompt a false) [] b' (sent a) := by
  obtain ⟨b, pre1, post1, hl1, hsize1, hw1, -, hcall⟩ := prompt_reads false hready hin hl hlen hroom hreq
  have hm : ∀ m ∈ [a], WithinLimits m := by
    intro m hm
    rwa [List.mem_singleton.1 hm]
  have hwire : wire [a] = frame (withId a) := by simp
  have hl2 : Layout b pre1 (wire [a]) post1 := by
    rw [hwire]
    exact hl1
  obtain ⟨b2, pre2, post2, hreach, hskip, hl3, hlt, hsize2⟩ := reach_wire [] .storage hm
    (by rw [List.append_nil]; exact hl2) (positionsFit_of_layout hl2 (hsize1.trans_lt hsize))
  obtain ⟨M, hM⟩ := (Loop.ends_reach hreach).2 (Loop.ends_of_return (decodeTurn_nil _ .storage hl3 hlt))
  have hw2 : b2.writeIndex ≤ b.writeIndex := by
    rw [List.nil_append, ← List.append_nil (frame _)] at hl1
    obtain ⟨b3, -, -, hmove, -, -, hle⟩ := moveReadIndex_layout hl1
    rw [frame_length] at hmove
    simp only [lens, List.map_cons, List.map_nil, skip, hmove, ok_bind] at hskip
    rwa [← Except.ok.inj hskip]
  refine ⟨M, b2, pre2, post2, hl3, hsize2.trans hsize1, hw2.trans hw1, fun fuel hfuel => ?_⟩
  have hdec : decode fuel [] b = some (.ok ([sent a], b2)) := Loop.run_mono hM hfuel
  rw [hcall]
  simp only [receive, show (prompt a false).expired = false from rfl, Bool.false_eq_true, if_false, hdec]

/-- two calls, each answered in time -/
theorem calls_correlated_two : ∃ N, ∀ fuel, N ≤ fuel →
    ∀ r ∈ (Machine.run (callMethodAsync fuel) connect [prompt ones false, prompt twos false]).calls, Correlated r := by
  have hans : ∀ c ∈ [prompt ones false, prompt twos false], Answers c := by
    intro c hc
    rcases List.mem_cons.1 hc with rfl | hc
    · exact ⟨ones_limits, by decide, by decide⟩
    · rw [List.mem_singleton.1 hc]
      exact ⟨twos_limits, by decide, by decide⟩
  have hroom : 101 ≤ connect.buffer.writeAble := by
    rw [connect_writeAble]
    norm_num
  have hsize : connect.buffer.size = 65536 := make_size 65536
  obtain ⟨M, b, pre, post, hl, hb, hw, hstep⟩ := prompt_responds ones_limits (a := ones) rfl rfl connect_layout
    (by decide) hroom (by rw [hsize]; norm_num) (by decide)
  have hroom' : 101 ≤ b.writeAble := by
    have hlen : frameLen (withId ones) = 28 := by decide
    have hwi : connect.buffer.writeIndex = 0 := rfl
    rw [writeAble, hb, hsize]
    omega
  obtain ⟨N, hN⟩ := calls_correlated hans
  refine ⟨max N M, fun fuel hfuel => hN fuel (le_trans (le_max_left _ _) hfuel) ⟨?_, ?_, trivial⟩⟩
  · exact prompt_clean rfl rfl connect_layout (by decide) hroom (by decide)
  · rw [hstep fuel (le_trans (le_max_right _ _) hfuel)]
    exact prompt_clean rfl rfl hl (by decide) hroom' (by decide)

/-- the answer to the first call is read after its timer has fired; the second call gets it -/
theorem calls_not_correlated : (∀ c ∈ [prompt ones true, prompt twos false], Answers c) ∧ ¬ ∃ N, ∀ fuel, N ≤ fuel →
    ∀ r ∈ (Machine.run (callMethodAsync fuel) connect [prompt ones true, prompt twos false]).calls, Correlated r := by
  refine ⟨?_, ?_⟩
  · intro c hc
    rcases List.mem_cons.1 hc with rfl | hc
    · exact ⟨ones_limits, by decide, by decide⟩
    · rw [List.mem_singleton.1 hc]
      exact ⟨twos_limits, by decide, by decide⟩
  intro ⟨N, h⟩
  obtain ⟨b1, pre1, post1, hl1, hsize1, hw1, -, hcall1⟩ := prompt_reads (s := connect) (a := ones) true rfl rfl
    connect_layout (by decide) (by rw [connect_writeAble]; norm_num) (by decide)
  set s1 : Client := complete connect (prompt ones true) [] b1
    ((prompt ones true).controller.setFailed (ascii "rpc timeout")) none with hs1
  have hstep1 : ∀ fuel, callMethodAsync fuel connect (prompt ones true) = s1 := fun fuel => hcall1 fuel
  rw [List.nil_append] at hl1
  have hsz : connect.buffer.size = 65536 := make_size 65536
  have hwi : connect.buffer.writeIndex = 0 := rfl
  have hroom : 101 ≤ s1.buffer.writeAble := by
    have hlen : frameLen (withId ones) = 28 := by decide
    have hb : s1.buffer = b1 := rfl
    rw [hlen, hwi] at hw1
    rw [hb, writeAble, hsize1, hsz]
    omega
  obtain ⟨b2, pre2, post2, hl2, hsize2, -, -, hcall2⟩ := prompt_reads (s := s1) (a := twos) false rfl rfl hl1 (by decide)
    hroom (by decide)
  have hm : ∀ m ∈ [ones, twos], WithinLimits m := by
    intro m hm
    rcases List.mem_cons.1 hm with rfl | hm
    · exact ones_limits
    · rw [List.mem_singleton.1 hm]
      exact twos_limits
  have hl2' : Layout b2 pre2 (wire [ones, twos]) post2 := by
    simpa using hl2
  have hsz2 : b2.size < 2147483648 := by
    rw [hsize2, show s1.buffer.size = 65536 from hsize1.trans hsz]
    norm_num
  obtain ⟨b3, pre3, post3, ⟨M, hM⟩, -, -⟩ := decodes_wire [] hm hl2' (positionsFit_of_layout hl2' hsz2)
  have hdec : decode (max N M) [] b2 = some (.ok ([sent ones, sent twos], b3)) := Loop.run_mono hM (le_max_right _ _)
  have hstep2 : callMethodAsync (max N M) s1 (prompt twos false) = respond s1 (prompt twos false) [] b3 (sent ones) := by
    rw [hcall2]
    simp only [receive, show (prompt twos false).expired = false from rfl, Bool.false_eq_true, if_false, hdec]
  have hrun := h (max N M) (le_max_left _ _)
  rw [Machine.run_cons, hstep1, Machine.run_cons, hstep2, Machine.run_nil] at hrun
  have hlast := hrun ⟨{ (prompt twos false).controller with finished := true }, some [1], 0, twos⟩ (by
    simp [respond, complete, sent, withId, ones, prompt])
  have heq := (hlast rfl).1
  simp [twos] at heq

end RpcChannel

end MCoroRpc
