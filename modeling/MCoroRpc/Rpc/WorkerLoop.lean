/-
What workerLoop makes of the answer to a request (RpcChannel::workerLoop in include/rpc/rpc_channel.inl).

One round of the loop, from the request that it has taken to the point where the next round begins: the request is
encoded and written, and the answer read. Behind the read the round decodes the read buffer, drops the messages, looks at
the outcome of the read, and decodes the read buffer once more. `ParseFromString` is a parameter `parse`, and so is the
text `what` of std::length_error.

- `Fills`: the round ends with the response filled in, and a controller that is finished and has not failed.
- `never_fills`: that never happens when there is something in the read buffer.
- `answer_lost`: an answer that can be read whole is dropped, and the request fails with "decode response failed".
-/
import MCoroRpc.Coder.RoundTrip
import MCoroRpc.Coder.Scan
import MCoroRpc.Coro.WaitFor
import MCoroRpc.Rpc.RpcChannel

namespace MCoroRpc

open CInt TcpBuffer TcpStream TinyPB Result

namespace WorkerLoop

open RpcDispatcher (ascii)

/-! ## Model -/

/-- the message at `req.response` -/
inductive Response (Msg : Type) where
  /-- as it came -/
  | given
  | parsed (m : Msg)
  /-- behind a `ParseFromString` that has failed -/
  | broken

structure RpcRequest (Msg : Type) where
  req : TinyPBProtocol
  response : Response Msg
  controller : RpcController
  /-- a callback is given -/
  done : Bool
  /-- how often it has run -/
  doneRuns : ℕ

/-- how a round ends -/
inductive Round (Msg : Type) where
  /-- the next round begins, with `m_connected` and with the read buffer of `m_stream`, if that is not null -/
  | next (connected : Bool) (stream : Option TcpBuffer) (req : RpcRequest Msg)
  /-- the same behind an exception, with `m_connected` cleared -/
  | raised (req : RpcRequest Msg)
  /-- decode goes round for ever -/
  | hung
  /-- an exception has left the loop, or the program has gone wrong -/
  | fault

/-- what the world does during a round -/
structure Trip where
  write : WaitForResult ℕ
  read : WaitForResult ℕ
  /-- the read buffer behind the read -/
  buffer : TcpBuffer

variable {Msg : Type} (parse : Bytes → Option Msg) (what : Bytes)

/-- `if (req.done) req.done->Run()` -/
def RpcRequest.runDone (req : RpcRequest Msg) : RpcRequest Msg :=
  { req with doneRuns := req.doneRuns + if req.done then 1 else 0 }

def notifyRequestFailed (error : Bytes) (req : RpcRequest Msg) : RpcRequest Msg :=
  { req with controller := req.controller.setFailed error }.runDone

/-- a decode inside the `try` -/
def decodeOr (fuel : ℕ) (b : TcpBuffer) (req : RpcRequest Msg) (k : List TinyPBProtocol → TcpBuffer → Round Msg) :
    Round Msg :=
  match decode fuel [] b with
  | none => .hung
  | some (.error .lengthError) => .raised (notifyRequestFailed (ascii "rpc error: " ++ what) req)
  | some (.error _) => .fault
  | some (.ok (msgs, b)) => k msgs b

/-- what is made of the messages decoded; each of them is a TinyPBProtocol -/
def respond (connected : Bool) (req : RpcRequest Msg) (rspMsgs : List TinyPBProtocol) (b : TcpBuffer) : Round Msg :=
  .next connected (some b)
    (match rspMsgs with
    | [] => notifyRequestFailed (ascii "decode response failed") req
    | rsp :: _ =>
      match parse rsp.pbData with
      | none => notifyRequestFailed (ascii "parse response failed") { req with response := .broken }
      | some m =>
        let req := { req with response := .parsed m }
        if rsp.errCode ≠ 0 then
          { req with controller := { req.controller with errorCode := rsp.errCode }.setFailed rsp.errInfo }.runDone
        else { req with controller := { req.controller with finished := true } }.runDone)

/-- the outcome of the read is looked at, then the read buffer is decoded -/
def checkRead (fuel : ℕ) (connected : Bool) (req : RpcRequest Msg) (read : WaitForResult ℕ) (b : TcpBuffer) :
    Round Msg :=
  if read.ok = false then .next false (some b) (notifyRequestFailed (ascii "rpc read error") req)
  else if read.isTimeout then
    .next false none (notifyRequestFailed (ascii "rpc read timeout, connection closed") req)
  else decodeOr what fuel b req (respond parse connected req)

/-- behind the read -/
def received (fuel : ℕ) (connected : Bool) (req : RpcRequest Msg) (read : WaitForResult ℕ) (b : TcpBuffer) :
    Round Msg :=
  if read.ok ∧ read.isTimeout = false ∧ 0 < b.readAble then
    -- the messages of the first decode are dropped
    decodeOr what fuel b req fun _ b => checkRead parse what fuel connected req read b
  else checkRead parse what fuel connected req read b

/-- the encoded request is written and the answer read -/
def exchange (fuel : ℕ) (connected : Bool) (b : TcpBuffer) (req : RpcRequest Msg) (t : Trip)
    (encoded : Except Fault (List TinyPBProtocol × TcpBuffer)) : Round Msg :=
  match encoded with
  | .error _ => .fault
  | .ok _ =>
    if t.write.ok = false then .next false (some b) (notifyRequestFailed (ascii "rpc write error") req)
    else if t.write.isTimeout then
      .next false none (notifyRequestFailed (ascii "rpc write timeout, connection closed") req)
    else received parse what fuel connected req t.read t.buffer

/-- a round with the request `req`, on the stream that has the read buffer `stream` -/
def round (fuel : ℕ) (connected : Bool) (stream : Option TcpBuffer) (req : RpcRequest Msg) (t : Trip) : Round Msg :=
  match stream with
  | none => .next connected none (notifyRequestFailed (ascii "connection closed") req)
  | some b => exchange parse what fuel connected b req t (encode [req.req] (make 1024))

/-! ## The result of a round -/

/-- the round has ended with a response and a controller that is finished and has not failed -/
def Round.Filled (m : Msg) : Round Msg → Prop
  | .next _ _ req => req.response = .parsed m ∧ req.controller.finished = true ∧ req.controller.failed = false
  | .raised _ | .hung | .fault => False

/-- the round ends so, as soon as it is given enough fuel -/
def Fills (m : Msg) (r : ℕ → Round Msg) : Prop := ∃ N, ∀ fuel, N ≤ fuel → (r fuel).Filled m

/-- the frame of the answer is in the read buffer, with other bytes before and behind it -/
def Holds (b : TcpBuffer) (answer : TinyPBProtocol) : Prop :=
  ∃ before after, b.content = before ++ (frame (withId answer) ++ after)

section
variable {parse what} {fuel : ℕ} {connected : Bool} {req : RpcRequest Msg} {read : WaitForResult ℕ} {b b' : TcpBuffer}
  {t : Trip} {answer : TinyPBProtocol}

theorem not_filled_of_failed (m : Msg) (connected : Bool) (stream : Option TcpBuffer) (error : Bytes) :
    ¬ (Round.next connected stream (notifyRequestFailed error req)).Filled m := by
  rintro ⟨-, -, hfailed⟩
  cases hfailed

/-- a round that comes to some other end with enough fuel -/
theorem not_fills_of_eventually {m : Msg} {r : ℕ → Round Msg} {result : Round Msg} {N : ℕ}
    (h : ∀ fuel, N ≤ fuel → r fuel = result) (hresult : ¬ result.Filled m) : ¬ Fills m r := by
  rintro ⟨N', hfills⟩
  have hfilled := hfills (max N N') (le_max_right _ _)
  rw [h _ (le_max_left _ _)] at hfilled
  exact hresult hfilled

/-- a decode that returns goes on with what it has left, in which there is no frame -/
theorem decodeOr_cases (k : List TinyPBProtocol → TcpBuffer → Round Msg) (m : Msg)
    (h : (decodeOr what fuel b req k).Filled m) : ∃ msgs b', Quiet .storage b' ∧ decode fuel [] b = some (.ok (msgs, b')) ∧
      (k msgs b').Filled m := by
  unfold decodeOr at h
  split at h
  · exact h.elim
  · exact h.elim
  · exact h.elim
  · next msgs b' hdecode => exact ⟨msgs, b', quiet_of_decodes ⟨fuel, hdecode⟩, hdecode, h⟩

/-- there is nothing left for the second decode -/
theorem checkRead_not_filled (hquiet : Quiet .storage b) (m : Msg) :
    ¬ (checkRead parse what fuel connected req read b).Filled m := by
  intro h
  unfold checkRead at h
  split_ifs at h
  · exact not_filled_of_failed m _ _ _ h
  · exact not_filled_of_failed m _ _ _ h
  · obtain ⟨msgs, b', -, hdecode, hfilled⟩ := decodeOr_cases _ m h
    have hfuel : 1 ≤ fuel := by
      cases fuel with
      | zero => cases hdecode
      | succ fuel => exact Nat.succ_pos fuel
    rw [decode_quiet hquiet hfuel] at hdecode
    obtain ⟨rfl, rfl⟩ := Prod.mk.inj (Except.ok.inj (Option.some.inj hdecode))
    exact not_filled_of_failed m _ _ _ hfilled

theorem received_not_filled (hsome : 0 < b.readAble) (m : Msg) :
    ¬ (received parse what fuel connected req read b).Filled m := by
  intro h
  unfold received at h
  split_ifs at h with hread
  · obtain ⟨msgs, b', hquiet, -, hfilled⟩ := decodeOr_cases _ m h
    exact checkRead_not_filled hquiet m hfilled
  · -- the read has failed, or its timer has fired
    unfold checkRead at h
    split_ifs at h with hok htimeout
    · exact not_filled_of_failed m _ _ _ h
    · exact not_filled_of_failed m _ _ _ h
    · exact absurd ⟨by simpa using hok, by simpa using htimeout, hsome⟩ hread

theorem Holds.readAble (h : Holds b answer) : 0 < b.readAble := by
  obtain ⟨before, after, hcontent⟩ := h
  by_contra hle
  have hnone : b.content = [] := by
    rw [content, bytes, Int.toNat_of_nonpos (not_lt.1 hle), List.take_zero]
  have hlen := congrArg List.length (hnone.symm.trans hcontent)
  have h26 := frameLen_ge (withId answer)
  simp only [List.length_nil, List.length_append, frame_length] at hlen
  omega

theorem exchange_not_filled (hsome : 0 < t.buffer.readAble) (encoded : Except Fault (List TinyPBProtocol × TcpBuffer))
    (m : Msg) : ¬ (exchange parse what fuel connected b req t encoded).Filled m := by
  intro h
  unfold exchange at h
  split at h
  · exact h.elim
  · split_ifs at h
    · exact not_filled_of_failed m _ _ _ h
    · exact not_filled_of_failed m _ _ _ h
    · exact received_not_filled hsome m h

/-- both decodes return, and the second one has nothing to deliver -/
theorem received_whole {pre post : List UInt8} (hm : WithinLimits answer) (h : Layout b pre (wire [answer]) post)
    (hsize : b.size < 2147483648) (hok : read.ok = true) (htimeout : read.isTimeout = false) :
    ∃ N b', b'.readAble = 0 ∧ ∀ fuel, N ≤ fuel → received parse what fuel connected req read b =
      .next connected (some b') (notifyRequestFailed (ascii "decode response failed") req) := by
  have hms : ∀ m ∈ [answer], WithinLimits m := by
    intro m hmem
    rw [List.mem_singleton.1 hmem]
    exact hm
  obtain ⟨b', pre', post', hdecodes, hl, -⟩ := decodes_wire [] hms h (positionsFit_of_layout h hsize)
  have hquiet := quiet_of_decodes hdecodes
  obtain ⟨N, hN⟩ := hdecodes
  have h26 := frameLen_ge (withId answer)
  have hsome : 0 < b.readAble := by
    rw [h.readAble_eq, wire_length, lens_cons, lens_nil]
    simp only [List.sum_cons, List.sum_nil]
    omega
  refine ⟨N + 1, b', hl.readAble_eq, fun fuel hfuel => ?_⟩
  have hfirst : decode fuel [] b = some (.ok ([sent answer], b')) := Loop.run_mono hN (by omega)
  have hsecond : decode fuel [] b' = some (.ok ([], b')) := decode_quiet hquiet (by omega)
  rw [received, if_pos ⟨hok, htimeout, hsome⟩]
  simp only [decodeOr, hfirst, checkRead, hok, htimeout, hsecond, respond, Bool.false_eq_true, Bool.true_eq_false, if_false]

theorem round_some (b : TcpBuffer) : round parse what fuel connected (some b) req t =
    exchange parse what fuel connected b req t (encode [req.req] (make 1024)) := by
  rw [round]

theorem exchange_written {encoded : Except Fault (List TinyPBProtocol × TcpBuffer)}
    {r : List TinyPBProtocol × TcpBuffer} (hencoded : encoded = .ok r) (hwrite : t.write.ok = true)
    (hwritten : t.write.isTimeout = false) :
    exchange parse what fuel connected b req t encoded = received parse what fuel connected req t.read t.buffer := by
  simp only [hencoded, exchange, hwrite, hwritten, Bool.false_eq_true, Bool.true_eq_false, if_false]

/-- **The answer is lost**: a request that is written, and whose answer is read whole and in time, fails for want of an
answer -/
theorem answer_lost {pre post : List UInt8} (stream : TcpBuffer) (hreq : (wire [req.req]).length < 2147483648)
    (hwrite : t.write.ok = true) (hwritten : t.write.isTimeout = false) (hm : WithinLimits answer)
    (h : Layout t.buffer pre (wire [answer]) post) (hsize : t.buffer.size < 2147483648) (hok : t.read.ok = true)
    (htimeout : t.read.isTimeout = false) :
    ∃ N b', b'.readAble = 0 ∧ ∀ fuel, N ≤ fuel → round parse what fuel connected (some stream) req t =
      .next connected (some b') (notifyRequestFailed (ascii "decode response failed") req) := by
  obtain ⟨out, -, -, hencode, -⟩ := encode_layout (make_layout 1024) hreq
  simp only [round_some, exchange_written hencode hwrite hwritten]
  exact received_whole hm h hsize hok htimeout

end

/-- **The result of a request**: whatever request workerLoop has taken, wherever the frame of its answer stands in the
read buffer and whatever the write and the read have come to, the round does not end with the response filled in and a
controller that is finished and has not failed. -/
theorem never_fills {Msg : Type} (parse : Bytes → Option Msg) (what : Bytes) (connected : Bool)
    (stream : Option TcpBuffer) (req : RpcRequest Msg) (t : Trip) {answer : TinyPBProtocol}
    (hanswer : Holds t.buffer answer) (m : Msg) : ¬ Fills m fun fuel => round parse what fuel connected stream req t := by
  intro ⟨N, hfills⟩
  have h := hfills N le_rfl
  dsimp only at h
  cases stream with
  | none => exact not_filled_of_failed m _ _ _ h
  | some b =>
    rw [round_some] at h
    generalize encode [req.req] (make 1024) = encoded at h
    exact exchange_not_filled hanswer.readAble encoded m h

/-- a request that has come with a callback -/
def asked : RpcRequest Bytes := ⟨{}, .given, {}, true, 0⟩

/-- the answer `{}` between some other bytes -/
def surrounded : TcpBuffer := ⟨[7, 7] ++ (frame (withId {}) ++ [7]), 0, 38⟩

/-- a write and a read that end in time -/
def inTime (b : TcpBuffer) : Trip := ⟨⟨true, some 35, false⟩, ⟨true, some 35, false⟩, b⟩

theorem never_fills_surrounded : Holds (inTime surrounded).buffer {} ∧
    ¬ Fills [] fun fuel => round some [] fuel true (some (make 65536)) asked (inTime surrounded) := by
  have hholds : Holds (inTime surrounded).buffer {} := ⟨[7, 7], [7], by decide⟩
  exact ⟨hholds, never_fills some [] true (some (make 65536)) asked (inTime surrounded) hholds []⟩

/-- the read buffer holds the answer `{}` and nothing else -/
def whole : TcpBuffer := ⟨frame (withId {}), 0, 35⟩

theorem whole_layout : Layout whole [] (wire [{}]) [] := ⟨by decide, by decide, by decide⟩

theorem withinLimits_empty : WithinLimits {} :=
  ⟨by decide, by decide, by decide, by decide, by decide, by decide, by decide⟩

/-- its payload parses, and yet the request fails, every time -/
theorem answer_not_taken : whole.content = frame (withId {}) ∧
    ¬ Fills [] fun fuel => round some [] fuel true (some (make 65536)) asked (inTime whole) := by
  refine ⟨by decide, ?_⟩
  generalize make 65536 = stream
  have hreq : (wire [asked.req]).length < 2147483648 := by decide
  have hsize : (inTime whole).buffer.size < 2147483648 := by decide
  have hlayout : Layout (inTime whole).buffer [] (wire [{}]) [] := whole_layout
  obtain ⟨N', b', -, hlost⟩ := @answer_lost Bytes some [] true asked (inTime whole) {} [] [] stream hreq rfl rfl
    withinLimits_empty hlayout hsize rfl rfl
  exact not_fills_of_eventually hlost fun h => not_filled_of_failed _ _ _ _ h

end WorkerLoop

end MCoroRpc
