/-
Can the client read what the server answers? (RpcDispatcher::dispatch in src/rpc_provider.cc against
TinyPBCoder::decode in src/tinypb_coder.cc)

The texts of the errors 2 and 3 repeat a piece of the method name behind a prefix of their own. The name may fill its
field of 512 bytes up to the last one, and the text has a field of the same size.

- `ReadsBack`: a response is encoded, decoded and delivered with the same fields.
- `readsBack_iff`: that is so exactly if it has an id, its error text leaves room for the NUL and its frame fits `int`.
- `Readable`, `reply_reads_back_iff`: the same, said of the request.
- `reply_unreadable`: a service name of 493 bytes that is not registered.
-/
import MCoroRpc.Coder.RoundTrip
import MCoroRpc.Rpc.Provider
import MCoroRpc.Rpc.Routing

namespace MCoroRpc

namespace TinyPB

open CInt TcpBuffer Result

/-- a message encoded into a new buffer of any capacity is decoded from it as it was, and alone -/
def ReadsBack (m : TinyPBProtocol) : Prop :=
  ∀ capacity, ∃ ms b m' b', encode [m] (make capacity) = .ok (ms, b) ∧ Decodes [] b (.ok ([m'], b')) ∧ SameFields m' m

/-- what the request brings, and what no text of the dispatcher breaks -/
structure Plain (m : TinyPBProtocol) : Prop where
  msgId : m.msgId.length < 100
  methodName : m.methodName.length < 512
  msgIdNul : 0 ∉ m.msgId
  methodNameNul : 0 ∉ m.methodName
  errInfoNul : 0 ∉ m.errInfo
  errCode : IsInt m.errCode

variable {m : TinyPBProtocol}

theorem Plain.withinLimits (h : Plain m) (hinfo : m.errInfo.length < 512) : WithinLimits m :=
  ⟨h.msgId, h.methodName, hinfo, h.msgIdNul, h.methodNameNul, h.errInfoNul, h.errCode⟩

theorem sent_fields (h : m.msgId ≠ []) : SameFields (sent m) m := by
  simp only [sent, withId_of_ne h]
  exact ⟨rfl, rfl, rfl, rfl, rfl⟩

theorem sent_msgId_ne : (sent m).msgId ≠ [] := by
  change (withId m).msgId ≠ []
  unfold withId
  split_ifs with h
  · simp [defaultMsgId]
  · exact h

/-- nothing is written of a message whose frame is longer than an `int` says -/
theorem frameLen_of_encode {b b' : TcpBuffer} {ms : List TinyPBProtocol} (h : encode [m] b = .ok (ms, b')) :
    frameLen (withId m) < 2147483648 := by
  simp only [encode] at h
  obtain ⟨⟨bs, m'⟩, h1, -⟩ := bind_eq_ok.1 h
  simp only [encoderTinyPB] at h1
  split_ifs at h1 with hfit
  have hint := (isInt_toInt (frameLen (withId m))).2
  omega

/-- one frame in an otherwise empty buffer, at its front -/
theorem encode_one (hfit : frameLen (withId m) < 2147483648) (capacity : ℕ) : ∃ b post,
    encode [m] (make capacity) = .ok ([sent m], b) ∧ Layout b [] (frame (withId m)) post := by
  have hlen : (wire [m]).length < 2147483648 := by simpa using hfit
  obtain ⟨b, pre, post, h1, h2, h3, h4⟩ := encode_layout (make_layout capacity) hlen
  have hpre : pre = [] := by
    by_cases hroom : ((wire [m]).length : ℤ) ≤ (make capacity).writeAble
    · exact (h3 hroom).1
    · exact h4 (not_le.1 hroom)
  subst hpre
  exact ⟨b, post, h1, by simpa using h2⟩

/-- an error text that fills its field stops the decoder of the frame -/
theorem decodes_overrun (h : Plain m) (hinfo : 512 ≤ m.errInfo.length) {b : TcpBuffer} {post : List UInt8}
    (hb : Layout b [] (frame (withId m)) post) (hfit : frameLen (withId m) < 2147483648) :
    Decodes [] b (.error .overrun) := by
  have hb' : Layout b [] (frame (withId m) ++ []) post := by rwa [List.append_nil]
  have hfit' : ((([] : List UInt8).length : ℤ) + frameLen (withId m)) < 2147483648 := by
    rw [List.length_nil]
    omega
  -- with the default id or its own, the fields before the text stay within their limits
  have hid : (withId m).msgId.length < 100 ∧ 0 ∉ (withId m).msgId ∧ (withId m).methodName = m.methodName ∧
      (withId m).errCode = m.errCode ∧ (withId m).errInfo = m.errInfo := by
    unfold withId
    split_ifs
    · exact ⟨by simp [defaultMsgId], by simp [defaultMsgId], rfl, rfl, rfl⟩
    · exact ⟨h.msgId, h.msgIdNul, rfl, rfl, rfl⟩
  obtain ⟨h1, h2, h3, h4, h5⟩ := hid
  have hparse := parse_overrun .storage hb' h1 h2 (by rw [h3]; exact h.methodName) (by rw [h3]; exact h.methodNameNul)
    (by rw [h4]; exact h.errCode) (by rw [h5]; exact hinfo) (by rw [h5]; exact h.errInfoNul) hfit'
  have hscan := scan_frame .storage hb' hfit'
  obtain ⟨b', pre', post', hmove, -⟩ := moveReadIndex_layout hb'
  rw [frame_length] at hmove
  have hstart : toInt b.readIndex = (([] : List UInt8).length : ℤ) := by
    rw [hb.read]
    exact toInt_of_isInt (by decide)
  apply Loop.ends_of_error
  have hspan : ((([] : List UInt8).length : ℤ) + frameLen (withId m) - 1 - ([] : List UInt8).length + 1) =
      frameLen (withId m) := by ring
  simp only [decodeTurn, hstart, hscan, ok_bind, hspan, hmove, hparse, error_bind]

/-- **Exactly which messages are read back** -/
theorem readsBack_iff (h : Plain m) :
    ReadsBack m ↔ m.msgId ≠ [] ∧ m.errInfo.length < 512 ∧ frameLen m < 2147483648 := by
  constructor
  · intro hr
    obtain ⟨ms, b, m', b', h1, h2, h3⟩ := hr 0
    have hfit := frameLen_of_encode h1
    obtain ⟨b₁, post, h4, h5⟩ := encode_one hfit 0
    obtain ⟨-, rfl⟩ : ms = [sent m] ∧ b = b₁ := by
      rw [h4] at h1
      simpa [eq_comm] using h1
    have hinfo : m.errInfo.length < 512 := by
      by_contra hlong
      have := Loop.Ends.unique h2 (decodes_overrun h (not_lt.1 hlong) h5 hfit)
      cases this
    have hm : ∀ x ∈ [m], WithinLimits x := by
      intro x hx
      rw [List.mem_singleton.1 hx]
      exact h.withinLimits hinfo
    have hpos : PositionsFit b.size (([] : List UInt8).length : ℤ) (lens [m]) :=
      positionsFit_of_sum (by simp) (by simpa using hfit)
    obtain ⟨b₂, -, -, h6, -⟩ := decodes_wire [] hm (by simpa using h5) hpos
    have heq := Loop.Ends.unique h2 h6
    simp only [List.map_cons, List.map_nil, List.nil_append, Except.ok.injEq, Prod.mk.injEq, List.cons.injEq,
      and_true] at heq
    obtain ⟨rfl, -⟩ := heq
    have hid : m.msgId ≠ [] := by
      rw [← h3.msgId]
      exact sent_msgId_ne
    exact ⟨hid, hinfo, by rwa [withId_of_ne hid] at hfit⟩
  · intro ⟨hid, hinfo, hfit⟩ capacity
    have hfit' : frameLen (withId m) < 2147483648 := by rwa [withId_of_ne hid]
    have hm : ∀ x ∈ [m], WithinLimits x := by
      intro x hx
      rw [List.mem_singleton.1 hx]
      exact h.withinLimits hinfo
    obtain ⟨b, post, h1, h2⟩ := encode_one hfit' capacity
    have hpos : PositionsFit b.size (([] : List UInt8).length : ℤ) (lens [m]) :=
      positionsFit_of_sum (by simp) (by simpa using hfit')
    obtain ⟨b', -, -, h3, -⟩ := decodes_wire [] hm (by simpa using h2) hpos
    exact ⟨_, b, sent m, b', h1, h3, sent_fields hid⟩

end TinyPB

namespace RpcProvider

open CInt TinyPB RpcDispatcher

variable {Msg : Type} (services : Services Msg) (request : TinyPBProtocol)

/-- no empty id; a service that is not registered has a name below 493 bytes, a method that its service lacks one below
494 bytes; and a reply leaves room for the other fields of its frame -/
def Readable : Prop :=
  request.msgId ≠ [] ∧
    match parseServiceFullName request.methodName with
    | none => True
    | some (serviceName, methodName) =>
      match services.lookup serviceName with
      | none => serviceName.length < 493
      | some service =>
        match service.findMethodByName methodName with
        | none => methodName.length < 494
        | some method => ∀ req pbData, method.parse request.pbData = some req →
            method.serialize (method.call req) = some pbData →
            26 + request.msgId.length + request.methodName.length + pbData.length < 2147483648

variable {services request}

/-- a request that decode delivers without overrunning its fields -/
structure Deliverable (request : TinyPBProtocol) : Prop where
  msgId : request.msgId.length < 100
  methodName : request.methodName.length < 512
  msgIdNul : 0 ∉ request.msgId
  methodNameNul : 0 ∉ request.methodName

theorem split_nul (h : Deliverable request) {service method : List UInt8}
    (hname : request.methodName = service ++ dot :: method) : 0 ∉ service ∧ 0 ∉ method := by
  have h0 := h.methodNameNul
  rw [hname] at h0
  simp only [List.mem_append, List.mem_cons, not_or] at h0
  exact ⟨h0.1, h0.2.2⟩

theorem reply_plain (h : Deliverable request) : Plain (reply services request) := by
  have hd : Handled services request {} {} (dispatch services request {} {}) := dispatch_handled services request {} {}
  unfold reply
  generalize dispatch services request {} {} = d at hd
  have hkeep : ∀ code info pbData, IsInt code → 0 ∉ info →
      Plain { opened request {} with errCode := code, errInfo := info, pbData := pbData } := by
    intro code info pbData hcode hinfo
    exact ⟨h.msgId, h.methodName, h.msgIdNul, h.methodNameNul, hinfo, hcode⟩
  cases hd with
  | noName => exact hkeep 1 _ [] (by decide) (by decide)
  | noService service method hname =>
    have hs := (split_nul h hname).1
    refine hkeep 2 _ [] (by decide) ?_
    rw [List.mem_append, not_or]
    exact ⟨by decide, hs⟩
  | noMethod service method hname =>
    have hm := (split_nul h hname).2
    refine hkeep 3 _ [] (by decide) ?_
    rw [List.mem_append, not_or]
    exact ⟨by decide, hm⟩
  | noRequest => exact hkeep 4 _ [] (by decide) (by decide)
  | noReply => exact hkeep 5 _ [] (by decide) (by decide)
  | replied service method hname hm s hs h' hf req hp pbData hr => exact hkeep 0 [] pbData (by decide) (by decide)

/-- which responses fit, branch by branch of `dispatch` -/
theorem reply_fits_iff (h : Deliverable request) : (reply services request).msgId ≠ [] ∧
    (reply services request).errInfo.length < 512 ∧ frameLen (reply services request) < 2147483648 ↔
      Readable services request := by
  have hid := h.msgId
  have hname := h.methodName
  have t1 : (ascii "parse service name error").length = 24 := by decide
  have t2 : (ascii "service not found: ").length = 19 := by decide
  have t3 : (ascii "method not found: ").length = 18 := by decide
  have t4 : (ascii "parse request error").length = 19 := by decide
  have t5 : (ascii "serialize response error").length = 24 := by decide
  rw [reply_msgId]
  apply and_congr_right
  intro _
  cases hparse : parseServiceFullName request.methodName with
  | none =>
    simp only [reply, dispatch, hparse, fail, frameLen, t1, List.length_nil, iff_true]
    omega
  | some p =>
    obtain ⟨service, method⟩ := p
    obtain ⟨hsplit, -⟩ := parse_some.1 hparse
    have hlen : service.length + method.length + 1 = request.methodName.length := by
      rw [hsplit, List.length_append, List.length_cons]
      omega
    cases hs : services.lookup service with
    | none =>
      simp only [reply, dispatch, hparse, hs, fail, frameLen, List.length_append, t2, List.length_nil]
      omega
    | some s =>
      cases hf : s.findMethodByName method with
      | none =>
        simp only [reply, dispatch, hparse, hs, hf, fail, frameLen, List.length_append, t3, List.length_nil]
        omega
      | some h' =>
        cases hp : h'.parse request.pbData with
        | none =>
          simp only [reply, dispatch, hparse, hs, hf, hp, fail, frameLen, t4, List.length_nil, reduceCtorEq,
            false_implies, implies_true, iff_true]
          omega
        | some req =>
          cases hr : h'.serialize (h'.call req) with
          | none =>
            simp only [reply, dispatch, hparse, hs, hf, hp, hr, fail, frameLen, t5, List.length_nil]
            constructor
            · intro _ req' pbData hreq hser
              obtain rfl := Option.some.inj hreq
              rw [hr] at hser
              cases hser
            · intro _
              omega
          | some pbData =>
            simp only [reply, dispatch, hparse, hs, hf, hp, hr, frameLen, List.length_nil]
            constructor
            · intro hfit req' pbData' hreq hser
              obtain rfl := Option.some.inj hreq
              rw [hr] at hser
              obtain rfl := Option.some.inj hser
              omega
            · intro hfit
              have := hfit req pbData rfl hr
              omega

/-- **Replies**: the response to a deliverable request can be read exactly if the request is `Readable` -/
theorem reply_reads_back_iff (h : Deliverable request) :
    ReadsBack (reply services request) ↔ Readable services request :=
  (readsBack_iff (reply_plain h)).trans (reply_fits_iff h)

/-- a request for the method `b` of a service that is called `a` `n` times -/
def requestTo (n : ℕ) : TinyPBProtocol := { msgId := [49], methodName := List.replicate n 97 ++ dot :: [98] }

theorem requestTo_deliverable {n : ℕ} (hn : n < 510) : Deliverable (requestTo n) := by
  refine ⟨by simp [requestTo], ?_, by simp [requestTo], ?_⟩
  · simp only [requestTo, List.length_append, List.length_replicate, List.length_cons, List.length_nil]
    omega
  · simp only [requestTo, List.mem_append, List.mem_replicate, List.mem_cons, List.not_mem_nil, or_false, not_or]
    exact ⟨fun h => absurd h.2 (by decide), by decide, by decide⟩

theorem requestTo_unreadable {n : ℕ} (hn : 493 ≤ n) : ¬ Readable ([] : Services Unit) (requestTo n) := by
  intro ⟨_, h⟩
  have hparse : parseServiceFullName (requestTo n).methodName = some (List.replicate n 97, [98]) :=
    parse_append (by decide)
  rw [hparse] at h
  dsimp only [List.lookup_nil] at h
  rw [List.length_replicate] at h
  omega

/-- nothing is registered: the text of the error fills its field -/
theorem reply_unreadable :
    Deliverable (requestTo 493) ∧ ¬ ReadsBack (reply ([] : Services Unit) (requestTo 493)) := by
  have hd : Deliverable (requestTo 493) := requestTo_deliverable (by omega)
  refine ⟨hd, ?_⟩
  rw [readsBack_iff (reply_plain hd), reply_fits_iff hd]
  exact requestTo_unreadable le_rfl

/-- a request for a service with a short name is answered readably -/
theorem reply_reads_back_short : Deliverable { msgId := [49], methodName := [97, dot, 98] } ∧
    ReadsBack (reply ([] : Services Unit) { msgId := [49], methodName := [97, dot, 98] }) :=
  have hd : Deliverable { msgId := [49], methodName := [97, dot, 98] } :=
    ⟨by decide, by decide, by decide, by decide⟩
  ⟨hd, (reply_reads_back_iff hd).2 ⟨by decide, show ([97] : List UInt8).length < 493 by decide⟩⟩

end RpcProvider

end MCoroRpc
