/-
What the caller of CallMethodAsync is told (include/rpc/rpc_channel.inl).

One call on a connected channel, whatever the socket holds and whatever arrives. `ParseFromString` of the response is a
parameter `parse`, for protobuf is not part of the repository.

- `Settled`: the call has completed, its callback has run once, and its controller says that it has not failed exactly
  if a message without an error was decoded and its payload parsed.
- `Sound`: the write and the read end, decode returns, and the payload of a message without an error parses.
- `settles_iff`: a call is settled exactly if it is `Sound`. Nothing ends a write or a read that the peer does not
  answer, an exception of decode leaves the coroutine, and the result of `ParseFromString` is thrown away.
- `unparsed_settles_not`: an answer whose payload does not parse is reported as a success.
-/
import MCoroRpc.Rpc.RpcChannel

namespace MCoroRpc

open CInt TcpBuffer TcpStream TinyPB Result

namespace RpcChannel

open RpcDispatcher (ascii)

/-! ## Model -/

/-- the write is never taken whole: then the call waits for ever, for the timer ends nothing -/
def stalled (s : Client) : Except Fault (List TinyPBProtocol × TcpBuffer) → Client
  | .error _ => { s with status := .fault }
  | .ok _ => { s with status := .suspended }

/-- a call whose write may also wait for ever (`stalls`) -/
def callMethod (fuel : ℕ) (s : Client) (c : Call) (stalls : Bool) : Client :=
  if stalls then
    match c.request with
    | none => callMethodAsync fuel s c
    | some pbData => stalled s (encode [protocolOf c pbData] (make 1024))
  else callMethodAsync fuel s c

/-- the read that follows the write, and the bytes it is given: what was under way, then the peer's answer -/
def reading (s : Client) (c : Call) : Except Fault (ReadEnd × Bytes × TcpBuffer) :=
  readToBuffer c.arrivals 0 (s.incoming ++ frame (withId c.answer)) s.buffer

/-- the request can be encoded -/
def Encodes (c : Call) (pbData : Bytes) : Prop := frameLen (withId (protocolOf c pbData)) < 2147483648

/-- `decode` has been called behind the read and has delivered `rsp` first -/
def Delivers (s : Client) (c : Call) (stalls : Bool) (rsp : TinyPBProtocol) : Prop :=
  (∃ pbData, c.request = some pbData ∧ Encodes c pbData) ∧ stalls = false ∧ c.written = true ∧ c.expired = false ∧
    ∃ n incoming b rest b', reading s c = .ok (.done n, incoming, b) ∧ Decodes [] b (.ok (rsp :: rest, b'))

section
variable {Msg : Type} (parse : Bytes → Option Msg)

/-- the call ends with `r`: once, and truthfully -/
structure Settled (s : Client) (c : Call) (stalls : Bool) (r : Completed) : Prop where
  ends : ∃ N, ∀ fuel, N ≤ fuel →
    (callMethod fuel s c stalls).status = .ready ∧ (callMethod fuel s c stalls).calls = s.calls ++ [r]
  once : r.doneRuns = 1
  truthful : r.controller.failed = false ↔ ∃ rsp, Delivers s c stalls rsp ∧ rsp.errCode = 0 ∧ (parse rsp.pbData).isSome

/-- decode of what has been read returns, and a message without an error that comes first has a payload that parses -/
def GoodBytes (b : TcpBuffer) : Prop :=
  ∃ msgs b', Decodes [] b (.ok (msgs, b')) ∧ ∀ rsp ∈ msgs.head?, rsp.errCode = 0 → (parse rsp.pbData).isSome

/-- nothing of what goes wrong happens to the call -/
def Sound (s : Client) (c : Call) (stalls : Bool) : Prop :=
  ∀ pbData, c.request = some pbData → Encodes c pbData ∧ stalls = false ∧
    (c.written = true → ∀ e incoming b, reading s c = .ok (e, incoming, b) →
      e ≠ .waiting ∧ (∀ n, e = .done n → c.expired = false → GoodBytes parse b))

end

/-! ## Behind the read -/

variable {s : Client} {c : Call}

/-- what is made of the messages decoded -/
def answered (s : Client) (c : Call) (incoming : Bytes) (b : TcpBuffer) : List TinyPBProtocol → Client
  | [] => complete s c incoming b (c.controller.setFailed (ascii "decode response failed")) none
  | rsp :: _ => respond s c incoming b rsp

theorem receive_returns (incoming : Bytes) {b b' : TcpBuffer} {msgs : List TinyPBProtocol}
    (hexp : c.expired = false) (hd : Decodes [] b (.ok (msgs, b'))) :
    ∃ N, ∀ fuel, N ≤ fuel → receive fuel s c incoming b = answered s c incoming b' msgs := by
  obtain ⟨N, hN⟩ := hd
  refine ⟨N, ?_⟩
  intro fuel hfuel
  have hdec : decode fuel [] b = some (.ok (msgs, b')) := Loop.run_mono hN hfuel
  cases msgs with
  | nil => simp only [receive, hexp, Bool.false_eq_true, if_false, hdec, answered]
  | cons rsp rest => simp only [receive, hexp, Bool.false_eq_true, if_false, hdec, answered]

/-- a decode that throws or never ends leaves the call without an end -/
theorem receive_stuck (incoming : Bytes) {b : TcpBuffer} (hexp : c.expired = false)
    (hd : ∀ msgs b', ¬ Decodes [] b (.ok (msgs, b'))) (fuel : ℕ) : (receive fuel s c incoming b).status ≠ .ready := by
  simp only [receive, hexp, Bool.false_eq_true, if_false]
  cases hdec : decode fuel [] b with
  | none => simp
  | some r =>
    cases r with
    | error e => simp
    | ok p => exact absurd ⟨fuel, hdec⟩ (hd p.1 p.2)

theorem receive_expired_eq (incoming : Bytes) {b : TcpBuffer} (hexp : c.expired = true) (fuel : ℕ) :
    receive fuel s c incoming b = complete s c incoming b (c.controller.setFailed (ascii "rpc timeout")) none :=
  if_pos hexp

/-! ## The calls that end -/

theorem encodes_ok {pbData : Bytes} (henc : Encodes c pbData) : ∃ r, encode [protocolOf c pbData] (make 1024) = .ok r := by
  have hlen : (wire [protocolOf c pbData]).length < 2147483648 := by
    unfold Encodes at henc
    simpa using henc
  obtain ⟨out, -, -, hok, -⟩ := encode_layout (make_layout 1024) hlen
  exact ⟨_, hok⟩

theorem encodes_error {pbData : Bytes} (henc : ¬ Encodes c pbData) :
    ∃ e, encode [protocolOf c pbData] (make 1024) = .error e := by
  cases hok : encode [protocolOf c pbData] (make 1024) with
  | error e => exact ⟨e, rfl⟩
  | ok r =>
    simp only [encode] at hok
    obtain ⟨⟨bs, m⟩, h1, -⟩ := bind_eq_ok.1 hok
    simp only [encoderTinyPB] at h1
    split_ifs at h1 with hfit
    have hint := (isInt_toInt (frameLen (withId (protocolOf c pbData)))).2
    exact absurd (show Encodes c pbData by unfold Encodes; omega) henc

/-- how a call stands that has reached its read -/
theorem call_reads (hready : s.status = .ready) {pbData : Bytes} (hreq : c.request = some pbData)
    (henc : Encodes c pbData) (hw : c.written = true) {e : ReadEnd} {incoming : Bytes} {b : TcpBuffer}
    (hread : reading s c = .ok (e, incoming, b)) (fuel : ℕ) : callMethod fuel s c false =
      match e with
      | .waiting => { s with incoming := incoming, buffer := b, status := .suspended }
      | .failed => complete s c incoming b (ioError c) none
      | .done _ => receive fuel s c incoming b := by
  obtain ⟨r, hok⟩ := encodes_ok henc
  unfold reading at hread
  have hcall : callMethod fuel s c false = callMethodAsync fuel s c := rfl
  rw [hcall, call_encodes fuel hready hreq, hok]
  cases e <;> simp only [exchange, hw, if_true, hread]

theorem call_not_written (hready : s.status = .ready) {pbData : Bytes} (hreq : c.request = some pbData)
    (henc : Encodes c pbData) (hw : c.written = false) (fuel : ℕ) :
    callMethod fuel s c false = complete s c s.incoming s.buffer (ioError c) none := by
  obtain ⟨r, hok⟩ := encodes_ok henc
  have hcall : callMethod fuel s c false = callMethodAsync fuel s c := rfl
  rw [hcall, call_encodes fuel hready hreq, hok]
  simp only [exchange, hw, Bool.false_eq_true, if_false]

theorem call_stalls {pbData : Bytes} (hreq : c.request = some pbData) (fuel : ℕ) :
    (callMethod fuel s c true).status ≠ .ready := by
  simp only [callMethod, hreq, if_true]
  generalize encode [protocolOf c pbData] (make 1024) = encoded
  cases encoded <;> simp [stalled]

theorem call_unencoded (hready : s.status = .ready) {pbData : Bytes} (hreq : c.request = some pbData)
    (henc : ¬ Encodes c pbData) (fuel : ℕ) : (callMethod fuel s c false).status ≠ .ready := by
  obtain ⟨e, herr⟩ := encodes_error henc
  have hcall : callMethod fuel s c false = callMethodAsync fuel s c := rfl
  rw [hcall, call_encodes fuel hready hreq, herr]
  simp [exchange]

theorem call_unserialized (hready : s.status = .ready) (hreq : c.request = none) (stalls : Bool) (fuel : ℕ) :
    callMethod fuel s c stalls =
      complete s c s.incoming s.buffer (c.controller.setFailed (ascii "serialize request failed")) none := by
  simp only [callMethod, callMethodAsync, hreq, hready, if_true, ite_self]

/-- the read ends in one of the ways of `ReadEnd`: nothing faults on the way -/
theorem reading_ends (hb : s.buffer.WF) : ∃ e incoming b, reading s c = .ok (e, incoming, b) := by
  obtain ⟨e, -, incoming, b, -, -, h, -⟩ := readToBuffer_layout c.arrivals 0 (s.incoming ++ frame (withId c.answer))
    hb.layout
  exact ⟨e, incoming, b, h⟩

section
variable {Msg : Type} {parse : Bytes → Option Msg}

/-- a call that has failed without a message is settled -/
theorem settled_failed (hdone : c.done = true) {stalls : Bool} (incoming : Bytes) (b : TcpBuffer) (ctrl : RpcController)
    (hctrl : ctrl.failed = true) (N : ℕ) (hcall : ∀ fuel, N ≤ fuel → callMethod fuel s c stalls =
      complete s c incoming b ctrl none) (hno : ∀ rsp, ¬ (Delivers s c stalls rsp ∧ rsp.errCode = 0)) :
    ∃ r, Settled parse s c stalls r := by
  refine ⟨⟨ctrl, none, if c.done then 1 else 0, c.answer⟩, ⟨N, ?_⟩, by rw [hdone]; rfl, ?_⟩
  · intro fuel hfuel
    rw [hcall fuel hfuel]
    exact ⟨rfl, rfl⟩
  · rw [hctrl]
    exact ⟨fun h => (by cases h), fun ⟨rsp, h1, h2, _⟩ => absurd ⟨h1, h2⟩ (hno rsp)⟩

theorem Delivers.unique {stalls : Bool} {rsp : TinyPBProtocol} (h : Delivers s c stalls rsp) {n : ℕ} {incoming : Bytes}
    {b b' : TcpBuffer} {msgs : List TinyPBProtocol} (hread : reading s c = .ok (.done n, incoming, b))
    (hd : Decodes [] b (.ok (msgs, b'))) : msgs.head? = some rsp := by
  obtain ⟨-, -, -, -, n', incoming', b₁, rest, b₁', h1, h2⟩ := h
  rw [hread] at h1
  simp only [Except.ok.injEq, Prod.mk.injEq] at h1
  obtain ⟨-, -, rfl⟩ := h1
  have heq := Loop.Ends.unique hd h2
  simp only [Except.ok.injEq, Prod.mk.injEq] at heq
  rw [heq.1]
  rfl

/-- a message has been decoded: the payload of one without an error parses -/
theorem settled_answered (hready : s.status = .ready) (hfresh : c.controller.failed = false) (hdone : c.done = true)
    {pbData : Bytes} (hreq : c.request = some pbData) (henc : Encodes c pbData) (hw : c.written = true)
    (hexp : c.expired = false) {n : ℕ} {incoming : Bytes} {b b' : TcpBuffer} {msgs : List TinyPBProtocol}
    (hread : reading s c = .ok (.done n, incoming, b)) (hd : Decodes [] b (.ok (msgs, b')))
    (hparse : ∀ rsp ∈ msgs.head?, rsp.errCode = 0 → (parse rsp.pbData).isSome) :
    ∃ r, Settled parse s c false r := by
  obtain ⟨N, hN⟩ := receive_returns (s := s) incoming hexp hd
  have hcall : ∀ fuel, N ≤ fuel → callMethod fuel s c false = answered s c incoming b' msgs := by
    intro fuel hfuel
    rw [call_reads hready hreq henc hw hread fuel]
    exact hN fuel hfuel
  cases msgs with
  | nil =>
    refine settled_failed hdone incoming b' _ rfl N hcall ?_
    intro rsp ⟨h, _⟩
    cases h.unique hread hd
  | cons rsp rest =>
    have hrsp : Delivers s c false rsp :=
      ⟨⟨pbData, hreq, henc⟩, rfl, hw, hexp, n, incoming, b, rest, b', hread, hd⟩
    by_cases h0 : rsp.errCode = 0
    · refine ⟨⟨{ c.controller with finished := true }, some rsp.pbData, if c.done then 1 else 0, c.answer⟩,
        ⟨N, ?_⟩, by rw [hdone]; rfl, ?_⟩
      · intro fuel hfuel
        rw [hcall fuel hfuel]
        simp only [answered, respond, h0, ne_eq, not_true_eq_false, if_false, complete, and_self]
      · exact ⟨fun _ => ⟨rsp, hrsp, h0, hparse rsp rfl h0⟩, fun _ => hfresh⟩
    · refine settled_failed hdone incoming b'
        { c.controller with failed := true, errorText := rsp.errInfo, errorCode := rsp.errCode, finished := true } rfl N
        ?_ ?_
      · intro fuel hfuel
        rw [hcall fuel hfuel]
        simp only [answered, respond, h0, ne_eq, not_false_eq_true, if_true]
      · intro rsp' ⟨h, h0'⟩
        have heq : some rsp = some rsp' := h.unique hread hd
        rw [Option.some.inj heq] at h0
        exact h0 h0'

/-! ## Which calls are settled -/

theorem settled_of_sound (hready : s.status = .ready) (hb : s.buffer.WF) (hfresh : c.controller.failed = false)
    (hdone : c.done = true) {stalls : Bool} (h : Sound parse s c stalls) : ∃ r, Settled parse s c stalls r := by
  cases hreq : c.request with
  | none =>
    refine settled_failed hdone s.incoming s.buffer _ rfl 0 (fun fuel _ => call_unserialized hready hreq stalls fuel) ?_
    intro rsp ⟨⟨⟨pbData, hreq', _⟩, _⟩, _⟩
    rw [hreq] at hreq'
    cases hreq'
  | some pbData =>
    obtain ⟨henc, rfl, hio⟩ := h pbData hreq
    cases hw : c.written with
    | false =>
      refine settled_failed hdone s.incoming s.buffer _ rfl 0 (fun fuel _ => call_not_written hready hreq henc hw fuel) ?_
      intro rsp ⟨⟨_, _, hw', _⟩, _⟩
      rw [hw] at hw'
      cases hw'
    | true =>
      obtain ⟨e, incoming, b, hread⟩ := reading_ends (c := c) hb
      obtain ⟨hwait, hgood⟩ := hio hw e incoming b hread
      have hcall := call_reads hready hreq henc hw hread
      cases e with
      | waiting => exact absurd rfl hwait
      | failed =>
        refine settled_failed hdone incoming b _ rfl 0 (fun fuel _ => hcall fuel) ?_
        intro rsp ⟨⟨_, _, _, _, n, incoming', b', _, _, hread', _⟩, _⟩
        rw [hread] at hread'
        cases hread'
      | done n =>
        cases hexp : c.expired with
        | true =>
          refine settled_failed hdone incoming b _ rfl 0
            (fun fuel _ => (hcall fuel).trans (receive_expired_eq incoming hexp fuel)) ?_
          intro rsp ⟨⟨_, _, _, hexp', _⟩, _⟩
          rw [hexp] at hexp'
          cases hexp'
        | false =>
          obtain ⟨msgs, b', hd, hparse⟩ := hgood n rfl hexp
          exact settled_answered hready hfresh hdone hreq henc hw hexp hread hd hparse

theorem Settled.completes {stalls : Bool} {r : Completed} (h : Settled parse s c stalls r) :
    ∃ fuel, (callMethod fuel s c stalls).status = .ready := by
  obtain ⟨N, hN⟩ := h.ends
  exact ⟨N, (hN N le_rfl).1⟩

theorem Settled.calls {stalls : Bool} {r : Completed} (h : Settled parse s c stalls r) (s' : Client) (N : ℕ)
    (hs : ∀ fuel, N ≤ fuel → callMethod fuel s c stalls = s') : s'.calls = s.calls ++ [r] := by
  obtain ⟨M, hM⟩ := h.ends
  rw [← hs (max N M) (le_max_left _ _)]
  exact (hM (max N M) (le_max_right _ _)).2

/-- a settled call has not been answered with a payload that does not parse -/
theorem parsed_of_settled (hready : s.status = .ready) (hfresh : c.controller.failed = false) {r : Completed}
    (h : Settled parse s c false r) {pbData : Bytes} (hreq : c.request = some pbData) (henc : Encodes c pbData)
    (hw : c.written = true) (hexp : c.expired = false) {n : ℕ} {incoming : Bytes} {b b' : TcpBuffer}
    {msgs : List TinyPBProtocol} (hread : reading s c = .ok (.done n, incoming, b))
    (hd : Decodes [] b (.ok (msgs, b'))) (rsp : TinyPBProtocol) (hrsp : rsp ∈ msgs.head?) (h0 : rsp.errCode = 0) :
    (parse rsp.pbData).isSome := by
  obtain ⟨N, hN⟩ := receive_returns (s := s) incoming hexp hd
  have hcalls := h.calls (answered s c incoming b' msgs) N fun fuel hfuel => by
    rw [call_reads hready hreq henc hw hread fuel]
    exact hN fuel hfuel
  obtain ⟨rest, rfl⟩ : ∃ rest, msgs = rsp :: rest := List.head?_eq_some_iff.1 hrsp
  -- the controller of the call that has been answered says that it has not failed
  have hr : r.controller = { c.controller with finished := true } := by
    simp only [answered, respond, h0, ne_eq, not_true_eq_false, if_false, complete, List.append_cancel_left_eq,
      List.cons.injEq, and_true] at hcalls
    rw [← hcalls]
  have hnot : r.controller.failed = false := by
    rw [hr]
    exact hfresh
  obtain ⟨rsp', h1, -, h3⟩ := h.truthful.1 hnot
  have heq : some rsp = some rsp' := h1.unique hread hd
  rwa [Option.some.inj heq]

theorem sound_of_settled (hready : s.status = .ready) (hfresh : c.controller.failed = false) {stalls : Bool}
    {r : Completed} (h : Settled parse s c stalls r) : Sound parse s c stalls := by
  intro pbData hreq
  obtain ⟨fuel, hstatus⟩ := h.completes
  have hstalls : stalls = false := by
    cases stalls with
    | false => rfl
    | true => exact absurd hstatus (call_stalls hreq fuel)
  subst hstalls
  have henc : Encodes c pbData := by
    by_contra hno
    exact call_unencoded hready hreq hno fuel hstatus
  refine ⟨henc, rfl, ?_⟩
  intro hw e incoming b hread
  have hcall := call_reads hready hreq henc hw hread fuel
  rw [hcall] at hstatus
  refine ⟨?_, ?_⟩
  · rintro rfl
    cases hstatus
  · rintro n rfl hexp
    by_cases hd : ∃ msgs b', Decodes [] b (.ok (msgs, b'))
    · obtain ⟨msgs, b', hd⟩ := hd
      exact ⟨msgs, b', hd, fun rsp hrsp h0 => parsed_of_settled hready hfresh h hreq henc hw hexp hread hd rsp hrsp h0⟩
    · simp only [not_exists] at hd
      exact absurd hstatus (receive_stuck incoming hexp hd fuel)

/-- **Completion**: on a connected channel, with a new controller and a callback, a call is settled exactly if nothing
of what goes wrong happens to it. -/
theorem settles_iff (hready : s.status = .ready) (hb : s.buffer.WF) (hfresh : c.controller.failed = false)
    (hdone : c.done = true) (stalls : Bool) : (∃ r, Settled parse s c stalls r) ↔ Sound parse s c stalls :=
  ⟨fun ⟨_, h⟩ => sound_of_settled hready hfresh h, settled_of_sound hready hb hfresh hdone⟩

end

/-- a call with a callback whose answer `ones` is there at the first `recv` -/
def asked : Call := { prompt ones false with done := true }

theorem asked_reads : ∃ n incoming b b', reading connect asked = .ok (.done n, incoming, b) ∧
    Decodes [] b (.ok ([sent ones], b')) := by
  obtain ⟨b, pre, post, hl, hsize, -, hread, -⟩ := prompt_reads (s := connect) (a := ones) false rfl rfl connect_layout
    (by decide) (by rw [connect_writeAble]; norm_num) (by decide)
  have hm : ∀ m ∈ [ones], WithinLimits m := by
    intro m hm
    rw [List.mem_singleton.1 hm]
    exact ones_limits
  have hl' : Layout b pre (wire [ones]) post := by
    simpa using hl
  have hsz : b.size < 2147483648 := by
    rw [hsize, show connect.buffer.size = 65536 from make_size 65536]
    norm_num
  obtain ⟨b', -, -, hd, -⟩ := decodes_wire [] hm hl' (positionsFit_of_layout hl' hsz)
  exact ⟨_, _, b, b', hread, hd⟩

theorem asked_encodes : Encodes asked [] := by
  unfold Encodes
  decide

/-- the payload parses -/
theorem asked_settles : ∃ r, Settled (fun bs => if bs = [1] then some () else none) connect asked false r := by
  apply (settles_iff rfl (make_layout 65536).wf rfl rfl false).2
  intro pbData hreq
  obtain rfl : [] = pbData := Option.some.inj hreq
  refine ⟨asked_encodes, rfl, ?_⟩
  intro _ e incoming b hread
  obtain ⟨n, incoming', b₁, b', h1, h2⟩ := asked_reads
  rw [hread] at h1
  simp only [Except.ok.injEq, Prod.mk.injEq] at h1
  obtain ⟨rfl, -, rfl⟩ := h1
  refine ⟨by simp, ?_⟩
  intro _ _ _
  refine ⟨[sent ones], b', h2, ?_⟩
  intro rsp hrsp _
  obtain rfl : sent ones = rsp := Option.some.inj hrsp
  decide

/-- the payload does not parse, and the call is reported as a success -/
theorem unparsed_settles_not : ¬ ∃ r, Settled (fun _ => (none : Option Unit)) connect asked false r := by
  intro ⟨r, hr⟩
  obtain ⟨n, incoming, b, b', h1, h2⟩ := asked_reads
  have hsome := parsed_of_settled rfl rfl hr rfl asked_encodes rfl rfl h1 h2 (sent ones) rfl (by decide)
  cases hsome

end RpcChannel

end MCoroRpc
