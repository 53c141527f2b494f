/-
One connection of the server (RpcProvider::handleClient in src/rpc_provider.cc).

A `Session` is the read buffer of the stream, the bytes that the client has sent and the server has not received yet,
and what has been decoded and written so far. A turn of the loop is one label: the list of what the `recv` calls of its
readToBuffer meet. The stop flag is not set and writes succeed; an exception ends the loop.

Main results:
- `serves_whole_frames`: one response for each request that has been received, in order and with its id, in every run in
  which each read leaves a whole number of frames in the buffer; and the reads of such a run are all taken up.
- `serves_not_split`: a request that arrives in two reads is never answered.
-/
import MCoroRpc.Coder.RoundTrip
import MCoroRpc.Coder.Scan
import MCoroRpc.Core.Machine
import MCoroRpc.Net.TcpStream
import MCoroRpc.Rpc.Dispatcher

namespace MCoroRpc

namespace RpcProvider

open CInt TcpBuffer TcpStream TinyPB RpcDispatcher Result

inductive Status where
  | running
  /-- the loop has been left and the stream closed -/
  | closed
  /-- the program has gone wrong -/
  | fault
  /-- decode goes round for ever -/
  | hung
deriving DecidableEq, Repr

structure Session where
  buffer : TcpBuffer
  /-- sent by the client, not received yet -/
  incoming : Bytes
  /-- decoded so far -/
  requests : List TinyPBProtocol
  /-- written so far -/
  written : Bytes
  status : Status
deriving DecidableEq, Repr

variable {Msg : Type} (services : Services Msg)

/-- a connection on which the client sends `bytes` -/
def accept (bytes : Bytes) : Session := ⟨make 65536, bytes, [], [], .running⟩

/-- the response to a request, before it is encoded -/
def reply (request : TinyPBProtocol) : TinyPBProtocol := (dispatch services request {} {}).response

/-- the `for` loop: the bytes written for the requests -/
def answer : List TinyPBProtocol → Except Fault Bytes
  | [] => .ok []
  | request :: requests => do
    let (_, outBuf) ← encode [reply services request] (make 1024)
    let data := outBuf.bytes outBuf.readIndex outBuf.readAble
    return data ++ (← answer requests)

/-- one turn of the loop; decode runs for at most `fuel` turns of its own -/
def handleClient (fuel : ℕ) (s : Session) (os : List Recv) : Session :=
  if s.status = .running then
    match readToBuffer os 0 s.incoming s.buffer with
    | .error _ => { s with status := .fault }
    | .ok (.waiting, incoming, b) => { s with incoming := incoming, buffer := b }
    | .ok (.failed, incoming, b) => { s with incoming := incoming, buffer := b, status := .closed }
    | .ok (.done _, incoming, b) =>
      if b.readAble = 0 then { s with incoming := incoming, buffer := b, status := .closed }
      else
        match decode fuel [] b with
        | none => { s with incoming := incoming, buffer := b, status := .hung }
        -- the one exception among the faults, caught around the turn
        | some (.error .lengthError) => { s with incoming := incoming, buffer := b, status := .closed }
        | some (.error _) => { s with incoming := incoming, buffer := b, status := .fault }
        | some (.ok (msgs, b)) =>
          match answer services msgs, b.moveReadIndex b.readAble with
          | .ok data, .ok b => ⟨b, incoming, s.requests ++ msgs, s.written ++ data, .running⟩
          | _, _ => { s with incoming := incoming, buffer := b, status := .fault }
  else s

/-! ## Answers -/

theorem reply_msgId (request : TinyPBProtocol) : (reply services request).msgId = request.msgId :=
  dispatch_msgId services request {} {}

/-- the bytes written for a list of requests: one frame each -/
theorem answer_eq {requests : List TinyPBProtocol}
    (h : ∀ m ∈ requests, frameLen (withId (reply services m)) < 2147483648) :
    answer services requests = .ok (wire (requests.map (reply services))) := by
  induction requests with
  | nil => rfl
  | cons m requests ih =>
    have hlen : (wire [reply services m]).length < 2147483648 := by
      simpa using h m List.mem_cons_self
    obtain ⟨b, pre, post, h1, h2, -⟩ := encode_layout (make_layout 1024) hlen
    have hdata : b.bytes b.readIndex b.readAble = wire [reply services m] := h2.content_eq
    have htail := ih fun m' hm' => h m' (List.mem_cons_of_mem m hm')
    simp only [answer, h1, ok_bind, hdata, htail, pure_ok, List.map_cons, wire_cons, wire_nil, List.append_nil]

/-! ## Sessions whose reads end between frames -/

/-- each response in the order of the requests, with the id of its request: so for the first `k` of them -/
def Answered (ms : List TinyPBProtocol) (s : Session) (k : ℕ) : Prop :=
  ∃ responses, s.written = wire responses ∧
    responses.map (·.msgId) = (ms.take k).map fun m => (withId m).msgId

/-- the requests that have been received have been answered, and all of them once the loop has been left; nothing has gone
wrong -/
def Serves (ms : List TinyPBProtocol) (s : Session) : Prop :=
  ∃ k ≤ ms.length, s.incoming = wire (ms.drop k) ∧ Answered ms s k ∧ (s.status = .closed → k = ms.length) ∧
    s.status ≠ .fault ∧ s.status ≠ .hung

/-- the turn from `s` to `s'` receives what its read brings, and leaves the loop if that is nothing -/
def TakesUp (s : Session) (os : List Recv) (s' : Session) : Prop :=
  s.status = .running → ∀ e incoming b, readToBuffer os 0 s.incoming s.buffer = .ok (e, incoming, b) →
    s'.incoming = incoming ∧ (e = .done 0 → s'.status = .closed)

/-- the next read is neither reset nor broken, and leaves a whole number of the next frames in the buffer -/
def WholeFrames (ms : List TinyPBProtocol) (s : Session) (os : List Recv) : Prop :=
  s.status = .running → ∀ e incoming b, readToBuffer os 0 s.incoming s.buffer = .ok (e, incoming, b) →
    e ≠ .failed ∧ (e = .done 0 → s.incoming = []) ∧
      ∃ k, b.content = wire ((ms.drop s.requests.length).take k)

/-- what holds between two turns: `k` requests answered, the others under way, the buffer empty -/
structure Inv (ms : List TinyPBProtocol) (s : Session) (k : ℕ) : Prop where
  le : k ≤ ms.length
  requests : s.requests = (ms.take k).map sent
  written : s.written = wire (s.requests.map (reply services))
  incoming : s.incoming = wire (ms.drop k)
  buffer : ∃ pre post, Layout s.buffer pre [] post
  size : s.buffer.size = 65536
  status : s.status = .running ∨ s.status = .closed ∧ k = ms.length

variable {services} {ms : List TinyPBProtocol} {s : Session} {k : ℕ}

theorem sent_msgId (m : TinyPBProtocol) : (sent m).msgId = (withId m).msgId := rfl

theorem Inv.serves (h : Inv services ms s k) : Serves ms s := by
  refine ⟨k, h.le, h.incoming, ⟨_, h.written, ?_⟩, ?_, ?_, ?_⟩
  · rw [h.requests, List.map_map, List.map_map]
    apply List.map_congr_left
    intro m _
    simp only [Function.comp_apply, reply_msgId, sent_msgId]
  all_goals
    intro hs
    rcases h.status with hr | ⟨hc, hk⟩
    · rw [hr] at hs; cases hs
    · rw [hc] at hs; first | exact hk | cases hs

theorem takesUp_of_read {s s' : Session} {os : List Recv} {e : ReadEnd} {incoming : Bytes} {b : TcpBuffer}
    (hread : readToBuffer os 0 s.incoming s.buffer = .ok (e, incoming, b)) (hin : s'.incoming = incoming)
    (hend : e = .done 0 → s'.status = .closed) : TakesUp s os s' := by
  intro _ e' incoming' b' hread'
  have heq := hread.symm.trans hread'
  simp only [Except.ok.injEq, Prod.mk.injEq] at heq
  obtain ⟨rfl, rfl, -⟩ := heq
  exact ⟨hin, hend⟩

theorem accept_inv (ms : List TinyPBProtocol) : Inv services ms (accept (wire ms)) 0 :=
  ⟨Nat.zero_le _, rfl, rfl, rfl, ⟨[], _, make_layout 65536⟩, make_size 65536, .inl rfl⟩

theorem wire_append (ms ms' : List TinyPBProtocol) : wire (ms ++ ms') = wire ms ++ wire ms' := by
  simp [wire]

theorem wire_eq_nil (h : wire ms = []) : ms = [] := by
  cases ms with
  | nil => rfl
  | cons m ms =>
    have hlen := congrArg List.length h
    have h26 := frameLen_ge (withId m)
    simp at hlen
    omega

/-- a read that ends between frames: its requests are answered and the buffer is empty again -/
theorem turn_answers {ms1 : List TinyPBProtocol} {os : List Recv} {t : ℕ} {incoming pre post : Bytes} {b : TcpBuffer}
    (hrun : s.status = .running) (hread : readToBuffer os 0 s.incoming s.buffer = .ok (.done t, incoming, b))
    (hl : Layout b pre (wire ms1) post) (hsize : b.size < 2147483648) (h0 : b.readAble ≠ 0)
    (hm : ∀ m ∈ ms1, WithinLimits m) (hsmall : ∀ m ∈ ms1, frameLen (withId (reply services (sent m))) < 2147483648) :
    ∃ N b' pre' post', Layout b' pre' [] post' ∧ b'.size = b.size ∧ ∀ fuel, N ≤ fuel →
      handleClient services fuel s os = ⟨b', incoming, s.requests ++ ms1.map sent,
        s.written ++ wire ((ms1.map sent).map (reply services)), .running⟩ := by
  obtain ⟨b2, pre2, post2, ⟨N, hN⟩, hl2, hs2⟩ := decodes_wire [] hm hl (positionsFit_of_layout hl hsize)
  have hl2' : Layout b2 pre2 ([] ++ []) post2 := hl2
  obtain ⟨b3, pre3, post3, hmove, hl3, hs3, -⟩ := moveReadIndex_layout hl2'
  have hmove' : b2.moveReadIndex b2.readAble = .ok b3 := by rw [hl2.readAble_eq]; exact hmove
  have hanswer : answer services (ms1.map sent) = .ok (wire ((ms1.map sent).map (reply services))) := by
    apply answer_eq services
    intro m hmem
    obtain ⟨m', hmem', rfl⟩ := List.mem_map.1 hmem
    exact hsmall m' hmem'
  refine ⟨N, b3, pre3, post3, hl3, hs3.trans hs2, ?_⟩
  intro fuel hfuel
  have hdec : decode fuel [] b = some (.ok (ms1.map sent, b2)) := Loop.run_mono hN hfuel
  simp only [handleClient, hrun, if_true, hread, h0, if_false, hdec, hanswer, hmove']

/-- **One turn**: the requests that the read has brought are answered, or the loop is left behind the last one -/
theorem turn_inv (hm : ∀ m ∈ ms, WithinLimits m)
    (hsmall : ∀ m ∈ ms, frameLen (withId (reply services (sent m))) < 2147483648) (h : Inv services ms s k)
    (os : List Recv) (hwhole : WholeFrames ms s os) :
    ∃ N s' k', Inv services ms s' k' ∧ TakesUp s os s' ∧ ∀ fuel, N ≤ fuel → handleClient services fuel s os = s' := by
  by_cases hrun : s.status = .running
  swap
  · exact ⟨0, s, k, h, fun hr => absurd hr hrun, fun fuel _ => by simp only [handleClient, hrun, if_false]⟩
  obtain ⟨pre, post, hl⟩ := h.buffer
  obtain ⟨e, got, incoming, b, pre1, post1, hread, hgot, hl1, hsize, htotal, hwait⟩ :=
    readToBuffer_layout os 0 s.incoming hl
  have hsize1 : b.size = 65536 := by rw [hsize (by rw [h.size]; norm_num), h.size]
  rw [List.nil_append] at hl1
  obtain ⟨hfailed, hzero, n, hcontent⟩ := hwhole hrun e incoming b hread
  have hle := h.le
  have hlen : s.requests.length = k := by rw [h.requests, List.length_map, List.length_take, min_eq_left hle]
  rw [hl1.content_eq, hlen] at hcontent
  cases e with
  | failed => exact absurd rfl hfailed
  | waiting =>
    obtain ⟨-, rfl⟩ := hwait rfl
    refine ⟨0, { s with incoming := incoming, buffer := b }, k, ?_, takesUp_of_read hread rfl (by nofun), ?_⟩
    · exact ⟨hle, h.requests, h.written, by rw [← h.incoming, hgot]; rfl, ⟨_, _, hl1⟩, hsize1, .inl hrun⟩
    · intro fuel _
      simp only [handleClient, hrun, if_true, hread]
  | done t =>
    by_cases h0 : b.readAble = 0
    · -- the end of the connection
      have hnil : got = [] := by
        have := hl1.readAble_eq
        exact List.length_eq_zero_iff.1 (by omega)
      have ht : t = 0 := by rw [htotal t rfl, hnil]; rfl
      have hall : ms.drop k = [] := wire_eq_nil (by rw [← h.incoming, hzero (by rw [ht])])
      have hk : k = ms.length := le_antisymm hle (List.drop_eq_nil_iff.1 hall)
      refine ⟨0, { s with incoming := incoming, buffer := b, status := .closed }, k, ?_,
        takesUp_of_read hread rfl fun _ => rfl, ?_⟩
      · subst hnil
        exact ⟨hle, h.requests, h.written, by rw [← h.incoming, hgot]; rfl, ⟨_, _, hl1⟩, hsize1, .inr ⟨rfl, hk⟩⟩
      · intro fuel _
        simp only [handleClient, hrun, if_true, hread, h0]
    · -- whole frames: the next `n'` requests
      obtain ⟨n', hn', htake'⟩ : ∃ n', n' ≤ (ms.drop k).length ∧ (ms.drop k).take n = (ms.drop k).take n' :=
        ⟨min n (ms.drop k).length, min_le_right _ _, by rw [List.take_eq_take_min]⟩
      rw [htake'] at hcontent
      set ms1 := (ms.drop k).take n' with hms1
      have hm1 : ∀ m ∈ ms1, m ∈ ms := fun m hmem => List.mem_of_mem_drop (List.mem_of_mem_take hmem)
      rw [hcontent] at hl1
      obtain ⟨N, b', pre', post', hl', hs', hturn⟩ := turn_answers hrun hread hl1 (by rw [hsize1]; norm_num) h0
        (fun m hmem => hm m (hm1 m hmem)) (fun m hmem => hsmall m (hm1 m hmem))
      have htake : ms.take (k + n') = ms.take k ++ ms1 := by rw [List.take_add]
      have hdrop : incoming = wire (ms.drop (k + n')) := by
        have e1 : s.incoming = wire ms1 ++ wire ((ms.drop k).drop n') := by
          rw [h.incoming, ← wire_append, List.take_append_drop]
        rw [hgot, hcontent, List.append_cancel_left_eq, List.drop_drop] at e1
        exact e1
      rw [List.length_drop] at hn'
      have hsome : ReadEnd.done t ≠ .done 0 := by
        intro ht
        have hra := hl1.readAble_eq
        have hcount := htotal t rfl
        rw [← hcontent] at hra
        rw [ReadEnd.done.inj ht] at hcount
        omega
      refine ⟨N, _, k + n', ⟨by omega, ?_, ?_, hdrop, ⟨_, _, hl'⟩, hs'.trans hsize1, .inl rfl⟩,
        takesUp_of_read hread rfl fun ht => absurd ht hsome, hturn⟩
      · rw [h.requests, htake, List.map_append]
      · rw [List.map_append, wire_append, ← h.written]

/-- **Server session**: reads that end between frames are all taken up, and what they bring is answered completely, in order
and with the ids of the requests; a read of nothing ends the session -/
theorem serves_whole_frames (hm : ∀ m ∈ ms, WithinLimits m)
    (hsmall : ∀ m ∈ ms, frameLen (withId (reply services (sent m))) < 2147483648) (reads : List (List Recv)) :
    ∃ N, ∀ fuel, N ≤ fuel →
      Machine.Along (handleClient services fuel) (WholeFrames ms) (accept (wire ms)) reads →
        Machine.Along (handleClient services fuel) (fun s os => TakesUp s os (handleClient services fuel s os))
            (accept (wire ms)) reads ∧
          Serves ms (Machine.run (handleClient services fuel) (accept (wire ms)) reads) := by
  have key : ∀ s k, Inv services ms s k → ∃ N, ∀ fuel, N ≤ fuel →
      Machine.Along (handleClient services fuel) (WholeFrames ms) s reads →
        Machine.Along (handleClient services fuel) (fun s os => TakesUp s os (handleClient services fuel s os)) s reads ∧
          Serves ms (Machine.run (handleClient services fuel) s reads) := by
    induction reads with
    | nil =>
      intro s k h
      exact ⟨0, fun fuel _ _ => ⟨trivial, h.serves⟩⟩
    | cons os reads ih =>
      intro s k h
      by_cases hwhole : WholeFrames ms s os
      · obtain ⟨N, s', k', h', htakes, hstep⟩ := turn_inv hm hsmall h os hwhole
        obtain ⟨N', hN'⟩ := ih s' k' h'
        refine ⟨max N N', ?_⟩
        intro fuel hfuel halong
        have hs := hstep fuel (le_trans (le_max_left _ _) hfuel)
        rw [Machine.along_cons, hs] at halong
        obtain ⟨hrest, hserves⟩ := hN' fuel (le_trans (le_max_right _ _) hfuel) halong.2
        rw [Machine.run_cons, Machine.along_cons, hs]
        exact ⟨⟨htakes, hrest⟩, hserves⟩
      · exact ⟨0, fun fuel _ halong => absurd halong.1 hwhole⟩
  exact key _ 0 (accept_inv ms)

/-- one request in one read, and no service registered: it has been received, and one response has been written, with the
id of the request -/
theorem serves_one : ∃ N, ∀ fuel, N ≤ fuel →
    let s := Machine.run (handleClient ([] : Services Unit) fuel) (accept (wire [{}])) [[.data 34]]
    s.incoming = [] ∧ ∃ response, s.written = wire [response] ∧ response.msgId = defaultMsgId := by
  have hm : ∀ m ∈ [({} : TinyPBProtocol)], WithinLimits m := by
    intro m hm
    rw [List.mem_singleton.1 hm]
    exact ⟨by decide, by decide, by decide, by decide, by decide, by decide, by decide⟩
  have hsmall : ∀ m ∈ [({} : TinyPBProtocol)], frameLen (withId (reply ([] : Services Unit) (sent m))) < 2147483648 := by
    intro m hm
    rw [List.mem_singleton.1 hm]
    decide
  have hroom : ((34 + 1 : ℕ) : ℤ) ≤ (make 65536).writeAble := by
    simp only [writeAble, make_size]
    decide
  have htake : (wire [({} : TinyPBProtocol)]).take (34 + 1) = wire [{}] := by decide
  obtain ⟨b', pre', post', hread, hl, -⟩ := readToBuffer_once (make_layout 65536) htake (by decide) hroom
  obtain ⟨N, hN⟩ := serves_whole_frames hm hsmall [[.data 34]]
  refine ⟨N, fun fuel hfuel => ?_⟩
  have hwhole : WholeFrames [{}] (accept (wire [{}])) [.data 34] := by
    intro _ e incoming b h
    have heq := hread.symm.trans h
    simp only [Except.ok.injEq, Prod.mk.injEq] at heq
    obtain ⟨rfl, -, rfl⟩ := heq
    exact ⟨by simp, fun hz => absurd (ReadEnd.done.inj hz) (by decide), 1, hl.content_eq⟩
  obtain ⟨⟨htakes, -⟩, hserves⟩ := hN fuel hfuel ⟨hwhole, trivial⟩
  have hnil := (htakes rfl _ _ _ hread).1
  rw [List.drop_length] at hnil
  rw [Machine.run_cons, Machine.run_nil] at hserves ⊢
  generalize handleClient ([] : Services Unit) fuel (accept (wire [{}])) [.data 34] = s at hnil hserves ⊢
  obtain ⟨k, hk, hincoming, ⟨responses, hwritten, hids⟩, -⟩ := hserves
  have hdrop : ([{}] : List TinyPBProtocol).drop k = [] := wire_eq_nil (hincoming.symm.trans hnil)
  obtain rfl : k = 1 := le_antisymm hk (List.drop_eq_nil_iff.1 hdrop)
  have hlen : responses.length = 1 := by simpa using congrArg List.length hids
  obtain ⟨response, rfl⟩ := List.length_eq_one_iff.1 hlen
  exact ⟨hnil, response, hwritten, (List.cons.inj hids).1⟩

/-! ## A request in two reads -/

/-- what a read brings without a START, the last byte apart, is thrown away -/
theorem turn_discards (services : Services Msg) {fuel n : ℕ} {x pre post : Bytes} (hfuel : 1 ≤ fuel)
    (hrun : s.status = .running) (hl : Layout s.buffer pre [] post) (hx : s.incoming.take (n + 1) = x) (hne : x ≠ [])
    (hfit : ((n + 1 : ℕ) : ℤ) ≤ s.buffer.writeAble) (hsize : s.buffer.size < 2147483648)
    (hstart : PB_START ∉ x.dropLast) :
    ∃ b pre' post', handleClient services fuel s [.data n] =
        ⟨b, s.incoming.drop x.length, s.requests, s.written, .running⟩ ∧
      Layout b pre' [] post' ∧ b.size = s.buffer.size ∧ b.writeIndex ≤ s.buffer.writeIndex + x.length := by
  obtain ⟨b1, pre1, post1, h1, h2, h3, h4⟩ := readToBuffer_once hl hx hne hfit
  rw [List.nil_append] at h2
  have hq : Quiet .storage b1 := quiet_of_not_mem h2 (by have := h2.wf.write; omega) hstart
  have hdec : decode fuel [] b1 = some (.ok ([], b1)) := decode_quiet hq hfuel
  have hl2 : Layout b1 pre1 (x ++ []) post1 := by rwa [List.append_nil]
  obtain ⟨b2, pre2, post2, h5, h6, h7, h8⟩ := moveReadIndex_layout hl2
  have hra : b1.readAble = x.length := h2.readAble_eq
  have h0 : ¬ (x.length : ℤ) = 0 := by
    have := List.length_pos_iff.2 hne
    omega
  refine ⟨b2, pre2, post2, ?_, h6, h7.trans h3, h8.trans h4⟩
  simp only [handleClient, hrun, if_true, h1, hra, h0, if_false, hdec, answer, h5, List.append_nil]

/-- the peer has closed the connection and everything has been read -/
theorem turn_eof (services : Services Msg) (fuel : ℕ) {pre post : Bytes} (hrun : s.status = .running)
    (hl : Layout s.buffer pre [] post) (hroom : s.buffer.writeAble ≠ 0) (hin : s.incoming = []) :
    handleClient services fuel s [.eof] = { s with status := .closed } := by
  have hread : readToBuffer [.eof] 0 s.incoming s.buffer = .ok (.done 0, s.incoming, s.buffer) := by
    simp only [readToBuffer, makeRoom, hroom, if_false, ok_bind, recv, hin, if_true, pure_ok]
  have h0 : s.buffer.readAble = 0 := hl.readAble_eq
  simp only [handleClient, hrun, if_true, hread, h0]

/-- the START alone, then the rest of the frame, then the end of the connection: nothing is answered -/
theorem serves_not_split : ¬ ∃ N, ∀ fuel, N ≤ fuel → Serves [{}]
    (Machine.run (handleClient ([] : Services Unit) fuel) (accept (wire [{}])) [[.data 0], [.data 33], [.eof]]) := by
  intro ⟨N, h⟩
  have hfuel : 1 ≤ N + 1 := by omega
  set s0 := accept (wire [({} : TinyPBProtocol)]) with hs0
  have hl0 : Layout s0.buffer [] [] (List.replicate 65536 0) := make_layout 65536
  have hsz0 : s0.buffer.size = 65536 := make_size 65536
  have hw0 : s0.buffer.writeIndex = 0 := rfl
  have htake0 : s0.incoming.take (0 + 1) = [PB_START] := by decide
  obtain ⟨b1, pre1, post1, e1, hl1, hsz1, hw1⟩ := turn_discards [] hfuel (s := s0) rfl hl0 htake0 (by decide)
    (by simp only [writeAble, hsz0, hw0]; decide) (by rw [hsz0]; decide) (by decide)
  rw [hsz0] at hsz1
  rw [hw0] at hw1
  set s1 : Session := ⟨b1, s0.incoming.drop [PB_START].length, s0.requests, s0.written, .running⟩ with hs1
  have htake1 : s1.incoming.take (33 + 1) = (wire [{}]).drop 1 :=
    (by decide : ((wire [({} : TinyPBProtocol)]).drop 1).take (33 + 1) = (wire [{}]).drop 1)
  obtain ⟨b2, pre2, post2, e2, hl2, hsz2, hw2⟩ := turn_discards [] hfuel (s := s1) rfl hl1 htake1 (by decide)
    (by simp only [writeAble, hs1, hsz1]; simp at hw1; push_cast; omega) (by simp only [hs1, hsz1]; decide) (by decide)
  rw [show s1.buffer.size = 65536 from hsz1] at hsz2
  set s2 : Session := ⟨b2, s1.incoming.drop ((wire [({} : TinyPBProtocol)]).drop 1).length, s1.requests, s1.written,
    .running⟩ with hs2
  have hroom : s2.buffer.writeAble ≠ 0 := by
    have hlen : ((wire [({} : TinyPBProtocol)]).drop 1).length = 34 := by decide
    simp only [writeAble, hs2, hsz2]
    rw [hlen] at hw2
    simp only [hs1] at hw2
    simp at hw1
    omega
  have hrun := h (N + 1) (by omega)
  rw [Machine.run_cons, e1, Machine.run_cons, e2, Machine.run_cons, turn_eof [] (N + 1) rfl hl2 hroom rfl] at hrun
  obtain ⟨k, -, -, ⟨responses, hw, hids⟩, hk, -⟩ := hrun
  have hk1 : k = 1 := hk rfl
  have hnil : responses = [] := wire_eq_nil hw.symm
  rw [hnil, hk1] at hids
  simp at hids

end RpcProvider

end MCoroRpc
