/-
TcpStream::read (src/tcpstream.cc): a readToBuffer, then a readFromBuffer.

A call goes round the loop of readToBuffer: it asks the socket before it looks at the buffer, and it stops at the first
pause behind which it has some bytes. `Reader` is the stream between two rounds; a run is a list of calls and of what their
`recv`s meet.

- `rounds_readToBuffer`: the rounds of a call that returns are a `readToBuffer`.
- `round_cases`: what a round can do.
- `contract_iff`: what is returned is a beginning of the stream in any run; no call is suspended with bytes in the buffer
  exactly if none that begins there finds the socket empty.
- `untilEof_iff`: a read to the end of file returns what is left of the stream exactly if no pause comes in between, nor a
  full buffer, nor a reset.
-/
import MCoroRpc.Net.Reading

namespace MCoroRpc

namespace StreamRead

open TcpBuffer TcpStream Result

/-! ## Model -/

/-- a `read` that has not returned -/
structure Call where
  size : ℤ
  /-- of its readToBuffer -/
  total : ℕ
  /-- what was left of the stream when it began -/
  stream : Bytes
deriving DecidableEq, Repr

/-- a `read` that has returned -/
structure Returned where
  size : ℤ
  stream : Bytes
  result : Bytes
deriving DecidableEq, Repr

structure Reader where
  buffer : TcpBuffer
  incoming : Bytes
  call : Option Call := none
  returned : List Returned := []
  /-- what could be read from the buffer each time a call was suspended -/
  suspended : List Bytes := []
deriving DecidableEq, Repr

inductive Label where
  /-- `read(size)` is called, unless a call is under way -/
  | read (size : ℤ)
  /-- a round of the call that is under way -/
  | round (o : Recv)
deriving DecidableEq, Repr

/-- what is left of the stream -/
def Reader.stream (s : Reader) : Bytes := s.buffer.content ++ s.incoming

/-- readToBuffer has returned; `read_until_eof` is the call with a negative size -/
def finish (call : Call) (s : Reader) : Except Fault Reader := do
  let (b, result) ← s.buffer.readFromBuffer [] (if call.size < 0 then s.buffer.readAble else call.size)
  return { s with buffer := b, call := none, returned := s.returned ++ [⟨call.size, call.stream, result⟩] }

/-- one round of the loop of readToBuffer -/
def round (o : Recv) (call : Call) (s : Reader) : Except Fault Reader := do
  let b ← makeRoom s.buffer
  match recv o s.incoming b.writeAble with
  | .bytes [] => finish call { s with buffer := b }
  | .bytes (x :: bs) =>
    let b ← b.recvInto (x :: bs)
    return { s with
      buffer := b, incoming := s.incoming.drop (x :: bs).length
      call := some { call with total := call.total + (x :: bs).length } }
  | .wouldBlock =>
    if 0 < call.total then finish call { s with buffer := b }
    else return { s with buffer := b, suspended := s.suspended ++ [b.content] }
  | .connReset => finish call { s with buffer := b }
  -- the exception leaves `read`
  | .failed => return { s with buffer := b, call := none }

def step (s : Except Fault Reader) (l : Label) : Except Fault Reader := do
  let s ← s
  match l, s.call with
  | .read size, none => return { s with call := some ⟨size, 0, s.stream⟩ }
  | .round o, some call => round o call s
  | _, _ => return s

/-- a TcpStream whose peer sends `sent` -/
def start (bufferSize : ℕ) (sent : Bytes) : Reader := { buffer := make bufferSize, incoming := sent }

variable {s s' : Reader} {call : Call} {o : Recv}

@[simp] theorem step_read (size : ℤ) (h : s.call = none) :
    step (.ok s) (.read size) = .ok { s with call := some ⟨size, 0, s.stream⟩ } := by
  simp only [step, ok_bind, h, pure_ok]

@[simp] theorem step_round (o : Recv) (h : s.call = some call) : step (.ok s) (.round o) = round o call s := by
  simp only [step, ok_bind, h]

/-- a call is made while another one is under way -/
theorem step_busy (size : ℤ) (h : s.call = some call) : step (.ok s) (.read size) = .ok s := by
  simp only [step, ok_bind, h, pure_ok]

theorem step_idle (o : Recv) (h : s.call = none) : step (.ok s) (.round o) = .ok s := by
  simp only [step, ok_bind, h, pure_ok]

/-! ## The rounds of a call -/

theorem run_error (e : Fault) (ls : List Label) : Machine.run step (.error e) ls = .error e := by
  induction ls with
  | nil => rfl
  | cons l ls ih => exact ih

/-- behind a call nothing is read until the next one -/
theorem run_idle (os : List Recv) (h : s.call = none) : Machine.run step (.ok s) (os.map .round) = .ok s := by
  induction os with
  | nil => rfl
  | cons o os ih => rw [List.map_cons, Machine.run_cons, step_idle o h, ih]

theorem finish_call (h : finish call s = .ok s') : s'.call = none := by
  obtain ⟨⟨b, result⟩, -, h⟩ := bind_eq_ok.1 h
  obtain rfl := Except.ok.inj h
  rfl

/-- a round is one of readToBuffer: it ends that with the call, goes on with it, or throws -/
theorem round_readToBuffer (h : round o call s = .ok s') (hcall : s.call = some call) :
    (∃ b, readToBuffer [o] call.total s.incoming s.buffer = .ok (.done call.total, s.incoming, b) ∧
      finish call { s with buffer := b } = .ok s') ∨
    (∃ call', s'.call = some call' ∧ s'.returned = s.returned ∧
      (∀ os, readToBuffer (o :: os) call.total s.incoming s.buffer =
        readToBuffer os call'.total s'.incoming s'.buffer) ∧
      ∀ incoming b suspended, finish call' { s' with incoming := incoming, buffer := b, suspended := suspended } =
        finish call { s with incoming := incoming, buffer := b, suspended := suspended }) ∨
    s'.call = none ∧ s'.returned = s.returned := by
  obtain ⟨b, hmake, h⟩ := bind_eq_ok.1 h
  cases hr : recv o s.incoming b.writeAble with
  | bytes bs =>
    cases bs with
    | nil =>
      simp only [hr] at h
      exact .inl ⟨b, by simp only [readToBuffer, hmake, ok_bind, hr, pure_ok], h⟩
    | cons x bs =>
      simp only [hr] at h
      obtain ⟨b', hinto, h⟩ := bind_eq_ok.1 h
      obtain rfl := Except.ok.inj h
      refine .inr (.inl ⟨_, rfl, rfl, fun os => ?_, fun _ _ _ => rfl⟩)
      simp only [readToBuffer, hmake, ok_bind, hr, hinto]
  | wouldBlock =>
    by_cases htotal : 0 < call.total
    · simp only [hr, htotal, if_true] at h
      exact .inl ⟨b, by simp only [readToBuffer, hmake, ok_bind, hr, htotal, if_true, pure_ok], h⟩
    · simp only [hr, htotal, if_false, pure_ok] at h
      obtain rfl := Except.ok.inj h
      refine .inr (.inl ⟨call, hcall, rfl, fun os => ?_, fun _ _ _ => rfl⟩)
      simp only [readToBuffer, hmake, ok_bind, hr, htotal, if_false]
  | connReset =>
    simp only [hr] at h
    exact .inl ⟨b, by simp only [readToBuffer, hmake, ok_bind, hr, pure_ok], h⟩
  | failed =>
    simp only [hr, pure_ok] at h
    obtain rfl := Except.ok.inj h
    exact .inr (.inr ⟨rfl, rfl⟩)

/-- **The rounds of a call that returns are a readToBuffer**, with a readFromBuffer behind it -/
theorem rounds_readToBuffer (os : List Recv) (hcall : s.call = some call)
    (hrun : Machine.run step (.ok s) (os.map .round) = .ok s') (hret : s'.returned ≠ s.returned) :
    ∃ k n incoming b suspended,
      readToBuffer (os.take k) call.total s.incoming s.buffer = .ok (.done n, incoming, b) ∧
      finish call { s with incoming := incoming, buffer := b, suspended := suspended } = .ok s' := by
  induction os generalizing s call with
  | nil =>
    obtain rfl := Except.ok.inj hrun
    exact absurd rfl hret
  | cons o os ih =>
    rw [List.map_cons, Machine.run_cons, step_round o hcall] at hrun
    cases hround : round o call s with
    | error e =>
      rw [hround, run_error] at hrun
      cases hrun
    | ok s1 =>
      rw [hround] at hrun
      rcases round_readToBuffer hround hcall with ⟨b, hread, hfin⟩ | ⟨call', hcall', hsame, hread, hfin⟩ | ⟨hnone, hsame⟩
      · obtain rfl := Except.ok.inj ((run_idle os (finish_call hfin)).symm.trans hrun)
        exact ⟨1, call.total, s.incoming, b, s.suspended, hread, hfin⟩
      · obtain ⟨k, n, incoming, b, suspended, hrest, hlast⟩ := ih hcall' hrun (by rwa [hsame])
        exact ⟨k + 1, n, incoming, b, suspended, (hread _).trans hrest, (hfin _ _ _).symm.trans hlast⟩
      · obtain rfl := Except.ok.inj ((run_idle os hnone).symm.trans hrun)
        exact absurd hsame hret

/-! ## One round -/

/-- there is nothing for a `recv`, which would block -/
def Nothing (incoming : Bytes) : Recv → Prop
  | .data _ => incoming = []
  | .again => True
  | .eof => incoming ≠ []
  | _ => False

theorem recv_wouldBlock {incoming : Bytes} {len : ℤ} : recv o incoming len = .wouldBlock ↔ Nothing incoming o := by
  cases o with
  | data n => by_cases h : incoming = [] <;> simp [recv, Nothing, h]
  | eof => by_cases h : incoming = [] <;> simp [recv, Nothing, h]
  | _ => simp [recv, Nothing]

theorem recv_connReset {incoming : Bytes} {len : ℤ} : recv o incoming len = .connReset ↔ o = .reset := by
  cases o with
  | data n => by_cases h : incoming = [] <;> simp [recv, h]
  | eof => by_cases h : incoming = [] <;> simp [recv, h]
  | _ => simp [recv]

theorem recv_failed {incoming : Bytes} {len : ℤ} : recv o incoming len = .failed ↔ o = .error := by
  cases o with
  | data n => by_cases h : incoming = [] <;> simp [recv, h]
  | eof => by_cases h : incoming = [] <;> simp [recv, h]
  | _ => simp [recv]

/-- makeRoom leaves the buffer as it is, and `recv` is issued with length 0 -/
def Full (b : TcpBuffer) : Prop := b.writeAble = 0 ∧ 4096 ≤ b.size

theorem makeRoom_full_iff {b : TcpBuffer} (hb : WF b) :
    ∃ b', makeRoom b = .ok b' ∧ WF b' ∧ b'.content = b.content ∧ (b'.writeAble = 0 ↔ Full b) := by
  by_cases hfull : Full b
  · exact ⟨b, Reading.makeRoom_full hfull.1 hfull.2, hb, rfl, fun _ => hfull, fun _ => hfull.1⟩
  · have hroom : b.writeAble ≠ 0 ∨ b.size < 4096 := by
      by_contra hn
      rw [not_or, not_not, not_lt] at hn
      exact hfull hn
    obtain ⟨b', hmake, hb', hc, hpos⟩ := Reading.makeRoom_positive hb hroom
    exact ⟨b', hmake, hb', hc, fun h0 => absurd h0 hpos.ne', fun h => absurd h hfull⟩

/-- behind the round readToBuffer returns: a pause behind some bytes, the end, a reset, or a `recv` of length 0, which
looks like the end -/
inductive Ends (s : Reader) (total : ℕ) : Recv → Prop where
  | pause {o : Recv} (htotal : 0 < total) (hnothing : Nothing s.incoming o) : Ends s total o
  | eof (hnil : s.incoming = []) : Ends s total .eof
  | reset : Ends s total .reset
  | full (n : ℕ) (hne : s.incoming ≠ []) (hfull : Full s.buffer) : Ends s total (.data n)

/-- what a round does -/
inductive Round (o : Recv) (call : Call) (s : Reader) : Reader → Prop where
  | returns (b : TcpBuffer) (result : Bytes) (hends : Ends s call.total o) (hb : WF b)
      (hsplit : result ++ b.content = s.buffer.content) (hall : call.size < 0 → result = s.buffer.content) :
    Round o call s
      { s with buffer := b, call := none, returned := s.returned ++ [⟨call.size, call.stream, result⟩] }
  | receives (b : TcpBuffer) (bs : Bytes) (n : ℕ) (hdata : o = .data n) (hfull : ¬ Full s.buffer) (hne : bs ≠ [])
      (hin : bs ++ s.incoming.drop bs.length = s.incoming) (hb : WF b) (hc : b.content = s.buffer.content ++ bs) :
    Round o call s
      { s with
        buffer := b, incoming := s.incoming.drop bs.length
        call := some { call with total := call.total + bs.length } }
  | suspends (b : TcpBuffer) (hnothing : Nothing s.incoming o) (htotal : call.total = 0) (hb : WF b)
      (hc : b.content = s.buffer.content) :
    Round o call s { s with buffer := b, suspended := s.suspended ++ [b.content] }
  | throws (b : TcpBuffer) (herror : o = .error) (hb : WF b) (hc : b.content = s.buffer.content) :
    Round o call s { s with buffer := b, call := none }

theorem finish_eq (call : Call) (h : WF s.buffer) : ∃ b result,
    finish call s =
      .ok { s with buffer := b, call := none, returned := s.returned ++ [⟨call.size, call.stream, result⟩] } ∧
    WF b ∧ result ++ b.content = s.buffer.content ∧ (call.size < 0 → result = s.buffer.content) := by
  have hread : ∃ n : ℕ, (if call.size < 0 then s.buffer.readAble else call.size) = n ∧
      (call.size < 0 → n = s.buffer.content.length) := by
    split_ifs with hneg
    · exact ⟨_, h.layout.readAble_eq, fun _ => rfl⟩
    · exact ⟨call.size.toNat, by omega, fun hlt => absurd hlt hneg⟩
  obtain ⟨n, hn, hwhole⟩ := hread
  obtain ⟨b, pre, post, hb, hl⟩ := readFromBuffer_layout h.layout [] n
  refine ⟨b, s.buffer.content.take n, ?_, hl.wf, ?_, fun hneg => ?_⟩
  · simp only [finish, hn, hb, ok_bind, pure_ok, List.nil_append]
  · rw [hl.content_eq, List.take_append_drop]
  · rw [hwhole hneg, List.take_length]

/-- a `recv` that returns no byte and does not fail -/
theorem recv_nil {b : TcpBuffer} (hb : WF b) (hfull : b.writeAble = 0 ↔ Full s.buffer)
    (h : recv o s.incoming b.writeAble = .bytes []) (total : ℕ) : Ends s total o := by
  cases o with
  | data n =>
    by_cases hnil : s.incoming = []
    · simp [recv, hnil] at h
    · have hlen : b.writeAble = 0 := by
        have h0 := Reading.writeAble_nonneg hb
        simp only [recv, hnil, if_false, Received.bytes.injEq, List.take_eq_nil_iff, or_false] at h
        omega
      exact .full n hnil (hfull.1 hlen)
  | eof =>
    by_cases hnil : s.incoming = []
    · exact .eof hnil
    · simp [recv, hnil] at h
  | _ => simp [recv] at h

/-- a `recv` that returns some bytes -/
theorem recv_some {x : UInt8} {bs : Bytes} {len : ℤ} (h : recv o s.incoming len = .bytes (x :: bs)) :
    ∃ n, o = .data n := by
  cases o with
  | data n => exact ⟨n, rfl⟩
  | eof => by_cases hnil : s.incoming = [] <;> simp [recv, hnil] at h
  | _ => simp [recv] at h

theorem round_cases (o : Recv) (call : Call) (h : WF s.buffer) : ∃ s', round o call s = .ok s' ∧ Round o call s s' := by
  obtain ⟨b, hmake, hb, hc, hfull⟩ := makeRoom_full_iff h
  have hfinish : Ends s call.total o → ∃ s', finish call { s with buffer := b } = .ok s' ∧ Round o call s s' := by
    intro hends
    obtain ⟨b', result, heq, hb', hsplit, hall⟩ := finish_eq (s := { s with buffer := b }) call hb
    exact ⟨_, heq, .returns b' result hends hb' (hsplit.trans hc) fun hneg => (hall hneg).trans hc⟩
  simp only [round, hmake, ok_bind, pure_ok]
  cases hr : recv o s.incoming b.writeAble with
  | bytes bs =>
    cases bs with
    | nil => exact hfinish (recv_nil hb hfull hr _)
    | cons x bs =>
      obtain ⟨hin, hfit⟩ := recv_bytes (Reading.writeAble_nonneg hb) hr
      obtain ⟨b', pre', post', hinto, hl, -⟩ := recvInto_layout hb.layout hfit
      obtain ⟨n, hdata⟩ := recv_some hr
      have hnot : ¬ Full s.buffer := by
        intro hf
        rw [hfull.2 hf, List.length_cons] at hfit
        omega
      simp only [hinto, ok_bind]
      exact ⟨_, rfl, .receives b' (x :: bs) n hdata hnot (by simp) hin hl.wf (by rw [hl.content_eq, hc])⟩
  | wouldBlock =>
    have hnothing := recv_wouldBlock.1 hr
    by_cases htotal : 0 < call.total
    · simp only [htotal, if_true]
      exact hfinish (.pause htotal hnothing)
    · simp only [htotal, if_false]
      exact ⟨_, rfl, .suspends b hnothing (by omega) hb hc⟩
  | connReset =>
    obtain rfl := recv_connReset.1 hr
    exact hfinish .reset
  | failed => exact ⟨_, rfl, .throws b (recv_failed.1 hr) hb hc⟩

/-! ## A run -/

/-- nothing is lost, and a call that is under way has taken nothing -/
structure Inv (sent : Bytes) (s : Reader) : Prop where
  wf : WF s.buffer
  order : (s.returned.map (·.result)).flatten ++ s.stream = sent
  called : ∀ call, s.call = some call → call.stream = s.stream

/-- no fault, and a state with `P` -/
def Holds (P : Reader → Prop) (s : Except Fault Reader) : Prop := ∃ st, s = .ok st ∧ P st

variable {sent : Bytes}

theorem start_inv (bufferSize : ℕ) (sent : Bytes) : Inv sent (start bufferSize sent) := by
  have hl := make_layout bufferSize
  refine ⟨hl.wf, ?_, by simp [start]⟩
  simp [start, Reader.stream, hl.content_eq]

theorem Round.inv (h : Inv sent s) (hcall : s.call = some call) (hr : Round o call s s') : Inv sent s' := by
  have hcalled := h.called call hcall
  cases hr with
  | returns b result hends hb hsplit hall =>
    refine ⟨hb, ?_, by simp⟩
    rw [← h.order]
    simp [Reader.stream, ← hsplit]
  | receives b bs n hdata hfull hne hin hb hc =>
    have hstream : b.content ++ s.incoming.drop bs.length = s.stream := by
      calc b.content ++ s.incoming.drop bs.length = s.buffer.content ++ (bs ++ s.incoming.drop bs.length) := by
            rw [hc, List.append_assoc]
        _ = s.stream := by rw [hin, Reader.stream]
    refine ⟨hb, (congrArg _ hstream).trans h.order, ?_⟩
    intro call' he
    obtain rfl := Option.some.inj he
    exact hcalled.trans hstream.symm
  | suspends b hnothing htotal hb hc =>
    have hstream : b.content ++ s.incoming = s.stream := by rw [hc, Reader.stream]
    refine ⟨hb, (congrArg _ hstream).trans h.order, fun call' he => ?_⟩
    exact (h.called call' he).trans hstream.symm
  | throws b herror hb hc =>
    have hstream : b.content ++ s.incoming = s.stream := by rw [hc, Reader.stream]
    exact ⟨hb, (congrArg _ hstream).trans h.order, by simp⟩

/-- with nothing under way, all that is left of the stream is in the buffer -/
theorem Inv.rest (h : Inv sent s) (hcall : s.call = some call) (hnil : s.incoming = []) :
    s.buffer.content = call.stream := by
  calc s.buffer.content = s.stream := by rw [Reader.stream, hnil, List.append_nil]
    _ = call.stream := (h.called call hcall).symm

/-- a step is a round of the call under way, or changes at most the call -/
theorem step_cases (h : Inv sent s) (l : Label) : ∃ s', step (.ok s) l = .ok s' ∧ Inv sent s' ∧
    (s'.returned = s.returned ∧ s'.suspended = s.suspended ∨
      ∃ o call, l = .round o ∧ s.call = some call ∧ Round o call s s') := by
  cases l with
  | read size =>
    cases hcall : s.call with
    | none =>
      refine ⟨_, step_read size hcall, ⟨h.wf, h.order, ?_⟩, .inl ⟨rfl, rfl⟩⟩
      intro call he
      obtain rfl := Option.some.inj he
      rfl
    | some call => exact ⟨s, step_busy size hcall, h, .inl ⟨rfl, rfl⟩⟩
  | round o =>
    cases hcall : s.call with
    | none => exact ⟨s, step_idle o hcall, h, .inl ⟨rfl, rfl⟩⟩
    | some call =>
      obtain ⟨s', hround, hr⟩ := round_cases o call h.wf
      exact ⟨s', (step_round o hcall).trans hround, hr.inv h hcall, .inr ⟨o, call, rfl, rfl, hr⟩⟩

/-! ## The bytes in order, and no wait for bytes that are there -/

/-- what is promised of the calls, whose peer sends `sent` -/
structure Contract (sent : Bytes) (s : Reader) : Prop where
  /-- the results are a beginning of the stream -/
  order : (s.returned.map (·.result)).flatten <+: sent
  /-- a call is suspended only when the buffer is empty -/
  waits : ∀ unread ∈ s.suspended, unread = []

/-- a round finds something on the socket, if its call has read nothing and there are bytes in the buffer -/
def Supplied (s : Except Fault Reader) : Label → Prop
  | .round o => ∀ st call, s = .ok st → st.call = some call → call.total = 0 → st.buffer.content ≠ [] →
      ¬ Nothing st.incoming o
  | .read _ => True

/-- the state of a run whose calls have kept their contract -/
def Waiting (sent : Bytes) (s : Reader) : Prop := Inv sent s ∧ ∀ unread ∈ s.suspended, unread = []

theorem waiting_contract {s : Except Fault Reader} (h : Holds (Waiting sent) s) : Holds (Contract sent) s := by
  obtain ⟨st, he, hinv, hw⟩ := h
  exact ⟨st, he, ⟨st.stream, hinv.order⟩, hw⟩

theorem step_supplied {s : Except Fault Reader} (l : Label) (h : Holds (Waiting sent) s) (hl : Supplied s l) :
    Holds (Waiting sent) (step s l) := by
  obtain ⟨st, rfl, hinv, hw⟩ := h
  obtain ⟨st', hstep, hinv', ⟨-, hsame⟩ | ⟨o, call, rfl, hcall, hr⟩⟩ := step_cases hinv l
  · exact ⟨st', hstep, hinv', by rwa [hsame]⟩
  · refine ⟨st', hstep, hinv', ?_⟩
    cases hr with
    | suspends b hnothing htotal hb hc =>
      have hempty : b.content = [] := by
        by_contra hne
        exact hl st call rfl hcall htotal (by rwa [← hc]) hnothing
      simpa only [List.forall_mem_append, List.forall_mem_singleton] using ⟨hw, hempty⟩
    | _ => exact hw

theorem step_unsupplied {s : Except Fault Reader} (l : Label) (h : Holds (Waiting sent) s) (hl : ¬ Supplied s l) :
    ¬ Holds (Contract sent) (step s l) := by
  obtain ⟨st, rfl, hinv, -⟩ := h
  cases l with
  | read size => exact absurd trivial hl
  | round o =>
    simp only [Supplied, not_forall, not_not] at hl
    obtain ⟨st0, call, he, hcall, htotal, hne, hnothing⟩ := hl
    obtain rfl := Except.ok.inj he
    obtain ⟨st', hround, hr⟩ := round_cases o call hinv.wf
    rw [step_round o hcall, hround]
    rintro ⟨st0, he, hcontract⟩
    obtain rfl := Except.ok.inj he
    cases hr with
    | returns b result hends hb hsplit hall =>
      -- with nothing on the socket a call that has read nothing does not return
      cases hends with
      | pause hpos _ => omega
      | eof hnil => exact hnothing hnil
      | reset => exact hnothing
      | full n hdata _ => exact hdata hnothing
    | receives b bs n hdata hfull hsome hin hb hc =>
      subst hdata
      have hnil : st.incoming = [] := hnothing
      simp [hnil] at hin
      exact hsome hin
    | suspends b _ _ hb hc => exact hne (hc ▸ hcontract.waits _ (List.mem_append_right _ (List.mem_singleton_self _)))
    | throws b herror hb hc =>
      subst herror
      exact hnothing

/-- **The stream read contract**: for every stream and capacity, and over any run of calls and rounds, the results are a
beginning of the stream and no call waits while there are bytes in the buffer, exactly if each call that begins with bytes in
the buffer finds something on the socket as well -/
theorem contract_iff (bufferSize : ℕ) (sent : Bytes) (ls : List Label) :
    (∀ n, Holds (Contract sent) (Machine.run step (.ok (start bufferSize sent)) (ls.take n))) ↔
      Machine.Along step Supplied (.ok (start bufferSize sent)) ls :=
  Machine.along_iff (L := fun _ => True) (I := Holds (Waiting sent)) (fun _ h => waiting_contract h)
    (fun _ l _ h hl => step_supplied l h hl) (fun _ l _ h hl => step_unsupplied l h hl)
    ⟨_, rfl, start_inv bufferSize sent, by simp [start]⟩ (fun _ _ => trivial)

/-- the results are in order, whatever the calls find -/
theorem returned_prefix (bufferSize : ℕ) (sent : Bytes) (ls : List Label) :
    Holds (fun s => (s.returned.map (·.result)).flatten <+: sent)
      (Machine.run step (.ok (start bufferSize sent)) ls) := by
  have hinv : Holds (Inv sent) (Machine.run step (.ok (start bufferSize sent)) ls) := by
    refine Machine.inv_run_of_step (I := Holds (Inv sent)) ?_ ⟨_, rfl, start_inv bufferSize sent⟩ ls
    rintro s l ⟨st, rfl, h⟩
    obtain ⟨st', hstep, h', -⟩ := step_cases h l
    exact ⟨st', hstep, h'⟩
  obtain ⟨st, hrun, h⟩ := hinv
  exact ⟨st, hrun, ⟨st.stream, h.order⟩⟩

/-- two bytes arrive at once and are read one by one -/
def oneByOne : List Label := [.read 1, .round (.data 1), .round .again, .read 1, .round .again]

/-- the second call is suspended, and its byte is in the buffer -/
theorem unread_waits : Machine.run step (.ok (start 16 [97, 98])) oneByOne = .ok
      { buffer := ⟨97 :: 98 :: List.replicate 14 0, 1, 2⟩, incoming := [], call := some ⟨1, 0, [98]⟩
        returned := [⟨1, [97, 98], [97]⟩], suspended := [[98]] } ∧
    ¬ Holds (Contract [97, 98]) (Machine.run step (.ok (start 16 [97, 98])) oneByOne) := by
  have hrun : Machine.run step (.ok (start 16 [97, 98])) oneByOne = .ok
      { buffer := ⟨97 :: 98 :: List.replicate 14 0, 1, 2⟩, incoming := [], call := some ⟨1, 0, [98]⟩
        returned := [⟨1, [97, 98], [97]⟩], suspended := [[98]] } := by decide
  refine ⟨hrun, ?_⟩
  rw [hrun]
  rintro ⟨st, he, h⟩
  obtain rfl := Except.ok.inj he
  exact absurd (h.waits [98] (List.mem_singleton_self _)) (by simp)

/-! ## To the end of the file -/

/-- what is promised of `read_until_eof` -/
structure UntilEof (s : Reader) : Prop where
  /-- it returns what has been left of the stream -/
  whole : ∀ r ∈ s.returned, r.size < 0 → r.result = r.stream
  /-- it returns as soon as the end is met behind the last byte -/
  closes : ∀ call, s.call = some call → call.size < 0 → s.incoming = [] → ∃ s', step (.ok s) (.round .eof) = .ok s' ∧
    s'.call = none ∧ s'.returned = s.returned ++ [⟨call.size, call.stream, call.stream⟩]

/-- a round that ends a call although there are bytes under way -/
def CutsShort (total : ℕ) (b : TcpBuffer) : Recv → Prop
  | .data _ => Full b
  | .again | .eof => 0 < total
  | .reset => True
  | .error => False

/-- no call to the end of the file is cut short -/
def Undivided (s : Except Fault Reader) : Label → Prop
  | .round o => ∀ st call, s = .ok st → st.call = some call → call.size < 0 → st.incoming ≠ [] →
      ¬ CutsShort call.total st.buffer o
  | .read _ => True

theorem ends_iff {total : ℕ} (hne : s.incoming ≠ []) : Ends s total o ↔ CutsShort total s.buffer o := by
  constructor
  · rintro (⟨htotal, hnothing⟩ | hnil | _ | ⟨n, -, hfull⟩)
    · cases o with
      | data n => exact absurd hnothing hne
      | again => exact htotal
      | eof => exact htotal
      | _ => cases hnothing
    · exact absurd hnil hne
    · trivial
    · exact hfull
  · intro h
    cases o with
    | data n => exact .full n hne h
    | again => exact .pause h trivial
    | eof => exact .pause h hne
    | reset => exact .reset
    | error => cases h

theorem Inv.closes (h : Inv sent s) (hcall : s.call = some call) (hneg : call.size < 0) (hnil : s.incoming = []) :
    ∃ s', step (.ok s) (.round .eof) = .ok s' ∧ s'.call = none ∧
      s'.returned = s.returned ++ [⟨call.size, call.stream, call.stream⟩] := by
  obtain ⟨s', hround, hr⟩ := round_cases .eof call h.wf
  refine ⟨s', (step_round .eof hcall).trans hround, ?_⟩
  cases hr with
  | returns b result hends hb hsplit hall =>
    have hresult : result = call.stream := (hall hneg).trans (h.rest hcall hnil)
    rw [hresult]
    exact ⟨rfl, rfl⟩
  | receives b bs n hdata => cases hdata
  | suspends b hnothing => exact absurd hnil hnothing
  | throws b herror => cases herror

/-- the state of a run in which no call has been cut short -/
def Whole (sent : Bytes) (s : Reader) : Prop := Inv sent s ∧ ∀ r ∈ s.returned, r.size < 0 → r.result = r.stream

theorem whole_untilEof {s : Except Fault Reader} (h : Holds (Whole sent) s) : Holds UntilEof s := by
  obtain ⟨st, he, hinv, hw⟩ := h
  exact ⟨st, he, hw, fun _ => hinv.closes⟩

theorem step_undivided {s : Except Fault Reader} (l : Label) (h : Holds (Whole sent) s) (hl : Undivided s l) :
    Holds (Whole sent) (step s l) := by
  obtain ⟨st, rfl, hinv, hw⟩ := h
  obtain ⟨st', hstep, hinv', ⟨hsame, -⟩ | ⟨o, call, rfl, hcall, hr⟩⟩ := step_cases hinv l
  · exact ⟨st', hstep, hinv', by rwa [hsame]⟩
  · refine ⟨st', hstep, hinv', ?_⟩
    cases hr with
    | returns b result hends hb hsplit hall =>
      have hresult : call.size < 0 → result = call.stream := by
        intro hneg
        have hnil : st.incoming = [] := by
          by_contra hne
          exact hl st call rfl hcall hneg hne ((ends_iff hne).1 hends)
        exact (hall hneg).trans (hinv.rest hcall hnil)
      simpa only [List.forall_mem_append, List.forall_mem_singleton] using ⟨hw, hresult⟩
    | _ => exact hw

theorem step_divided {s : Except Fault Reader} (l : Label) (h : Holds (Whole sent) s) (hl : ¬ Undivided s l) :
    ¬ Holds UntilEof (step s l) := by
  obtain ⟨st, rfl, hinv, -⟩ := h
  cases l with
  | read size => exact absurd trivial hl
  | round o =>
    simp only [Undivided, not_forall, not_not] at hl
    obtain ⟨st0, call, he, hcall, hneg, hne, hcut⟩ := hl
    obtain rfl := Except.ok.inj he
    obtain ⟨st', hround, hr⟩ := round_cases o call hinv.wf
    rw [step_round o hcall, hround]
    rintro ⟨st0, he, heof⟩
    obtain rfl := Except.ok.inj he
    cases hr with
    | returns b result hends hb hsplit hall =>
      have hwhole := heof.whole _ (List.mem_append_right _ (List.mem_singleton_self _)) hneg
      rw [hall hneg, hinv.called call hcall, Reader.stream, List.self_eq_append_right] at hwhole
      exact hne hwhole
    -- the round returns, so it does none of the other things
    | receives b bs n hdata hfull hsome hin hb hc =>
      subst hdata
      exact hfull hcut
    | suspends b hnothing htotal hb hc =>
      cases (ends_iff hne).2 hcut with
      | pause hpos _ => omega
      | eof hnil => exact hne hnil
      | reset => exact hnothing
      | full n hdata _ => exact hdata hnothing
    | throws b herror hb hc =>
      subst herror
      exact hcut

/-- **To the end of the file**: for every stream and capacity, and over any run of calls and rounds, each call with a
negative size returns what has been left of the stream, and does so when the end is met, exactly if no such call meets a
pause behind its first bytes, a full buffer of 4096 bytes or more, or a reset as long as there are bytes under way -/
theorem untilEof_iff (bufferSize : ℕ) (sent : Bytes) (ls : List Label) :
    (∀ n, Holds UntilEof (Machine.run step (.ok (start bufferSize sent)) (ls.take n))) ↔
      Machine.Along step Undivided (.ok (start bufferSize sent)) ls :=
  Machine.along_iff (L := fun _ => True) (I := Holds (Whole sent)) (fun _ h => whole_untilEof h)
    (fun _ l _ h hl => step_undivided l h hl) (fun _ l _ h hl => step_divided l h hl)
    ⟨_, rfl, start_inv bufferSize sent, by simp [start]⟩ (fun _ _ => trivial)

/-- the second byte is still under way when the socket has been emptied of the first one: the call returns without it -/
theorem pause_returned : Machine.run step (.ok (start 16 [97, 98])) [.read (-1), .round (.data 0), .round .again] = .ok
      { buffer := ⟨97 :: List.replicate 15 0, 1, 1⟩, incoming := [98], returned := [⟨-1, [97, 98], [97]⟩] } ∧
    ¬ Holds UntilEof
      (Machine.run step (.ok (start 16 [97, 98])) [.read (-1), .round (.data 0), .round .again]) := by
  have hrun : Machine.run step (.ok (start 16 [97, 98])) [.read (-1), .round (.data 0), .round .again] = .ok
      { buffer := ⟨97 :: List.replicate 15 0, 1, 1⟩, incoming := [98], returned := [⟨-1, [97, 98], [97]⟩] } := by decide
  refine ⟨hrun, ?_⟩
  rw [hrun]
  rintro ⟨st, he, h⟩
  obtain rfl := Except.ok.inj he
  exact absurd (h.whole _ (List.mem_singleton_self _) (by decide)) (by simp)

end StreamRead

end MCoroRpc
