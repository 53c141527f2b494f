/-
accept on a listening socket (include/net/tcpservice.hpp).

`accept(timeout)` awaits wait_for of `accept()`, which waits until the socket is readable and calls accept4. A
`TcpService` is the socket and the call under way; the calls are made one after another. The kernel decides what accept4
returns and when the socket is readable, the clock when the timer of the call expires.

The value of the inner accept is a TcpStream, which closes its descriptor when it is destroyed. When wait_for reports the
timer, `accept(timeout)` throws, and the stream is destroyed with the result.

- `kept_iff`: no descriptor that accept4 has returned is closed, in every state of a run, exactly if no inner accept gets
  one when the timer of its call has expired.
-/
import MCoroRpc.Coro.WaitFor

namespace MCoroRpc

namespace TcpService

/-- what accept4 returns -/
inductive Accept4 where
  | fd (client : ℕ)
  /-- EAGAIN -/
  | again
  | error (errno : ℕ)
deriving DecidableEq, Repr

/-- the exceptions of the inner accept -/
inductive SystemError where
  /-- EBADF: the service has been closed -/
  | closed
  | accept (errno : ℕ)
deriving DecidableEq, Repr

/-- the exceptions of `accept(timeout)` -/
inductive AcceptError where
  | timeoutException
  | closed
  | runtimeError
deriving DecidableEq, Repr

inductive Inner where
  /-- scheduled, not started -/
  | scheduled
  /-- suspended in its ReadAwaiter -/
  | suspended
  | ended
deriving DecidableEq, Repr

end TcpService

open TcpService in
structure TcpService where
  /-- `m_listen_fd` is not negative -/
  listening : Bool
  call : Option (WaitFor ℕ SystemError)
  inner : Inner
  /-- what accept4 has returned -/
  accepted : List ℕ
  /-- what the calls have returned -/
  returned : List (Except AcceptError ℕ)
  /-- the descriptors of streams that have been destroyed -/
  destroyed : List ℕ

namespace TcpService

/-! ## Model -/

def make : TcpService := ⟨true, none, .ended, [], [], []⟩

/-- the descriptors in the streams that the callers have got -/
def handed (s : TcpService) : List ℕ := s.returned.filterMap Except.toOption

/-- `accept(timeout)`: the timer is started and the inner accept scheduled -/
def accept (waitId : ℕ) (s : TcpService) : TcpService :=
  match s.call with
  | none => { s with call := some (WaitFor.start waitId none), inner := .scheduled }
  | some _ => s

/-- the inner accept ends -/
def endInner (r : Except SystemError ℕ) (w : WaitFor ℕ SystemError) (s : TcpService) : TcpService :=
  { s with call := some (w.finish r), inner := .ended }

/-- the inner accept is started: it looks at the descriptor and waits -/
def enter (s : TcpService) : TcpService :=
  match s.call, s.inner with
  | some w, .scheduled =>
    if s.listening then { s with inner := .suspended } else s.endInner (.error .closed) w
  | _, _ => s

/-- the socket is readable: the inner accept goes on -/
def readable (r : Accept4) (s : TcpService) : TcpService :=
  match s.call, s.inner with
  | some w, .suspended =>
    if s.listening then
      match r with
      | .fd client => { s with accepted := s.accepted ++ [client] }.endInner (.ok client) w
      | .again => s
      | .error errno => s.endInner (.error (.accept errno)) w
    else s.endInner (.error .closed) w
  | _, _ => s

/-- `accept(timeout)` behind its `co_await` -/
def goOn (res : WaitForResult ℕ) (s : TcpService) : TcpService :=
  if res.isTimeout then
    { s with
      call := none
      returned := s.returned ++ [.error .timeoutException]
      destroyed := s.destroyed ++ res.value.toList }
  else
    match res.ok, res.value with
    | true, some client => { s with call := none, returned := s.returned ++ [.ok client] }
    | _, _ => { s with
        call := none
        returned := s.returned ++ [.error (if s.listening then .runtimeError else .closed)] }

/-- the loop runs the front of the ready queue -/
def execute (s : TcpService) : TcpService :=
  match s.call with
  | none => s
  | some w =>
    match w.ready, w.result with
    | .caller :: _, some res => s.goOn res
    | _, _ => { s with call := some w.execute }

inductive Label where
  | accept (waitId : ℕ)
  | enter
  | readable (r : Accept4)
  | expire
  | execute
  | close
deriving DecidableEq, Repr

def step (s : TcpService) : Label → TcpService
  | .accept waitId => s.accept waitId
  | .enter => s.enter
  | .readable r => s.readable r
  | .expire => { s with call := s.call.map WaitFor.expire }
  | .execute => s.execute
  | .close => { s with listening := false }

/-! ## Every descriptor is handed over -/

/-- the ready queue holds nothing of the call -/
def Served (s : TcpService) : Prop := ∀ w, s.call = some w → w.ready = []

/-- as soon as the queue has been served, every descriptor that accept4 has returned is in a stream that a caller has
got, and none has been closed -/
def Kept (s : TcpService) : Prop :=
  ∃ n, Served (execute^[n] s) ∧ (execute^[n] s).handed = (execute^[n] s).accepted ∧ (execute^[n] s).destroyed = []

/-- accept4 returns a descriptor before the timer of the call has expired -/
def InTime (s : TcpService) : Label → Prop
  | .readable (.fd _) => s.inner = .suspended → s.listening = true → ∀ w, s.call = some w → w.late = false
  | _ => True

variable {s : TcpService}

/-- what the end of the inner accept leaves to be handed over -/
def Owes (s : TcpService) (w : WaitFor ℕ SystemError) : Prop :=
  match w.task with
  | some (.ok client) => s.accepted = s.handed ++ [client] ∧ w.late = false
  | _ => s.accepted = s.handed

structure Busy (s : TcpService) (w : WaitFor ℕ SystemError) : Prop where
  inv : WaitFor.Inv w
  /-- the caller is in the queue as long as it has not gone on -/
  caller : w.result.isSome ↔ .caller ∈ w.ready
  inner : s.inner ≠ .ended → w.task = none
  owes : Owes s w

structure Inv (s : TcpService) : Prop where
  destroyed : s.destroyed = []
  idle : s.call = none → s.accepted = s.handed
  busy : ∀ w, s.call = some w → Busy s w

theorem handed_snoc {s' : TcpService} {r : Except AcceptError ℕ} (h : s'.returned = s.returned ++ [r]) :
    s'.handed = s.handed ++ r.toOption.toList := by
  cases r <;> simp [handed, h, Except.toOption]

theorem execute_caller {w : WaitFor ℕ SystemError} {rest : List Ready} {res : WaitForResult ℕ} (hcall : s.call = some w)
    (hready : w.ready = .caller :: rest) (hres : w.result = some res) : s.execute = s.goOn res := by
  simp only [execute, hcall, hready, hres]

theorem execute_other {w : WaitFor ℕ SystemError} (hcall : s.call = some w)
    (hno : ¬ (w.ready.head? = some .caller ∧ w.result.isSome)) : s.execute = { s with call := some w.execute } := by
  simp only [execute, hcall]
  split
  · next hready hres => exact absurd ⟨by rw [hready]; rfl, by rw [hres]; rfl⟩ hno
  · rfl

theorem goOn_call (res : WaitForResult ℕ) (s : TcpService) : (s.goOn res).call = none := by
  unfold goOn
  split
  · rfl
  · split <;> rfl

theorem goOn_ok (client : ℕ) (s : TcpService) :
    s.goOn (WaitFor.told false (.ok client : Except SystemError ℕ)) =
    { s with call := none, returned := s.returned ++ [.ok client] } := rfl

theorem goOn_error (e : SystemError) (s : TcpService) : s.goOn (WaitFor.told false (.error e)) =
    { s with call := none, returned := s.returned ++ [.error (if s.listening then .runtimeError else .closed)] } := rfl

/-- the value that wait_for returns beside the timeout is destroyed -/
theorem goOn_late (r : Except SystemError ℕ) (s : TcpService) : s.goOn (WaitFor.told true r) =
    { s with
      call := none
      returned := s.returned ++ [.error .timeoutException]
      destroyed := s.destroyed ++ r.toOption.toList } := by
  cases r <;> rfl

/-- the queue is served after finitely many callbacks -/
theorem execute_serves (s : TcpService) : ∃ n, Served (execute^[n] s) := by
  cases hcall : s.call with
  | none => exact ⟨0, fun w hw => by cases hcall.symm.trans hw⟩
  | some w =>
    obtain ⟨n, hn⟩ := WaitFor.execute_drains w
    induction n generalizing s w with
    | zero =>
      refine ⟨0, ?_⟩
      intro w' hw'
      obtain rfl : w = w' := Option.some.inj (hcall.symm.trans hw')
      exact hn
    | succ n ih =>
      by_cases hc : w.ready.head? = some .caller ∧ w.result.isSome
      · obtain ⟨hhead, hsome⟩ := hc
        obtain ⟨res, hres⟩ := Option.isSome_iff_exists.1 hsome
        obtain ⟨rest, hready⟩ := List.head?_eq_some_iff.1 hhead
        refine ⟨1, ?_⟩
        intro w' hw'
        rw [Function.iterate_one, execute_caller hcall hready hres, goOn_call] at hw'
        cases hw'
      · have he := execute_other hcall hc
        obtain ⟨m, hm⟩ := ih s.execute w.execute (by rw [he]) hn
        exact ⟨m + 1, hm⟩

theorem goOn_inv {w : WaitFor ℕ SystemError} {res : WaitForResult ℕ} (h : Inv s) (hcall : s.call = some w)
    (hres : w.result = some res) : Inv (s.goOn res) := by
  obtain ⟨hinv, -, -, howes⟩ := h.busy w hcall
  have hnone : (s.goOn res).call = none := goOn_call res s
  suffices hs : (s.goOn res).destroyed = [] ∧ (s.goOn res).accepted = (s.goOn res).handed from
    ⟨hs.1, fun _ => hs.2, fun w' hw' => by cases hnone.symm.trans hw'⟩
  cases htask : w.task with
  | none => cases (hinv.waits htask).1.symm.trans hres
  | some r =>
    obtain ⟨-, -, h'⟩ := hinv.ended r htask
    rcases h' with ⟨hn, -⟩ | ⟨htold, -⟩
    · cases hn.symm.trans hres
    obtain rfl : res = WaitFor.told w.late r := Option.some.inj (hres.symm.trans htold)
    rw [Owes, htask] at howes
    cases r with
    | ok client =>
      obtain ⟨hacc, hlate⟩ := howes
      rw [hlate, goOn_ok]
      exact ⟨h.destroyed, hacc.trans (handed_snoc (s := s) (r := .ok client) rfl).symm⟩
    | error e =>
      cases hlate : w.late with
      | true =>
        rw [goOn_late]
        exact ⟨by simp [h.destroyed, Except.toOption], howes.trans ((handed_snoc rfl).trans (List.append_nil _)).symm⟩
      | false =>
        rw [goOn_error]
        exact ⟨h.destroyed, howes.trans ((handed_snoc rfl).trans (List.append_nil _)).symm⟩

theorem execute_inv (h : Inv s) : Inv s.execute := by
  cases hcall : s.call with
  | none =>
    have he : s.execute = s := by simp only [execute, hcall]
    rw [he]
    exact h
  | some w =>
    by_cases hc : w.ready.head? = some .caller ∧ w.result.isSome
    · obtain ⟨hhead, hsome⟩ := hc
      obtain ⟨res, hres⟩ := Option.isSome_iff_exists.1 hsome
      obtain ⟨rest, hready⟩ := List.head?_eq_some_iff.1 hhead
      rw [execute_caller hcall hready hres]
      exact goOn_inv h hcall hres
    · rw [execute_other hcall hc]
      obtain ⟨hinv, hcaller, hinner, howes⟩ := h.busy w hcall
      refine ⟨h.destroyed, fun hn => (by cases hn), ?_⟩
      intro w' hw'
      obtain rfl : w.execute = w' := Option.some.inj hw'
      obtain ⟨et, ef⟩ := WaitFor.execute_task w
      refine ⟨WaitFor.execute_inv hinv, ?_, fun hi => et.trans (hinner hi), ?_⟩
      · rcases WaitFor.execute_result w with ⟨er, eready⟩ | ⟨hsome, hmem⟩
        · rw [er, eready, hcaller]
          refine ⟨?_, List.mem_of_mem_tail⟩
          intro hmem
          cases hready : w.ready with
          | nil => rw [hready] at hmem; cases hmem
          | cons x rest =>
            rw [hready] at hmem
            rcases List.mem_cons.1 hmem with hx | hx
            · exact absurd ⟨by rw [hready, hx]; rfl, hcaller.2 (by rw [hready]; exact hmem)⟩ hc
            · exact hx
        · exact ⟨fun _ => hmem, fun _ => hsome⟩
      · change Owes s w.execute
        rw [Owes, et, WaitFor.late_congr ef]
        exact howes

theorem iterate_inv (h : Inv s) (n : ℕ) : Inv (execute^[n] s) := by
  induction n generalizing s with
  | zero => exact h
  | succ n ih => exact ih (execute_inv h)

/-- with the queue served, nothing is on its way -/
theorem Inv.all_handed (h : Inv s) (hs : Served s) : s.handed = s.accepted := by
  cases hcall : s.call with
  | none => exact (h.idle hcall).symm
  | some w =>
    obtain ⟨hinv, hcaller, -, howes⟩ := h.busy w hcall
    have hready := hs w hcall
    cases htask : w.task with
    | none =>
      rw [Owes, htask] at howes
      exact howes.symm
    | some r =>
      obtain ⟨-, -, h'⟩ := hinv.ended r htask
      rcases h' with ⟨-, hw⟩ | ⟨hres, -⟩
      · cases hw with
        | next rest hr => cases hready.symm.trans hr
        | second hr => cases hready.symm.trans hr
      · have hmem := hcaller.1 (by rw [hres]; rfl)
        rw [hready] at hmem
        cases hmem

theorem Inv.kept (h : Inv s) : Kept s := by
  obtain ⟨n, hn⟩ := execute_serves s
  exact ⟨n, hn, (iterate_inv h n).all_handed hn, (iterate_inv h n).destroyed⟩

/-! ## The other steps -/

theorem accept_inv (h : Inv s) (waitId : ℕ) : Inv (s.accept waitId) := by
  cases hcall : s.call with
  | some w =>
    simp only [accept, hcall]
    exact h
  | none =>
    simp only [accept, hcall]
    refine ⟨h.destroyed, fun hn => (by cases hn), ?_⟩
    intro w hw
    obtain rfl : WaitFor.start waitId none = w := Option.some.inj hw
    exact ⟨(WaitFor.start_inv waitId none).1, by simp [WaitFor.start], fun _ => rfl, h.idle hcall⟩

/-- the inner accept fails, or returns a descriptor in time -/
theorem endInner_inv {w : WaitFor ℕ SystemError} {r : Except SystemError ℕ} {accepted : List ℕ} (h : Inv s)
    (hcall : s.call = some w) (htask : w.task = none) (hacc : accepted = s.accepted ++ r.toOption.toList)
    (hlate : ∀ client, r = .ok client → w.late = false) : Inv ({ s with accepted := accepted }.endInner r w) := by
  obtain ⟨hinv, hcaller, -, howes⟩ := h.busy w hcall
  rw [Owes, htask] at howes
  refine ⟨h.destroyed, fun hn => (by cases hn), ?_⟩
  intro w' hw'
  obtain rfl : w.finish r = w' := Option.some.inj hw'
  have hf : w.finish r = { w with
      task := some r, ready := w.ready ++ [.coroutine], first := w.first.or (some (.finished r)) } := by
    simp only [WaitFor.finish, htask]
  refine ⟨WaitFor.finish_inv hinv r, ?_, fun hne => absurd rfl hne, ?_⟩
  · rw [hf]
    simpa using hcaller
  · rw [Owes, WaitFor.finish_late]
    simp only [hf]
    cases r with
    | ok client => exact ⟨hacc.trans (by rw [howes]; rfl), hlate client rfl⟩
    | error e => exact hacc.trans (by rw [howes]; exact List.append_nil _)

theorem enter_inv (h : Inv s) : Inv s.enter := by
  unfold enter
  split
  · next w hcall hinner =>
    have htask := (h.busy w hcall).inner (by rw [hinner]; simp)
    split_ifs
    · refine ⟨h.destroyed, h.idle, ?_⟩
      intro w' hw'
      obtain ⟨hinv, hcaller, -, howes⟩ := h.busy w' hw'
      obtain rfl : w = w' := Option.some.inj (hcall.symm.trans hw')
      exact ⟨hinv, hcaller, fun _ => htask, howes⟩
    · exact endInner_inv h hcall htask (List.append_nil _).symm (fun _ hr => by cases hr)
  · exact h

theorem readable_inv (h : Inv s) {r : Accept4} (ht : InTime s (.readable r)) : Inv (s.readable r) := by
  unfold readable
  split
  · next w hcall hinner =>
    have htask := (h.busy w hcall).inner (by rw [hinner]; simp)
    split_ifs with hl
    · cases r with
      | fd client => exact endInner_inv h hcall htask rfl (fun _ _ => ht hinner hl w hcall)
      | again => exact h
      | error errno => exact endInner_inv h hcall htask (List.append_nil _).symm (fun _ hr => by cases hr)
    · exact endInner_inv h hcall htask (List.append_nil _).symm (fun _ hr => by cases hr)
  · exact h

theorem expire_inv (h : Inv s) : Inv { s with call := s.call.map WaitFor.expire } := by
  cases hcall : s.call with
  | none => exact ⟨h.destroyed, fun _ => h.idle hcall, fun w hw => by cases hw⟩
  | some w =>
    obtain ⟨hinv, hcaller, hinner, howes⟩ := h.busy w hcall
    obtain ⟨er, et, eready⟩ := WaitFor.expire_ready w
    refine ⟨h.destroyed, fun hn => (by cases hn), ?_⟩
    intro w' hw'
    obtain rfl : w.expire = w' := Option.some.inj hw'
    refine ⟨WaitFor.expire_inv hinv, by rw [er, eready]; exact hcaller, fun hi => et.trans (hinner hi), ?_⟩
    cases htask : w.task with
    | none =>
      rw [Owes, htask] at howes
      rw [Owes, et, htask]
      exact howes
    | some r =>
      obtain ⟨e, he⟩ := Option.isSome_iff_exists.1 (hinv.ended r htask).1
      change Owes s w.expire
      rw [Owes, et, WaitFor.expire_late he]
      exact howes

theorem step_inv (h : Inv s) {l : Label} (ht : InTime s l) : Inv (s.step l) := by
  cases l with
  | accept waitId => exact accept_inv h waitId
  | enter => exact enter_inv h
  | readable r => exact readable_inv h ht
  | expire => exact expire_inv h
  | execute => exact execute_inv h
  | close => exact ⟨h.destroyed, h.idle, fun w hw => ⟨(h.busy w hw).inv, (h.busy w hw).caller, (h.busy w hw).inner,
      (h.busy w hw).owes⟩⟩

/-! ## A descriptor behind the timer -/

/-- a descriptor is on its way that is going to be closed, or one has been closed -/
inductive Lost (s : TcpService) : Prop where
  | doomed (w : WaitFor ℕ SystemError) (client : ℕ) (call : s.call = some w) (inv : WaitFor.Inv w)
      (task : w.task = some (.ok client)) (late : w.late = true) (short : s.handed.length < s.accepted.length)
  | closed (destroyed : s.destroyed ≠ [])

theorem execute_lost (h : Lost s) : Lost s.execute := by
  cases h with
  | doomed w client hcall hinv htask hlate hshort =>
    by_cases hc : w.ready.head? = some .caller ∧ w.result.isSome
    · obtain ⟨hhead, hsome⟩ := hc
      obtain ⟨res, hres⟩ := Option.isSome_iff_exists.1 hsome
      obtain ⟨rest, hready⟩ := List.head?_eq_some_iff.1 hhead
      obtain ⟨-, -, h'⟩ := hinv.ended _ htask
      rcases h' with ⟨hn, -⟩ | ⟨htold, -⟩
      · cases hn.symm.trans hres
      obtain rfl : res = WaitFor.told w.late (.ok client : Except SystemError ℕ) :=
        Option.some.inj (hres.symm.trans htold)
      rw [execute_caller hcall hready hres, hlate, goOn_late]
      exact .closed (by simp [Except.toOption])
    · rw [execute_other hcall hc]
      obtain ⟨et, ef⟩ := WaitFor.execute_task w
      exact .doomed w.execute client rfl (WaitFor.execute_inv hinv) (et.trans htask) ((WaitFor.late_congr ef).trans hlate)
        hshort
  | closed hd =>
    apply Lost.closed
    cases hcall : s.call with
    | none => simpa [execute, hcall] using hd
    | some w =>
      by_cases hc : w.ready.head? = some .caller ∧ w.result.isSome
      · obtain ⟨hhead, hsome⟩ := hc
        obtain ⟨res, hres⟩ := Option.isSome_iff_exists.1 hsome
        obtain ⟨rest, hready⟩ := List.head?_eq_some_iff.1 hhead
        rw [execute_caller hcall hready hres]
        unfold goOn
        split
        · simp [hd]
        · split <;> exact hd
      · rw [execute_other hcall hc]
        exact hd

theorem Lost.not_kept (h : Lost s) : ¬ Kept s := by
  rintro ⟨n, -, hhanded, hdestroyed⟩
  have hn : Lost (execute^[n] s) := by
    clear hhanded hdestroyed
    induction n generalizing s with
    | zero => exact h
    | succ n ih => exact ih (execute_lost h)
  cases hn with
  | doomed _ _ _ _ _ _ hshort => exact absurd (congrArg List.length hhanded) (Nat.ne_of_lt hshort)
  | closed hd => exact hd hdestroyed

theorem readable_lost (h : Inv s) {l : Label} (ht : ¬ InTime s l) : Lost (s.step l) := by
  match l with
  | .readable (.fd client) =>
    simp only [InTime, not_forall, Bool.not_eq_false] at ht
    obtain ⟨hinner, hl, w, hcall, hlate⟩ := ht
    obtain ⟨hinv, -, htask, howes⟩ := h.busy w hcall
    have htask := htask (by rw [hinner]; simp)
    rw [Owes, htask] at howes
    have he : s.step (.readable (.fd client)) = { s with accepted := s.accepted ++ [client] }.endInner (.ok client) w := by
      simp only [step, readable, hcall, hinner, hl, if_true]
    rw [he]
    apply Lost.doomed (w.finish (.ok client)) client rfl (WaitFor.finish_inv hinv _)
    · simp only [WaitFor.finish, htask]
    · exact (WaitFor.finish_late _ w).trans hlate
    · change s.handed.length < (s.accepted ++ [client]).length
      rw [howes, List.length_append]
      exact Nat.lt_succ_self _
  | .readable .again | .readable (.error _) | .accept _ | .enter | .expire | .execute | .close =>
    exact absurd trivial ht

theorem make_inv : Inv make := ⟨rfl, fun _ => rfl, fun w hw => by cases hw⟩

/-- **No descriptor is lost**: every descriptor that accept4 has returned is handed to a caller and none is closed, in
every state of a run, exactly if accept4 never returns one when the timer of the call has expired -/
theorem kept_iff (ls : List Label) :
    (∀ n, Kept (Machine.run step make (ls.take n))) ↔ Machine.Along step InTime make ls :=
  Machine.along_iff (L := fun _ => True) (I := Inv) (fun _ h => h.kept) (fun _ _ _ h ht => step_inv h ht)
    (fun _ _ _ h ht => (readable_lost h ht).not_kept) make_inv (fun _ _ => trivial)

/-- the timer expires, then a client connects -/
def lateClient : List Label := [.accept 1, .enter, .expire, .readable (.fd 9), .execute, .execute, .execute]

theorem closed_unseen : (¬ ∀ n, Kept (Machine.run step make (lateClient.take n))) ∧
    (Machine.run step make lateClient).destroyed = [9] ∧
    (Machine.run step make lateClient).returned = [.error .timeoutException] := by
  refine ⟨?_, rfl, rfl⟩
  intro h
  exact (Lost.closed (by decide)).not_kept (h 7)

end TcpService

end MCoroRpc
