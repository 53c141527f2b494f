/-
RpcProvider::stop at any point (src/rpc_provider.cc).

Whatever start() and the workers are at when stop is called, they go on after it; start() closes m_client_channel behind
its loop, and the calls that it awaits look at the objects they were made on.

- `EndsSafely`: nobody has used a null pointer or a destroyed object, and no loop has gone round again.
- `Rests`: what a stop at a safe place leaves; `Doomed`: what it leaves at any other.
- `stop_safe_iff`: in every reachable state, all that can follow a stop ends safely exactly if start() is where a stop
  cannot hurt it and no worker stands before the beginning of its recv.
-/
import MCoroRpc.Core.Machine
import MCoroRpc.Rpc.Server

namespace MCoroRpc

namespace Stopping

/-! ## The property and its condition -/

/-- what a stop that has met `s` should have led to -/
structure EndsSafely (s s' : Server) : Prop where
  found : Found s'
  /-- the coroutines there were go on to their ends: no loop has gone round again -/
  leaves : s.start ≠ .absent → s'.turns = s.turns

/-- a stop finds start() not begun or ended, in the ReadAwaiter of a socket that has not become readable, or in the
WriterAwaiter -/
def StartPc.safe : StartPc → Bool
  | .absent | .ended | .accepting .waiting | .sending .waiting | .sending (.ended false) => true
  | _ => false

theorem StartPc.safe_cases {pc : StartPc} (h : pc.safe = true) : pc = .absent ∨ pc = .ended ∨
    pc = .accepting .waiting ∨ pc = .sending .waiting ∨ pc = .sending (.ended false) := by
  unfold StartPc.safe at h
  split at h
  · exact .inl rfl
  · exact .inr (.inl rfl)
  · exact .inr (.inr (.inl rfl))
  · exact .inr (.inr (.inr (.inl rfl)))
  · exact .inr (.inr (.inr (.inr rfl)))
  · cases h

def StopSafe (s : Server) : Prop := s.start.safe = true ∧ ∀ pc ∈ s.workers, pc.safe = true

section
variable {s s' : Server} {cfg : Config} {c : Channel ℕ} {i : ℕ} {a : Awaited}

/-! ## After a stop at a safe place -/

/-- nobody is going to use a pointer any more -/
structure Rests (s : Server) : Prop where
  stopped : s.stopped = true
  service : s.service = none
  start : s.start = .ended ∨ s.start = .accepting .waiting ∨ s.start = .sending (.ended false)
  workers : ∀ pc ∈ s.workers, pc.safe = true

namespace Rests

theorem workerTo (h : Rests s) {pc : WorkerPc} (hpc : pc.safe = true) : Rests (s.workerTo i pc) :=
  ⟨h.stopped, h.service, h.start, Table.forall_mem_modify h.workers fun _ _ _ => hpc⟩

/-- each loop is left -/
theorem move (h : Rests s) (hm : WorkerMove s i s') : Rests s' ∧ s'.turns = s.turns := by
  have hto : ∀ {pc : WorkerPc}, pc.safe = true → Rests (s.workerTo i pc) ∧ (s.workerTo i pc).turns = s.turns :=
    fun hpc => ⟨h.workerTo hpc, rfl⟩
  cases hm with
  | stays => exact ⟨h, rfl⟩
  | goes pc hpc => exact hto hpc
  | worker =>
    rw [Server.workerLoop, if_pos h.stopped]
    exact hto rfl
  | client =>
    rw [Server.clientLoop, if_pos h.stopped]
    exact hto rfl
  | recv _ hi _ => cases h.workers _ (List.mem_of_getElem? hi)
  | lost hi _ => cases h.workers _ (List.mem_of_getElem? hi)

theorem resumeStart (h : Rests s) : Rests (s.resumeStart cfg a) ∧ (s.resumeStart cfg a).turns = s.turns := by
  have hend : Rests (s.goTo .ended) ∧ (s.goTo .ended).turns = s.turns :=
    ⟨⟨h.stopped, h.service, .inl rfl, h.workers⟩, rfl⟩
  have hsame : s.resumeStart cfg a = s ∨ s.resumeStart cfg a = s.goTo .ended := by
    unfold Server.resumeStart
    rcases h.start with hpc | hpc | hpc <;> rw [hpc]
    · exact .inl rfl
    · exact .inl rfl
    · exact .inr rfl
  rcases hsame with heq | heq <;> rw [heq]
  · exact ⟨h, rfl⟩
  · exact hend

/-- the socket that is closed is not reported -/
theorem reportListening (h : Rests s) : s.reportListening = s := by
  unfold Server.reportListening
  split
  · next hlisten =>
    rw [h.service] at hlisten
    cases hlisten
  · rfl

theorem begin (h : Rests s) : s.begin = s := by
  unfold Server.begin
  rcases h.start with hpc | hpc | hpc <;> rw [hpc]

theorem step (h : Rests s) {l : Label} (hl : l ≠ .stop) : Rests (step cfg s l) ∧ (step cfg s l).turns = s.turns := by
  cases l with
  | start =>
    rw [Stopping.step, h.begin]
    exact ⟨h, rfl⟩
  | stop => exact absurd rfl hl
  | listening =>
    rw [Stopping.step, h.reportListening]
    exact ⟨h, rfl⟩
  | resumeStart a => exact h.resumeStart
  | resumeWorker i a => exact h.move (resumeWorker_move s i a)

theorem found (h : Rests s) : Found s := by
  refine ⟨?_, fun pc hpc => WorkerPc.isCrashed_of_safe (h.workers pc hpc)⟩
  rcases h.start with hpc | hpc | hpc <;> rw [hpc] <;> rfl

end Rests

/-! ## What a stop finds -/

/-- a send waits in its WriterAwaiter only in a channel that is open -/
structure Inv (s : Server) : Prop where
  idle : s.start = .absent → s.workers = []
  queue : s.start = .sending .waiting → ∃ c, s.channel = some c ∧ c.isActive = true ∧ c.writers ≠ []

/-- start() has begun and does not wait for a reader -/
def StartPc.plain : StartPc → Bool
  | .absent | .sending .waiting => false
  | _ => true

theorem Inv.of_plain (h : s.start.plain = true) : Inv s := by
  constructor
  · intro hpc
    rw [hpc] at h
    cases h
  · intro hpc
    rw [hpc] at h
    cases h

theorem leaveLoop_plain (s : Server) : s.leaveLoop.start.plain = true := by
  unfold Server.leaveLoop
  split <;> rfl

theorem acceptLoop_plain (s : Server) : s.acceptLoop.start.plain = true := by
  unfold Server.acceptLoop
  split_ifs
  · exact leaveLoop_plain s
  · split <;> rfl

theorem resumeAccept_plain (h : s.start.plain = true) (pc : AcceptPc) : (s.resumeAccept a pc).start.plain = true := by
  unfold Server.resumeAccept
  split
  · rfl
  · rfl
  · split <;> rfl
  · exact h
  · split
    · split <;> rfl
    · rfl
  · rfl
  · split_ifs
    · rfl
    · split <;> rfl

theorem put_queued {x : Item ℕ} {c' : Channel ℕ} (h : Server.put x c = (c', .queued)) :
    c'.isActive = c.isActive ∧ c'.writers ≠ [] := by
  unfold Server.put at h
  cases hr : c.readers with
  | cons r rs =>
    rw [Channel.send_handed hr] at h
    cases h
  | nil =>
    by_cases hlt : c.buffer.length < c.capacity
    · rw [Channel.send_buffered hr hlt] at h
      cases h
    · rw [Channel.send_full hr (not_lt.1 hlt)] at h
      rw [← (Prod.mk.inj ((Channel.pushWriter_queued hr (not_lt.1 hlt)).symm.trans h)).1]
      exact ⟨rfl, List.append_ne_nil_of_right_ne_nil _ (List.cons_ne_nil _ _)⟩

theorem send_inv (client : ℕ) (c : Channel ℕ) (s : Server) : Inv (s.send client c) := by
  unfold Server.send
  split_ifs with hactive
  · split
    · exact .of_plain rfl
    · next c' hput =>
      obtain ⟨heq, hne⟩ := put_queued hput
      exact ⟨by nofun, fun _ => ⟨c', rfl, heq.trans hactive, hne⟩⟩
    · exact .of_plain rfl
  · exact .of_plain rfl

theorem Inv.resumeStart (h : Inv s) : Inv (s.resumeStart cfg a) := by
  have hserve : ∀ s : Server, Inv (s.serve cfg) := fun s => .of_plain (acceptLoop_plain _)
  unfold Server.resumeStart
  cases hpc : s.start with
  | absent => exact h
  | startingService =>
    dsimp only
    by_cases hzk : cfg.zk = true
    · rw [if_pos hzk]
      exact .of_plain rfl
    · rw [if_neg hzk]
      exact hserve _
  | connecting =>
    dsimp only
    split_ifs
    · exact .of_plain rfl
    · exact .of_plain rfl
    · exact hserve s
  | registering =>
    dsimp only
    split_ifs
    · exact .of_plain rfl
    · exact hserve s
  | accepting pc => exact .of_plain (resumeAccept_plain (by rw [hpc]; rfl) pc)
  | accepted r =>
    cases r with
    | timeoutException => exact .of_plain (acceptLoop_plain s)
    | failed => exact .of_plain (leaveLoop_plain s)
    | stream client =>
      dsimp only
      split_ifs
      · exact .of_plain (leaveLoop_plain s)
      · split <;> exact .of_plain rfl
  | sending pc =>
    cases pc with
    | called client =>
      dsimp only
      split
      · exact send_inv client _ s
      · exact .of_plain rfl
    | waiting => exact h
    | ended ok =>
      cases ok with
      | true => exact .of_plain (acceptLoop_plain s)
      | false => exact .of_plain rfl
  | ended => exact h
  | crashed f => exact h

namespace Inv

theorem workers_modify (h : Inv s) (i : ℕ) (g : WorkerPc → WorkerPc) (n : ℕ) :
    Inv { s with workers := s.workers.modify i g, turns := n } := by
  refine ⟨fun hpc => ?_, h.queue⟩
  dsimp only
  rw [h.idle hpc, List.modify_nil]

theorem workerTo (h : Inv s) (i : ℕ) (pc : WorkerPc) : Inv (s.workerTo i pc) := h.workers_modify i _ s.turns

theorem workerLoop (h : Inv s) (i : ℕ) : Inv (s.workerLoop i) := by
  unfold Server.workerLoop
  split_ifs
  · exact h.workerTo i _
  · split
    · exact h.workers_modify i _ _
    · exact h.workerTo i _

theorem clientLoop (h : Inv s) (i : ℕ) : Inv (s.clientLoop i) := by
  unfold Server.clientLoop
  split_ifs
  · exact h.workerTo i _
  · exact h.workers_modify i _ _

/-- a recv in a channel where the send waits takes its value -/
theorem recv (h : Inv s) (i : ℕ) (hc : s.channel = some c) : Inv (s.recv i c) := by
  have hwait : s.start = .sending .waiting → c.writers ≠ [] := by
    intro hpc
    obtain ⟨c', hc', -, hne⟩ := h.queue hpc
    obtain rfl : c = c' := Option.some.inj (hc.symm.trans hc')
    exact hne
  unfold Server.recv
  split
  · next c' taken htake =>
    refine workerTo (s := { s with channel := some c', start := _ }) ⟨fun hpc => h.idle ?_, fun hpc => ?_⟩ i _
    · dsimp only at hpc
      split_ifs at hpc
      · exact (StartPc.resumeWriter_eq_absent _ _).1 hpc
      · exact hpc
    · dsimp only at hpc
      split_ifs at hpc with hwriter
      · exact absurd hpc (StartPc.resumeWriter_ne_waiting _ _)
      · obtain ⟨w, ws, hw⟩ := List.exists_cons_of_ne_nil (hwait hpc)
        rw [Channel.take_writer hw] at htake
        cases htake
        exact absurd rfl hwriter
  · next htake =>
    have hnot : s.start ≠ .sending .waiting := by
      intro hpc
      obtain ⟨w, ws, hw⟩ := List.exists_cons_of_ne_nil (hwait hpc)
      rw [Channel.take_writer hw] at htake
      cases htake
    split_ifs
    · have hnew : Inv { s with channel := some (c.enqueue i) } := ⟨h.idle, fun hpc => absurd hpc hnot⟩
      exact hnew.workerTo i _
    · exact h.workerTo i _

theorem move (h : Inv s) (hm : WorkerMove s i s') : Inv s' := by
  cases hm with
  | stays => exact h
  | goes pc _ => exact h.workerTo i pc
  | worker => exact h.workerLoop i
  | client => exact h.clientLoop i
  | recv c _ hc => exact h.recv i hc
  | lost _ _ => exact h.workerTo i _

end Inv

/-- start() behind a stop, and the workers -/
theorem stop_cases (s : Server) :
    (s.stop = { s with stopped := true, channel := none, service := none } ∧ ∀ c, s.channel = some c → c.isActive = false) ∨
      ∃ c, s.channel = some c ∧ s.stop = { s with
        stopped := true
        channel := none
        service := none
        start := if c.writers.isEmpty then s.start else s.start.resumeWriter false
        workers := s.workers.mapIdx fun i pc => if i ∈ c.readers then pc.resumeReader .cancelled else pc } := by
  cases hc : s.channel with
  | none =>
    refine .inl ⟨?_, by nofun⟩
    simp only [Server.stop, hc]
  | some c =>
    by_cases hactive : c.isActive = true
    · refine .inr ⟨c, rfl, ?_⟩
      simp only [Server.stop, hc, Server.close, if_pos hactive]
    · refine .inl ⟨?_, fun c' hc' => ?_⟩
      · simp only [Server.stop, hc, Server.close, if_neg hactive]
      · obtain rfl := Option.some.inj hc'
        simpa using hactive

theorem Inv.stop_start (h : Inv s) : s.stop.start = s.start.resumeWriter false := by
  rcases stop_cases s with ⟨heq, hclosed⟩ | ⟨c, hc, heq⟩ <;> rw [heq]
  · refine (StartPc.resumeWriter_of_ne _ fun hpc => ?_).symm
    obtain ⟨c, hc, hactive, -⟩ := h.queue hpc
    rw [hclosed c hc] at hactive
    cases hactive
  · dsimp only
    split_ifs with hempty
    · refine (StartPc.resumeWriter_of_ne _ fun hpc => ?_).symm
      obtain ⟨c', hc', -, hne⟩ := h.queue hpc
      obtain rfl := Option.some.inj (hc.symm.trans hc')
      exact hne (List.isEmpty_iff.1 hempty)
    · rfl

theorem stop_worker {pc : WorkerPc} (h : s.stop.workers[i]? = some pc) :
    ∃ pc', s.workers[i]? = some pc' ∧ (pc = pc' ∨ pc = pc'.resumeReader .cancelled) := by
  rcases stop_cases s with ⟨heq, -⟩ | ⟨c, -, heq⟩ <;> rw [heq] at h
  · exact ⟨pc, h, .inl rfl⟩
  · rw [List.getElem?_mapIdx] at h
    obtain ⟨pc', hi, rfl⟩ := Option.map_eq_some_iff.1 h
    refine ⟨pc', hi, ?_⟩
    split_ifs
    · exact .inr rfl
    · exact .inl rfl

/-- only a worker that waits in its ReaderAwaiter is resumed -/
theorem stop_other {pc : WorkerPc} (h : s.workers[i]? = some pc) (hpc : pc ≠ .receiving) :
    s.stop.workers[i]? = some pc := by
  rcases stop_cases s with ⟨heq, -⟩ | ⟨c, -, heq⟩ <;> rw [heq]
  · exact h
  · rw [List.getElem?_mapIdx, h, Option.map_some, WorkerPc.resumeReader_of_ne _ hpc, ite_self]

theorem Inv.stop (h : Inv s) : Inv s.stop := by
  constructor
  · intro hpc
    rw [h.stop_start, StartPc.resumeWriter_eq_absent] at hpc
    have hnone := h.idle hpc
    rcases stop_cases s with ⟨heq, -⟩ | ⟨c, -, heq⟩ <;> rw [heq]
    · exact hnone
    · rw [hnone, List.mapIdx_nil]
  · intro hpc
    rw [h.stop_start] at hpc
    exact absurd hpc (StartPc.resumeWriter_ne_waiting _ _)

theorem Inv.step (h : Inv s) (l : Label) : Inv (step cfg s l) := by
  cases l with
  | start =>
    simp only [Stopping.step, Server.begin]
    split
    · exact .of_plain rfl
    · exact h
  | stop => exact h.stop
  | listening =>
    simp only [Stopping.step, Server.reportListening]
    split
    · exact .of_plain rfl
    · exact h
  | resumeStart a => exact h.resumeStart
  | resumeWorker i a => exact h.move (resumeWorker_move s i a)

/-- what stop has done to the pointers and the flag -/
theorem stop_down (s : Server) : s.stop.stopped = true ∧ s.stop.channel = none ∧ s.stop.service = none ∧
    s.stop.turns = s.turns := by
  rcases stop_cases s with ⟨heq, -⟩ | ⟨c, -, heq⟩ <;> rw [heq] <;> exact ⟨rfl, rfl, rfl, rfl⟩

theorem Inv.rests (h : Inv s) (hsafe : StopSafe s) (hbegun : s.start ≠ .absent) : Rests s.stop := by
  obtain ⟨hstopped, -, hservice, -⟩ := stop_down s
  refine ⟨hstopped, hservice, ?_, fun pc hpc => ?_⟩
  · rw [h.stop_start]
    rcases StartPc.safe_cases hsafe.1 with hpc | hpc | hpc | hpc | hpc
    · exact absurd hpc hbegun
    · exact .inl (by rw [hpc]; rfl)
    · exact .inr (.inl (by rw [hpc]; rfl))
    · exact .inr (.inr (by rw [hpc]; rfl))
    · exact .inr (.inr (by rw [hpc]; rfl))
  · obtain ⟨i, hi⟩ := List.mem_iff_getElem?.1 hpc
    obtain ⟨pc', hold, rfl | rfl⟩ := stop_worker hi
    · exact hsafe.2 _ (List.mem_of_getElem? hold)
    · exact WorkerPc.safe_resumeReader _ (hsafe.2 _ (List.mem_of_getElem? hold))

/-! ## After a stop at any other place -/

/-- there is a way on, without another stop, on which somebody goes wrong -/
def Doomed (cfg : Config) : Server → Prop := Machine.Leads (step cfg) (fun _ l => l ≠ .stop) (¬ Found ·)

theorem Doomed.of_crashed {f : Fault} (h : s.start = .crashed f) : Doomed cfg s := by
  refine .here fun hfound => ?_
  have hcrash : s.start.isCrashed = false := hfound.1
  rw [h] at hcrash
  cases hcrash

theorem Doomed.of_worker {pc : WorkerPc} (h : s.workers[i]? = some pc) (hpc : pc.isCrashed = true) : Doomed cfg s := by
  refine .here fun hfound => ?_
  have hcrash : pc.isCrashed = false := hfound.2 _ (List.mem_of_getElem? h)
  rw [hpc] at hcrash
  cases hcrash

/-- the pointers behind a stop -/
structure Down (s : Server) : Prop where
  stopped : s.stopped = true
  channel : s.channel = none

/-- nothing that start() needs is missing -/
def plainly : Awaited := ⟨false, false, .again, false, 0⟩

namespace Down

/-- start() closes the channel behind its loop -/
theorem leaveLoop (h : Down s) : s.leaveLoop = s.goTo (.crashed .null) := by
  simp only [Server.leaveLoop, h.channel]

theorem acceptLoop (h : Down s) : s.acceptLoop = s.goTo (.crashed .null) := by
  rw [Server.acceptLoop, if_pos h.stopped, h.leaveLoop]

theorem serve (h : Down s) : (s.serve cfg).start = .crashed .null := by
  have hnew : Down { s with workers := List.replicate cfg.workerCount .called } := ⟨h.stopped, h.channel⟩
  rw [Server.serve, hnew.acceptLoop]
  rfl

/-- start() goes on and comes to its end -/
theorem doomed_of_start (hcrash : ∃ f, (s.resumeStart cfg plainly).start = .crashed f) : Doomed cfg s := by
  obtain ⟨f, hf⟩ := hcrash
  exact Machine.Leads.of_step (l := .resumeStart plainly) (by nofun) (Doomed.of_crashed hf)

theorem accepted (h : Down s) {r : Accepted} (hpc : s.start = .accepted r) : Doomed cfg s := by
  refine doomed_of_start ⟨.null, ?_⟩
  cases r with
  | timeoutException => simp only [Server.resumeStart, hpc, h.acceptLoop]; rfl
  | failed => simp only [Server.resumeStart, hpc, h.leaveLoop]; rfl
  | stream client => simp only [Server.resumeStart, hpc, h.stopped, if_true, h.leaveLoop]; rfl

/-- the next await of start(), or of what it awaits -/
theorem doomed_of_goTo (pc : StartPc) (hgo : s.resumeStart cfg plainly = s.goTo pc) (h : Doomed cfg (s.goTo pc)) :
    Doomed cfg s := by
  refine Machine.Leads.of_step (l := .resumeStart plainly) (by nofun) ?_
  rw [step, hgo]
  exact h

theorem goTo (h : Down s) (pc : StartPc) : Down (s.goTo pc) := ⟨h.stopped, h.channel⟩

theorem waitForEnded (h : Down s) (hservice : s.service = none) {client : Option ℕ} {isTimeout : Bool}
    (hpc : s.start = .accepting (.waitForEnded client isTimeout)) : Doomed cfg s := by
  have hgo : (∃ r, s.resumeStart cfg plainly = s.goTo (.accepted r)) ∨
      s.resumeStart cfg plainly = s.goTo (.crashed .destroyed) := by
    simp only [Server.resumeStart, hpc, Server.resumeAccept, hservice]
    split_ifs
    · exact .inl ⟨_, rfl⟩
    · cases client with
      | some client => exact .inl ⟨_, rfl⟩
      | none => exact .inr rfl
  rcases hgo with ⟨r, hgo⟩ | hgo
  · exact doomed_of_goTo _ hgo ((h.goTo _).accepted rfl)
  · exact doomed_of_goTo _ hgo (.of_crashed rfl)

theorem innerCalled (hservice : s.service = none) (hpc : s.start = .accepting .innerCalled) : Doomed cfg s :=
  doomed_of_goTo (.crashed .destroyed) (by simp only [Server.resumeStart, hpc, Server.resumeAccept, hservice])
    (.of_crashed rfl)

theorem waitForCalled (hservice : s.service = none) (hpc : s.start = .accepting .waitForCalled) : Doomed cfg s :=
  doomed_of_goTo (.accepting .innerCalled) (by simp only [Server.resumeStart, hpc, Server.resumeAccept])
    (innerCalled hservice rfl)

/-- the destroyed TcpService is looked at -/
theorem accepting (h : Down s) (hservice : s.service = none) {pc : AcceptPc} (hpc : s.start = .accepting pc)
    (hne : pc ≠ .waiting) : Doomed cfg s := by
  cases pc with
  | called =>
    exact doomed_of_goTo (.accepting .waitForCalled)
      (by simp only [Server.resumeStart, hpc, Server.resumeAccept]) (waitForCalled hservice rfl)
  | waitForCalled => exact waitForCalled hservice hpc
  | innerCalled => exact innerCalled hservice hpc
  | waiting => exact absurd rfl hne
  | readable =>
    exact doomed_of_goTo (.crashed .destroyed)
      (by simp only [Server.resumeStart, hpc, Server.resumeAccept, hservice]) (.of_crashed rfl)
  | innerEnded client =>
    exact doomed_of_goTo (.accepting (.waitForEnded client false))
      (by simp only [Server.resumeStart, hpc, Server.resumeAccept, plainly]) ((h.goTo _).waitForEnded hservice rfl)
  | waitForEnded client isTimeout => exact h.waitForEnded hservice hpc

theorem connecting (h : Down s) (hpc : s.start = .connecting) : Doomed cfg s :=
  doomed_of_start ⟨.null, by simp [Server.resumeStart, hpc, plainly, h.serve]⟩

/-- where start() has not come to its accept loop yet, or is back from it -/
theorem start (h : Down s) (hservice : s.service = none) (hsafe : s.start.safe = false) : Doomed cfg s := by
  cases hpc : s.start with
  | absent => rw [hpc] at hsafe; cases hsafe
  | startingService =>
    by_cases hzk : cfg.zk = true
    · have hstep : step cfg s (.resumeStart plainly) = { s with service := some false, start := .connecting } := by
        simp only [Stopping.step, Server.resumeStart, hpc, hzk, if_true, plainly, Server.goTo]
      refine Machine.Leads.of_step (l := .resumeStart plainly) (by nofun) ?_
      rw [hstep]
      exact connecting ⟨h.stopped, h.channel⟩ rfl
    · have hnew : Down { s with service := some false } := ⟨h.stopped, h.channel⟩
      refine doomed_of_start ⟨.null, ?_⟩
      have hserve : ({ s with service := some false }.serve cfg).start = .crashed .null := hnew.serve
      simp only [hpc] at hserve
      simp only [Server.resumeStart, hpc, if_neg hzk, plainly]
      exact hserve
  | connecting => exact h.connecting hpc
  | registering => exact doomed_of_start ⟨.null, by simp [Server.resumeStart, hpc, plainly, h.serve]⟩
  | accepting pc =>
    refine h.accepting hservice hpc ?_
    rintro rfl
    rw [hpc] at hsafe
    cases hsafe
  | accepted r => exact h.accepted hpc
  | sending pc =>
    cases pc with
    | called client =>
      exact doomed_of_goTo (.crashed .destroyed) (by simp only [Server.resumeStart, hpc, h.channel])
        (.of_crashed rfl)
    | waiting => rw [hpc] at hsafe; cases hsafe
    | ended ok =>
      cases ok with
      | true =>
        exact doomed_of_goTo (.crashed .null) (by simp only [Server.resumeStart, hpc, h.acceptLoop])
          (.of_crashed rfl)
      | false => rw [hpc] at hsafe; cases hsafe
  | ended => rw [hpc] at hsafe; cases hsafe
  | crashed f => exact .of_crashed hpc

end Down

theorem Inv.doomed (h : Inv s) (hsafe : ¬ StopSafe s) : Doomed cfg s.stop := by
  obtain ⟨hstopped, hchannel, hservice, -⟩ := stop_down s
  by_cases hstart : s.start.safe = true
  · have hworker : ¬ ∀ pc ∈ s.workers, pc.safe = true := fun hworkers => hsafe ⟨hstart, hworkers⟩
    push Not at hworker
    obtain ⟨pc, hmem, hpc⟩ := hworker
    obtain ⟨i, hi⟩ := List.mem_iff_getElem?.1 hmem
    have hstop : s.stop.workers[i]? = some pc := by
      refine stop_other hi ?_
      rintro rfl
      exact hpc rfl
    cases pc with
    | crashed f => exact .of_worker hstop rfl
    | recvCalled =>
      -- the recv begins in the destroyed channel
      have hget : (Stopping.step cfg s.stop (.resumeWorker i plainly)).workers[i]? = some (.crashed .destroyed) := by
        simp only [Stopping.step, Server.resumeWorker, hstop, hchannel, Server.workerTo, List.getElem?_modify, if_pos]
        rfl
      exact Machine.Leads.of_step (l := .resumeWorker i plainly) (by nofun) (Doomed.of_worker hget rfl)
    | _ => exact absurd rfl hpc
  · have hold : s.stop.start = s.start := by
      rw [h.stop_start]
      refine StartPc.resumeWriter_of_ne _ ?_
      intro hpc
      rw [hpc] at hstart
      exact hstart rfl
    refine Down.start ⟨hstopped, hchannel⟩ hservice ?_
    rw [hold]
    simpa using hstart

/-! ## Every run that follows a stop -/

theorem init_inv : Inv init := ⟨fun _ => rfl, by nofun⟩

/-- start() has not begun, and may begin when the provider has been stopped -/
structure Idle (s : Server) : Prop where
  start : s.start = .absent
  workers : s.workers = []

theorem Idle.step (h : Idle s) {l : Label} (hl : l ≠ .stop) : Idle (step cfg s l) ∨ Alive (step cfg s l) := by
  cases l with
  | start =>
    refine .inr ?_
    simp only [Stopping.step, Server.begin, h.start]
    exact ⟨rfl, by nofun, by nofun, rfl, by rw [h.workers]; nofun⟩
  | stop => exact absurd rfl hl
  | listening =>
    refine .inl ?_
    simp only [Stopping.step, Server.reportListening, h.start]
    exact h
  | resumeStart a =>
    refine .inl ?_
    simp only [Stopping.step, Server.resumeStart, h.start]
    exact h
  | resumeWorker i a =>
    refine .inl ?_
    simp only [Stopping.step, Server.resumeWorker, h.workers, List.getElem?_nil]
    exact h

theorem Idle.found (h : Idle s) : Found s := ⟨by rw [h.start]; rfl, by rw [h.workers]; nofun⟩

theorem run_idle (h : Idle s) {ls : List Label} (hls : ∀ l ∈ ls, l ≠ .stop) : Found (Machine.run (step cfg) s ls) := by
  have hrun : Idle (Machine.run (step cfg) s ls) ∨ Alive (Machine.run (step cfg) s ls) :=
    Machine.inv_run (I := fun s => Idle s ∨ Alive s) (fun s l hl hs => hs.elim (fun hs => hs.step hl)
      fun hs => .inr (hs.step hl)) (Machine.along_of_mem hls s) (.inl h)
  exact hrun.elim Idle.found Alive.found

theorem run_rests (cfg : Config) (h : Rests s) {ls : List Label} (hls : ∀ l ∈ ls, l ≠ .stop) :
    Rests (Machine.run (step cfg) s ls) ∧ (Machine.run (step cfg) s ls).turns = s.turns := by
  refine Machine.inv_run (I := fun s' => Rests s' ∧ s'.turns = s.turns) (fun s' l hl hs => ?_)
    (Machine.along_of_mem hls s) ⟨h, rfl⟩
  obtain ⟨hrests, hturns⟩ : Rests (step cfg s' l) ∧ (step cfg s' l).turns = s'.turns := hs.1.step hl
  exact ⟨hrests, hturns.trans hs.2⟩

theorem run_inv (cfg : Config) (ls : List Label) : Inv (Machine.run (step cfg) init ls) :=
  Machine.inv_run_of_step (fun _ l hs => hs.step l) init_inv _

end

/-- **Stopping the provider**: in every state that the provider can be in, whatever follows a call of stop() then uses
nothing that is gone and goes round no loop again exactly if the call comes at a safe place. -/
theorem stop_safe_iff (cfg : Config) (ls : List Label) :
    (∀ ls' : List Label, (∀ l ∈ ls', l ≠ .stop) →
        EndsSafely (Machine.run (step cfg) init ls)
          (Machine.run (step cfg) (step cfg (Machine.run (step cfg) init ls) .stop) ls')) ↔
      StopSafe (Machine.run (step cfg) init ls) := by
  have hinv := run_inv cfg ls
  generalize Machine.run (step cfg) init ls = s at hinv ⊢
  constructor
  · intro hends
    by_contra hsafe
    obtain ⟨ls', hls', hcrash⟩ : Doomed cfg s.stop := hinv.doomed hsafe
    exact hcrash (hends ls' (Machine.forall_mem_of_along hls')).found
  · intro hsafe ls' hls'
    by_cases hbegun : s.start = .absent
    · have hidle : Idle s.stop := by
        have hstart : s.stop.start = .absent := by rw [hinv.stop_start, hbegun]; rfl
        exact ⟨hstart, hinv.stop.idle hstart⟩
      exact ⟨run_idle hidle hls', fun hne => absurd hbegun hne⟩
    · obtain ⟨hrests, hturns⟩ := run_rests cfg (hinv.rests hsafe hbegun) hls'
      exact ⟨hrests.found, fun _ => hturns.trans (stop_down s).2.2.2⟩

/-- a server without ZooKeeper and with one worker -/
def oneWorker : Config := ⟨false, 1⟩

/-- what a coroutine finds when all goes well: a client with the descriptor 7 -/
def goesWell : Awaited := ⟨true, false, .fd 7, false, 1⟩

/-- a client has connected, and accept() is in the ready queue -/
abbrev clientSeen : List Label :=
  [.start, .resumeStart goesWell, .resumeStart goesWell, .resumeStart goesWell, .resumeStart goesWell, .listening]

/-- start() is back from a send -/
abbrev clientSent : List Label :=
  clientSeen ++ [.resumeStart goesWell, .resumeStart goesWell, .resumeStart goesWell, .resumeStart goesWell,
    .resumeStart goesWell]

/-- after the first stop accept() looks at the destroyed TcpService, after the second start() at the null channel -/
theorem stop_crashes :
    ¬ EndsSafely (Machine.run (step oneWorker) init clientSeen)
        (Machine.run (step oneWorker) (Machine.run (step oneWorker) init clientSeen).stop [.resumeStart goesWell]) ∧
      ¬ EndsSafely (Machine.run (step oneWorker) init clientSent)
        (Machine.run (step oneWorker) (Machine.run (step oneWorker) init clientSent).stop [.resumeStart goesWell]) := by
  constructor
  · intro h
    have hcrash := h.found.1
    revert hcrash
    decide
  · intro h
    have hcrash := h.found.1
    revert hcrash
    decide

end Stopping

end MCoroRpc
