/-
The clients of a running RpcProvider, from accept to a worker (RpcProvider::start and its workers, src/rpc_provider.cc).

A client that start() has accepted is in start(), in the channel or with a worker that has got it from recv, until that
worker calls handleClient. `Traced` is a server with the clients that have been accepted, and those handleClient has been
called for.

- `Serves`: what each step keeps, of the channel, of those that wait in it, and of the clients.
- `clients_served`: while nobody stops the provider and start() has not ended, the accepted clients are those that
  handleClient has been called for, once each, and those on their way; none waits in the channel beside a worker that
  waits for one.
-/
import MCoroRpc.Rpc.Server

namespace MCoroRpc.Stopping

/-! ## Model -/

/-- the client whose stream start() holds -/
def StartPc.client : StartPc → Multiset ℕ
  | .accepted (.stream client) | .sending (.called client) => {client}
  | _ => 0

/-- the client whose stream a worker has got, before it calls handleClient -/
def WorkerPc.client : WorkerPc → Multiset ℕ
  | .received (.stream client) => {client}
  | _ => 0

/-- the clients in the channel -/
def clientsIn (c : Channel ℕ) : Multiset ℕ :=
  Multiset.ofList (c.writers.map Item.val) + Multiset.ofList (c.buffer.map Item.val)

/-- the clients on their way to a worker -/
def Server.underWay (s : Server) : Multiset ℕ :=
  s.start.client + (s.channel.map clientsIn).getD 0 + Table.total (fun _ => WorkerPc.client) s.workers

structure Traced where
  server : Server
  accepted : List ℕ
  /-- the clients that handleClient has been called for -/
  taken : List ℕ

/-- the stream that start() gets in this step -/
def Server.accepts (s : Server) : Label → Option ℕ
  | .resumeStart _ =>
    match s.start with
    | .accepting (.waitForEnded client false) => client
    | _ => none
  | _ => none

/-- the stream that goes into handleClient in this step -/
def Server.takes (s : Server) : Label → Option ℕ
  | .resumeWorker i _ =>
    match s.workers[i]? with
    | some (.received (.stream client)) => some client
    | _ => none
  | _ => none

def Traced.step (cfg : Config) (t : Traced) (l : Label) : Traced where
  server := Stopping.step cfg t.server l
  accepted := t.accepted ++ (t.server.accepts l).toList
  taken := t.taken ++ (t.server.takes l).toList

def Traced.init : Traced := ⟨Stopping.init, [], []⟩

/-! ## The invariant -/

/-- start() has not made its workers yet -/
def StartPc.prepares : StartPc → Bool
  | .absent | .startingService | .connecting | .registering => true
  | _ => false

/-- the channel, and those that wait in it -/
structure Serves (s : Server) (c : Channel ℕ) : Prop where
  channel : s.channel = some c
  active : c.isActive = true
  shape : c.Shape
  /-- a reader of the channel is a worker in its ReaderAwaiter -/
  readers : ∀ i, i ∈ c.readers ↔ s.workers[i]? = some .receiving
  nodup : c.readers.Nodup
  /-- the only writer is start() -/
  writer : c.writers ≠ [] → s.start = .sending .waiting
  single : c.writers.length ≤ 1

/-- the workers are made behind everything that start() prepares, the channel as it begins -/
structure Prepared (s : Server) : Prop where
  workers : s.start.prepares = true → s.workers = []
  channel : s.start = .absent → s.channel = none

variable {s s' : Server} {c : Channel ℕ} {cfg : Config} {i client : ℕ} {pc : WorkerPc}

theorem Serves.underWay (h : Serves s c) :
    s.underWay = s.start.client + clientsIn c + Table.total (fun _ => WorkerPc.client) s.workers := by
  rw [Server.underWay, h.channel]
  rfl

/-- start() goes on, and nobody else -/
theorem Serves.goTo (h : Serves s c) (hnot : s.start ≠ .sending .waiting) (next : StartPc) :
    Serves (s.goTo next) c where
  channel := h.channel
  active := h.active
  shape := h.shape
  readers := h.readers
  nodup := h.nodup
  writer := fun hne => absurd (h.writer hne) hnot
  single := h.single

/-- a worker goes on that does not wait in the channel, before or behind -/
theorem Serves.workerTo (h : Serves s c) {old : WorkerPc} (hi : s.workers[i]? = some old) (hold : old ≠ .receiving)
    (hpc : pc ≠ .receiving) : Serves (s.workerTo i pc) c where
  channel := h.channel
  active := h.active
  shape := h.shape
  readers := by
    intro j
    rw [h.readers j]
    simp only [Server.workerTo, List.getElem?_modify]
    by_cases hij : i = j
    · subst hij
      simp [hi, hold, hpc]
    · simp [hij]
  nodup := h.nodup
  writer := h.writer
  single := h.single

/-- a worker that goes on gives up its client, and takes another one -/
theorem Serves.underWay_workerTo (h : Serves s c) {old : WorkerPc} (hi : s.workers[i]? = some old) (pc : WorkerPc) :
    (s.workerTo i pc).underWay + old.client = s.underWay + pc.client := by
  have htotal := Table.total_modify (f := fun _ => WorkerPc.client) (fun _ => pc) hi
  have hnew : (s.workerTo i pc).underWay =
      s.start.client + clientsIn c + Table.total (fun _ => WorkerPc.client) (s.workers.modify i fun _ => pc) := by
    rw [Server.underWay]
    simp only [Server.workerTo, h.channel]
    rfl
  rw [hnew, h.underWay, add_assoc, htotal, ← add_assoc]

theorem Serves.underWay_goTo (h : Serves s c) (next : StartPc) :
    (s.goTo next).underWay + s.start.client = s.underWay + next.client := by
  have hnew : (s.goTo next).underWay =
      next.client + clientsIn c + Table.total (fun _ => WorkerPc.client) s.workers := by
    rw [Server.underWay]
    simp only [Server.goTo, h.channel]
    rfl
  rw [hnew, h.underWay]
  abel

/-! ## What a step does -/

/-- behind a step the clients under way are those before, and the one that start() gets, less the one that a worker
takes -/
structure Step (s : Server) (l : Label) (s' : Server) : Prop where
  serves : ∃ c, Serves s' c
  clients : s'.underWay + Multiset.ofList (s.takes l).toList = s.underWay + Multiset.ofList (s.accepts l).toList

/-- what the section of send does -/
theorem put_cases (c : Channel ℕ) (x : Item ℕ) :
    (∃ r rs, c.readers = r :: rs ∧ Server.put x c = ({ c with readers := rs }, .handed r x)) ∨
    c.readers = [] ∧ c.buffer.length < c.capacity ∧
      Server.put x c = ({ c with buffer := c.buffer ++ [x] }, .buffered) ∨
    c.readers = [] ∧ c.capacity ≤ c.buffer.length ∧
      Server.put x c = ({ c with writers := c.writers ++ [x] }, .queued) := by
  by_cases hr : c.readers = []
  · right
    by_cases hlt : c.buffer.length < c.capacity
    · exact .inl ⟨hr, hlt, by rw [Server.put, Channel.send_buffered hr hlt]⟩
    · have hle : c.capacity ≤ c.buffer.length := not_lt.1 hlt
      refine .inr ⟨hr, hle, ?_⟩
      rw [Server.put, Channel.send_full hr hle]
      exact Channel.pushWriter_queued hr hle
  · left
    obtain ⟨r, rs, hr⟩ := List.exists_cons_of_ne_nil hr
    exact ⟨r, rs, hr, by rw [Server.put, Channel.send_handed hr]⟩

/-- send hands the stream to a worker that waits, or leaves it in the channel -/
theorem Serves.send (h : Serves s c) (hpc : s.start = .sending (.called client)) :
    (∃ c', Serves (s.send client c) c') ∧ (s.send client c).underWay = s.underWay := by
  have hwriters : c.writers = [] := by
    by_contra hne
    exact absurd (hpc.symm.trans (h.writer hne)) (by simp)
  have hbefore : s.underWay = {client} + clientsIn c + Table.total (fun _ => WorkerPc.client) s.workers := by
    rw [h.underWay, hpc]
    rfl
  rcases put_cases c ⟨0, client⟩ with ⟨r, rs, hr, hput⟩ | ⟨hr, hlt, hput⟩ | ⟨hr, hle, hput⟩
  · -- a worker is resumed
    have hi : s.workers[r]? = some .receiving := (h.readers r).1 (hr ▸ List.mem_cons_self)
    have hnodup : r ∉ rs ∧ rs.Nodup := List.nodup_cons.1 (hr ▸ h.nodup)
    have hsend : s.send client c = { s with
        channel := some { c with readers := rs }
        start := .sending (.ended true)
        workers := s.workers.modify r (WorkerPc.resumeReader (.stream client)) } := by
      simp only [Server.send, h.active, if_true, hput]
    have hserves : Serves (s.send client c) { c with readers := rs } := by
      rw [hsend]
      refine ⟨rfl, h.active, h.shape.handed hr, ?_, hnodup.2, fun hne => absurd hwriters hne, h.single⟩
      intro j
      rw [List.getElem?_modify]
      by_cases hrj : r = j
      · subst hrj
        simp [hi, hnodup.1, WorkerPc.resumeReader]
      · have hmem : j ∈ rs ↔ j ∈ c.readers := by
          rw [hr, List.mem_cons, or_iff_right (Ne.symm hrj)]
        simp [hmem, h.readers j, hrj]
    refine ⟨⟨_, hserves⟩, ?_⟩
    have htotal := Table.total_modify (f := fun _ => WorkerPc.client) (WorkerPc.resumeReader (.stream client)) hi
    have hafter : (s.send client c).underWay =
        0 + clientsIn c + Table.total (fun _ => WorkerPc.client)
          (s.workers.modify r (WorkerPc.resumeReader (.stream client))) := by
      rw [hserves.underWay, hsend]
      rfl
    have hmodified : Table.total (fun _ => WorkerPc.client)
        (s.workers.modify r (WorkerPc.resumeReader (.stream client))) =
          Table.total (fun _ => WorkerPc.client) s.workers + {client} := by
      calc _ = _ + WorkerPc.client .receiving := (add_zero _).symm
        _ = _ := htotal
    rw [hafter, hbefore, hmodified]
    abel
  · have hsend : s.send client c = { s with
        channel := some { c with buffer := c.buffer ++ [⟨0, client⟩] }, start := .sending (.ended true) } := by
      simp only [Server.send, h.active, if_true, hput]
    have hserves : Serves (s.send client c) { c with buffer := c.buffer ++ [⟨0, client⟩] } := by
      rw [hsend]
      exact ⟨rfl, h.active, h.shape.buffered hr hlt, h.readers, h.nodup, fun hne => absurd hwriters hne, h.single⟩
    refine ⟨⟨_, hserves⟩, ?_⟩
    have hafter : (s.send client c).underWay = 0 + clientsIn { c with buffer := c.buffer ++ [⟨0, client⟩] } +
        Table.total (fun _ => WorkerPc.client) s.workers := by
      rw [hserves.underWay, hsend]
      rfl
    have hin : clientsIn { c with buffer := c.buffer ++ [⟨0, client⟩] } = clientsIn c + {client} := by
      simp only [clientsIn, List.map_append, ← Multiset.coe_add, add_assoc]
      rfl
    rw [hafter, hbefore, hin]
    abel
  · have hsend : s.send client c = { s with
        channel := some { c with writers := c.writers ++ [⟨0, client⟩] }, start := .sending .waiting } := by
      simp only [Server.send, h.active, if_true, hput]
    have hserves : Serves (s.send client c) { c with writers := c.writers ++ [⟨0, client⟩] } := by
      rw [hsend]
      exact ⟨rfl, h.active, h.shape.queued hr hle, h.readers, h.nodup, fun _ => rfl, by simp [hwriters]⟩
    refine ⟨⟨_, hserves⟩, ?_⟩
    have hafter : (s.send client c).underWay = 0 + clientsIn { c with writers := c.writers ++ [⟨0, client⟩] } +
        Table.total (fun _ => WorkerPc.client) s.workers := by
      rw [hserves.underWay, hsend]
      rfl
    have hin : clientsIn { c with writers := c.writers ++ [⟨0, client⟩] } = {client} + clientsIn c := by
      simp only [clientsIn, hwriters, List.nil_append, List.map_nil]
      simp
    rw [hafter, hbefore, hin, zero_add]

/-- the only writer goes on when its stream has been taken -/
theorem Serves.single_writer (h : Serves s c) {w : Item ℕ} {ws : List (Item ℕ)} (hw : c.writers = w :: ws) :
    ws = [] ∧ s.start = .sending .waiting := by
  refine ⟨?_, h.writer (by rw [hw]; exact List.cons_ne_nil w ws)⟩
  have hsingle := h.single
  rw [hw, List.length_cons] at hsingle
  exact List.length_eq_zero_iff.1 (by omega)

/-- recv gets a stream from the channel, or waits there -/
theorem Serves.recv (h : Serves s c) (hi : s.workers[i]? = some .recvCalled) :
    (∃ c', Serves (s.recv i c) c') ∧ (s.recv i c).underWay = s.underWay := by
  by_cases hw : c.writers = []
  · by_cases hb : c.buffer = []
    · -- there is nothing
      have hrecv : s.recv i c = { s with channel := some (c.enqueue i) }.workerTo i .receiving := by
        simp only [Server.recv, Channel.take_none hw hb, h.active, if_true]
      have hnot : i ∉ c.readers := by
        rw [h.readers i, hi]
        simp
      have hserves : Serves (s.recv i c) (c.enqueue i) := by
        rw [hrecv]
        refine ⟨rfl, h.active, h.shape.enqueue hw hb, ?_, ?_, fun hne => absurd hw hne, h.single⟩
        · intro j
          simp only [Channel.enqueue, List.mem_append, List.mem_singleton, h.readers j, Server.workerTo,
            List.getElem?_modify]
          by_cases hij : i = j
          · subst hij
            simp [hi]
          · simp [hij, Ne.symm hij]
        · refine List.nodup_append.2 ⟨h.nodup, List.nodup_singleton i, ?_⟩
          simpa using fun j hj => ne_of_mem_of_not_mem hj hnot
      refine ⟨⟨_, hserves⟩, ?_⟩
      have htotal : Table.total (fun _ => WorkerPc.client) (s.workers.modify i fun _ => .receiving) =
          Table.total (fun _ => WorkerPc.client) s.workers :=
        (add_zero _).symm.trans ((Table.total_modify (fun _ => .receiving) hi).trans (add_zero _))
      rw [hserves.underWay, h.underWay, hrecv]
      exact congrArg (s.start.client + clientsIn c + ·) htotal
    · -- the front of the buffer
      obtain ⟨x, xs, hx⟩ := List.exists_cons_of_ne_nil hb
      have hrecv : s.recv i c =
          { s with channel := some { c with buffer := xs } }.workerTo i (.received (.stream x.val)) := by
        simp only [Server.recv, Channel.take_buffer hw hx]
        rfl
      have hserves' : Serves { s with channel := some { c with buffer := xs } } { c with buffer := xs } :=
        ⟨rfl, h.active, h.shape.fromBuffer hw hx, h.readers, h.nodup, h.writer, h.single⟩
      rw [hrecv]
      refine ⟨⟨_, hserves'.workerTo hi (by simp) (by simp)⟩, ?_⟩
      have hmoved := hserves'.underWay_workerTo hi (.received (.stream x.val))
      have hin : clientsIn c = clientsIn { c with buffer := xs } + {x.val} := by
        simp only [clientsIn, hw, hx, List.map_cons, List.map_nil, ← Multiset.cons_coe, ← Multiset.singleton_add]
        abel
      calc _ = _ + WorkerPc.client .recvCalled := (add_zero _).symm
        _ = _ := hmoved
        _ = s.underWay := by
          rw [hserves'.underWay, h.underWay, hin, WorkerPc.client]
          abel
  · -- the stream of start(), which waits in send
    obtain ⟨w, ws, hws⟩ := List.exists_cons_of_ne_nil hw
    obtain ⟨rfl, hpc⟩ := h.single_writer hws
    have hrecv : s.recv i c = { s with
        channel := some { c with writers := [] }
        start := .sending (.ended true) }.workerTo i (.received (.stream w.val)) := by
      simp only [Server.recv, Channel.take_writer hws, Option.isSome_some, if_true, hpc, StartPc.resumeWriter]
    have hserves' : Serves { s with channel := some { c with writers := [] }, start := .sending (.ended true) }
        { c with writers := [] } :=
      ⟨rfl, h.active, h.shape.fromWriter hws, h.readers, h.nodup, fun hne => absurd rfl hne, Nat.zero_le 1⟩
    rw [hrecv]
    refine ⟨⟨_, hserves'.workerTo hi (by simp) (by simp)⟩, ?_⟩
    have hmoved := hserves'.underWay_workerTo hi (.received (.stream w.val))
    have hin : clientsIn c = clientsIn { c with writers := [] } + {w.val} := by
      simp only [clientsIn, hws, List.map_cons, List.map_nil]
      rw [Multiset.coe_singleton, Multiset.coe_nil, zero_add, add_comm]
    calc _ = _ + WorkerPc.client .recvCalled := (add_zero _).symm
      _ = _ := hmoved
      _ = s.underWay := by
        rw [hserves'.underWay, h.underWay, hin, hpc]
        simp only [StartPc.client, WorkerPc.client]
        abel

/-! ## One step -/

/-- behind the accept loop start() has ended -/
theorem leaveLoop_ended (h : Serves s c) : s.leaveLoop.start = .ended := by
  unfold Server.leaveLoop
  rw [h.channel]
  rfl

/-- start() has ended, or the step has kept the clients -/
def Goes (s : Server) (l : Label) (s' : Server) : Prop := s'.start = .ended ∨ Step s l s'

theorem Step.turns {l : Label} (h : Step s l s') (n : ℕ) : Step s l { s' with turns := n } := by
  obtain ⟨⟨c, hserves⟩, hclients⟩ := h
  exact ⟨⟨c, hserves.channel, hserves.active, hserves.shape, hserves.readers, hserves.nodup, hserves.writer,
    hserves.single⟩, hclients⟩

/-- start() goes on and keeps the stream that it has -/
theorem Serves.goes (h : Serves s c) {a : Awaited} (hnot : s.start ≠ .sending .waiting) {next : StartPc}
    (hclient : next.client = s.start.client + Multiset.ofList (s.accepts (.resumeStart a)).toList) :
    Goes s (.resumeStart a) (s.goTo next) := by
  refine .inr ⟨⟨c, h.goTo hnot next⟩, ?_⟩
  have hgo := h.underWay_goTo next
  rw [hclient, ← add_assoc, add_right_comm] at hgo
  exact (add_zero _).trans (add_right_cancel hgo)

/-- it gets none, and gives none away -/
theorem Serves.goes_zero (h : Serves s c) {a : Awaited} (hnot : s.start ≠ .sending .waiting)
    (hclient : s.start.client = 0) (haccepts : s.accepts (.resumeStart a) = none) (next : StartPc)
    (hnext : next.client = 0) : Goes s (.resumeStart a) (s.goTo next) := by
  apply h.goes hnot
  rw [hnext, hclient, haccepts]
  rfl

/-- the condition of the accept loop -/
theorem Serves.acceptLoop (h : Serves s c) {a : Awaited} (hnot : s.start ≠ .sending .waiting)
    (hclient : s.start.client = 0) (haccepts : s.accepts (.resumeStart a) = none) :
    Goes s (.resumeStart a) s.acceptLoop := by
  unfold Server.acceptLoop
  split_ifs
  · exact .inl (leaveLoop_ended h)
  · split
    · rcases h.goes_zero hnot hclient haccepts (.accepting .called) rfl with hended | hstep
      · cases hended
      · exact .inr (hstep.turns _)
    · exact h.goes_zero hnot hclient haccepts _ rfl

/-- start() prepares: it has no stream -/
theorem prepares_client {start : StartPc} (h : start.prepares = true) :
    start ≠ .sending .waiting ∧ start.client = 0 ∧ ∀ client, start ≠ .accepting (.waitForEnded client false) := by
  cases start with
  | absent | startingService | connecting | registering => exact ⟨nofun, rfl, nofun⟩
  | accepting pc | accepted r | sending pc | crashed f | ended => cases h

theorem accepts_none (h : ∀ client, s.start ≠ .accepting (.waitForEnded client false)) (a : Awaited) :
    s.accepts (.resumeStart a) = none := by
  simp only [Server.accepts]

/-- the workers are made -/
theorem Serves.serve (h : Serves s c) (cfg : Config) (hworkers : Prepared s) {a : Awaited}
    (hprepares : s.start.prepares = true) :
    Goes s (.resumeStart a) (s.serve cfg) := by
  obtain ⟨hnot, hclient, haccepting⟩ := prepares_client hprepares
  have hnone : s.workers = [] := hworkers.workers hprepares
  have haccepts := accepts_none haccepting a
  have hmade : Serves { s with workers := List.replicate cfg.workerCount .called } c := by
    refine ⟨h.channel, h.active, h.shape, ?_, h.nodup, h.writer, h.single⟩
    intro j
    have hno : j ∉ c.readers := by
      rw [h.readers j, hnone]
      simp
    refine iff_of_false hno fun hj => ?_
    cases List.eq_of_mem_replicate (List.mem_of_getElem? hj)
  have hreplicate : Table.total (fun _ => WorkerPc.client) (List.replicate cfg.workerCount WorkerPc.called) = 0 := by
    refine Multiset.eq_zero_of_forall_notMem fun x hx => ?_
    obtain ⟨i, pc, hi, hmem⟩ := Table.mem_total.1 hx
    obtain rfl := List.eq_of_mem_replicate (List.mem_of_getElem? hi)
    exact Multiset.notMem_zero x hmem
  have hunder : { s with workers := List.replicate cfg.workerCount WorkerPc.called }.underWay = s.underWay := by
    rw [hmade.underWay, h.underWay, hreplicate, hnone]
    rfl
  rcases hmade.acceptLoop (a := a) hnot hclient haccepts with hended | ⟨hserves, hclients⟩
  · exact .inl hended
  · rw [hunder] at hclients
    exact .inr ⟨hserves, hclients⟩

theorem Serves.resumeAccept (h : Serves s c) {a : Awaited} {pc : AcceptPc} (hpc : s.start = .accepting pc) :
    Goes s (.resumeStart a) (s.resumeAccept a pc) := by
  have hnot : s.start ≠ .sending .waiting := by simp [hpc]
  have hclient : s.start.client = 0 := by
    rw [hpc]
    rfl
  have hzero : (∀ client, pc ≠ .waitForEnded client false) → ∀ next : StartPc, next.client = 0 →
      Goes s (.resumeStart a) (s.goTo next) := by
    intro hne next hnext
    refine h.goes_zero hnot hclient (accepts_none ?_ a) next hnext
    intro client hacc
    exact hne client (StartPc.accepting.inj (hpc.symm.trans hacc))
  cases pc with
  | called => exact hzero (by simp) _ rfl
  | waitForCalled => exact hzero (by simp) _ rfl
  | innerCalled =>
    simp only [Server.resumeAccept]
    split
    · split_ifs
      · exact hzero (by simp) _ rfl
      · exact hzero (by simp) _ rfl
    · exact hzero (by simp) _ rfl
  | waiting =>
    have hstay : s.goTo (.accepting .waiting) = s := by
      rw [← hpc]
      rfl
    have hgoes := hzero (by simp) (.accepting .waiting) rfl
    rwa [hstay] at hgoes
  | readable =>
    simp only [Server.resumeAccept]
    split
    · split <;> exact hzero (by simp) _ rfl
    · exact hzero (by simp) _ rfl
  | innerEnded client => exact hzero (by simp) _ rfl
  | waitForEnded client isTimeout =>
    cases isTimeout with
    | true => exact hzero (by simp) _ rfl
    | false =>
      have haccepts : s.accepts (.resumeStart a) = client := by
        simp only [Server.accepts, hpc]
      have hgoes : ∀ next : StartPc, next.client = Multiset.ofList client.toList →
          Goes s (.resumeStart a) (s.goTo next) := by
        intro next hnext
        apply h.goes hnot
        rw [hnext, hclient, haccepts, zero_add]
      simp only [Server.resumeAccept, Bool.false_eq_true, if_false]
      split
      · exact hgoes _ rfl
      · exact hgoes _ rfl
      · exact hgoes _ rfl

theorem Serves.resumeStart (h : Serves s c) (hworkers : Prepared s) (a : Awaited) :
    Goes s (.resumeStart a) (s.resumeStart cfg a) := by
  have hstays : s.accepts (.resumeStart a) = none → Goes s (.resumeStart a) s := by
    intro haccepts
    refine .inr ⟨⟨c, h⟩, ?_⟩
    rw [haccepts]
    rfl
  cases hpc : s.start with
  | absent | ended | crashed f =>
    simp only [Server.resumeStart, hpc]
    exact hstays (accepts_none (by simp [hpc]) a)
  | startingService =>
    have hservice : Serves { s with service := some a.ok } c :=
      ⟨h.channel, h.active, h.shape, h.readers, h.nodup, h.writer, h.single⟩
    have hprepares : s.start.prepares = true := by
      rw [hpc]
      rfl
    have hgoes : Goes { s with service := some a.ok } (.resumeStart a) (s.resumeStart cfg a) := by
      simp only [Server.resumeStart, hpc]
      split_ifs
      · obtain ⟨hnot, hclient, haccepting⟩ := prepares_client hprepares
        have hgoes := hservice.goes_zero (a := a) hnot hclient (accepts_none (s := s) haccepting a) .connecting rfl
        rwa [hpc] at hgoes
      · have hserve := hservice.serve cfg (a := a) ⟨hworkers.workers, hworkers.channel⟩ hprepares
        rwa [hpc] at hserve
    exact hgoes.imp id fun hstep => ⟨hstep.serves, hstep.clients⟩
  | connecting =>
    have hprepares : s.start.prepares = true := by
      rw [hpc]
      rfl
    obtain ⟨hnot, hclient, haccepting⟩ := prepares_client hprepares
    simp only [Server.resumeStart, hpc]
    split_ifs
    · exact .inl rfl
    · exact h.goes_zero hnot hclient (accepts_none haccepting a) _ rfl
    · exact h.serve cfg hworkers hprepares
  | registering =>
    have hprepares : s.start.prepares = true := by
      rw [hpc]
      rfl
    simp only [Server.resumeStart, hpc]
    split_ifs
    · exact .inl rfl
    · exact h.serve cfg hworkers hprepares
  | accepting pc =>
    simp only [Server.resumeStart, hpc]
    exact h.resumeAccept hpc
  | accepted r =>
    have hnot : s.start ≠ .sending .waiting := by simp [hpc]
    have haccepts := accepts_none (s := s) (by simp [hpc]) a
    cases r with
    | timeoutException =>
      simp only [Server.resumeStart, hpc]
      exact h.acceptLoop hnot (by rw [hpc]; rfl) haccepts
    | failed =>
      simp only [Server.resumeStart, hpc]
      exact .inl (leaveLoop_ended h)
    | stream client =>
      simp only [Server.resumeStart, hpc, h.channel]
      split_ifs
      · exact .inl (leaveLoop_ended h)
      · apply h.goes hnot
        rw [haccepts, hpc]
        rfl
  | sending pc =>
    have haccepts := accepts_none (s := s) (by simp [hpc]) a
    cases pc with
    | called client =>
      simp only [Server.resumeStart, hpc, h.channel]
      obtain ⟨hserves, hclients⟩ := h.send hpc
      refine .inr ⟨hserves, ?_⟩
      rw [hclients, haccepts]
      rfl
    | waiting =>
      simp only [Server.resumeStart, hpc]
      exact hstays haccepts
    | ended ok =>
      cases ok with
      | true =>
        simp only [Server.resumeStart, hpc]
        exact h.acceptLoop (by simp [hpc]) (by rw [hpc]; rfl) haccepts
      | false =>
        simp only [Server.resumeStart, hpc]
        exact .inl rfl

/-- a worker goes on -/
theorem Serves.worker (h : Serves s c) {a : Awaited} {old : WorkerPc} (hi : s.workers[i]? = some old)
    (hold : old ≠ .receiving) (hpc : pc ≠ .receiving)
    (hclient : old.client = pc.client + Multiset.ofList (s.takes (.resumeWorker i a)).toList) :
    Step s (.resumeWorker i a) (s.workerTo i pc) := by
  refine ⟨⟨c, h.workerTo hi hold hpc⟩, ?_⟩
  have hmoved := h.underWay_workerTo hi pc
  rw [hclient, add_left_comm, add_comm s.underWay] at hmoved
  exact (add_left_cancel hmoved).trans (add_zero _).symm

/-- it has no stream, before or behind -/
theorem Serves.worker_zero (h : Serves s c) {a : Awaited} {old : WorkerPc} (hi : s.workers[i]? = some old)
    (hold : old ≠ .receiving) (hnone : ∀ client, old ≠ .received (.stream client)) (hpc : pc ≠ .receiving)
    (hclient : pc.client = 0) : Step s (.resumeWorker i a) (s.workerTo i pc) := by
  apply h.worker hi hold hpc
  have hzero : old.client = 0 := by
    unfold WorkerPc.client
    split
    · next client => exact absurd rfl (hnone client)
    · rfl
  have htakes : s.takes (.resumeWorker i a) = none := by
    simp only [Server.takes, hi]
    split
    · next heq => exact absurd (Option.some.inj heq) (hnone _)
    · rfl
  rw [hzero, hclient, htakes]
  rfl

theorem Serves.workerLoop (h : Serves s c) {a : Awaited} {old : WorkerPc} (hi : s.workers[i]? = some old)
    (hold : old ≠ .receiving) (hnone : ∀ client, old ≠ .received (.stream client)) :
    Step s (.resumeWorker i a) (s.workerLoop i) := by
  simp only [Server.workerLoop, h.channel]
  split_ifs
  · exact h.worker_zero hi hold hnone (by simp) rfl
  · have hstep : Step s (.resumeWorker i a) (s.workerTo i .recvCalled) := h.worker_zero hi hold hnone (by simp) rfl
    exact hstep.turns _

theorem Serves.clientLoop (h : Serves s c) {a : Awaited} {old : WorkerPc} (hi : s.workers[i]? = some old)
    (hold : old ≠ .receiving) (hnone : ∀ client, old ≠ .received (.stream client)) :
    Step s (.resumeWorker i a) (s.clientLoop i) := by
  simp only [Server.clientLoop]
  split_ifs
  · exact h.worker_zero hi hold hnone (by simp) rfl
  · have hstep : Step s (.resumeWorker i a) (s.workerTo i .reading) := h.worker_zero hi hold hnone (by simp) rfl
    exact hstep.turns _

theorem Serves.resumeWorker (h : Serves s c) (i : ℕ) (a : Awaited) :
    Step s (.resumeWorker i a) (s.resumeWorker i a) := by
  have hstays : s.takes (.resumeWorker i a) = none → Step s (.resumeWorker i a) s := by
    intro htakes
    refine ⟨⟨c, h⟩, ?_⟩
    rw [htakes]
    rfl
  cases hi : s.workers[i]? with
  | none =>
    simp only [Server.resumeWorker, hi]
    exact hstays (by simp only [Server.takes, hi])
  | some old =>
    cases old with
    | called =>
      simp only [Server.resumeWorker, hi]
      exact h.workerLoop hi nofun nofun
    | recvCalled =>
      simp only [Server.resumeWorker, hi, h.channel]
      obtain ⟨hserves, hclients⟩ := h.recv hi
      refine ⟨hserves, ?_⟩
      rw [hclients]
      simp only [Server.takes, hi]
      rfl
    | received r =>
      cases r with
      | stream client =>
        simp only [Server.resumeWorker, hi]
        refine h.worker hi nofun (by simp) ?_
        simp only [Server.takes, hi]
        rfl
      | channelClosed =>
        simp only [Server.resumeWorker, hi]
        exact h.worker_zero hi nofun nofun nofun rfl
      | cancelled =>
        simp only [Server.resumeWorker, hi]
        exact h.workerLoop hi nofun nofun
    | clientCalled =>
      simp only [Server.resumeWorker, hi]
      exact h.clientLoop hi nofun nofun
    | reading =>
      simp only [Server.resumeWorker, hi]
      split
      · exact h.worker_zero hi nofun nofun nofun rfl
      · exact h.clientLoop hi nofun nofun
      · exact h.worker_zero hi nofun nofun nofun rfl
    | writing n =>
      simp only [Server.resumeWorker, hi]
      split
      · exact h.worker_zero hi nofun nofun nofun rfl
      · exact h.clientLoop hi nofun nofun
      · exact h.worker_zero hi nofun nofun nofun rfl
    | handled =>
      simp only [Server.resumeWorker, hi]
      exact h.workerLoop hi nofun nofun
    | receiving | ended | crashed f =>
      simp only [Server.resumeWorker, hi]
      exact hstays (by simp only [Server.takes, hi])

/-! ## Whole runs -/

theorem leaveLoop_prepares (s : Server) : s.leaveLoop.start.prepares = false := by
  unfold Server.leaveLoop
  split <;> rfl

theorem acceptLoop_prepares (s : Server) : s.acceptLoop.start.prepares = false := by
  unfold Server.acceptLoop
  split_ifs
  · exact leaveLoop_prepares s
  · split <;> rfl

theorem resumeAccept_prepares (hpc : s.start.prepares = false) (a : Awaited) (pc : AcceptPc) :
    (s.resumeAccept a pc).start.prepares = false := by
  cases pc with
  | called | waitForCalled | innerEnded => rfl
  | waiting => exact hpc
  | innerCalled =>
    simp only [Server.resumeAccept]
    split <;> rfl
  | readable =>
    simp only [Server.resumeAccept]
    split
    · split <;> rfl
    · rfl
  | waitForEnded client isTimeout =>
    simp only [Server.resumeAccept]
    split_ifs
    · rfl
    · split <;> rfl

theorem send_prepares (c : Channel ℕ) : (s.send client c).start.prepares = false := by
  unfold Server.send
  split_ifs
  · split <;> rfl
  · rfl

/-- start() goes on to prepare only from a place where it prepares, and leaves the workers as they are -/
theorem Prepared.resumeStart (h : Prepared s) (a : Awaited) : Prepared (s.resumeStart cfg a) := by
  have hnot : ∀ {t : Server}, t.start.prepares = false → Prepared t := by
    intro t hfalse
    refine ⟨fun htrue => ?_, fun habsent => ?_⟩
    · rw [hfalse] at htrue
      cases htrue
    · rw [habsent] at hfalse
      cases hfalse
  cases hpc : s.start with
  | absent | ended | crashed f =>
    simp only [Server.resumeStart, hpc]
    exact h
  | startingService =>
    have hnone : s.workers = [] := h.workers (by rw [hpc]; rfl)
    simp only [Server.resumeStart, hpc]
    split_ifs
    · exact ⟨fun _ => hnone, nofun⟩
    · exact hnot (acceptLoop_prepares _)
  | connecting =>
    have hnone : s.workers = [] := h.workers (by rw [hpc]; rfl)
    simp only [Server.resumeStart, hpc]
    split_ifs
    · exact hnot rfl
    · exact ⟨fun _ => hnone, nofun⟩
    · exact hnot (acceptLoop_prepares _)
  | registering =>
    simp only [Server.resumeStart, hpc]
    split_ifs
    · exact hnot rfl
    · exact hnot (acceptLoop_prepares _)
  | accepting pc =>
    simp only [Server.resumeStart, hpc]
    exact hnot (resumeAccept_prepares (by rw [hpc]; rfl) a pc)
  | accepted r =>
    cases r with
    | timeoutException =>
      simp only [Server.resumeStart, hpc]
      exact hnot (acceptLoop_prepares s)
    | failed =>
      simp only [Server.resumeStart, hpc]
      exact hnot (leaveLoop_prepares s)
    | stream client =>
      simp only [Server.resumeStart, hpc]
      split_ifs
      · exact hnot (leaveLoop_prepares s)
      · split <;> exact hnot rfl
  | sending pc =>
    cases pc with
    | called client =>
      simp only [Server.resumeStart, hpc]
      split
      · exact hnot (send_prepares _)
      · exact hnot rfl
    | waiting =>
      simp only [Server.resumeStart, hpc]
      exact h
    | ended ok =>
      cases ok with
      | true =>
        simp only [Server.resumeStart, hpc]
        exact hnot (acceptLoop_prepares s)
      | false =>
        simp only [Server.resumeStart, hpc]
        exact hnot rfl

/-- start() has not begun -/
structure Unbegun (s : Server) : Prop where
  start : s.start = .absent
  channel : s.channel = none
  workers : s.workers = []

theorem Unbegun.step (h : Unbegun s) (cfg : Config) {l : Label} (hl : l ≠ .stop) :
    (s.accepts l = none ∧ s.takes l = none ∧ s.underWay = 0 ∧ (Stopping.step cfg s l).underWay = 0) ∧
      (Unbegun (Stopping.step cfg s l) ∨ ∃ c, Serves (Stopping.step cfg s l) c) := by
  have hunder : s.underWay = 0 := by
    simp [Server.underWay, h.start, h.channel, h.workers, StartPc.client]
  cases l with
  | start =>
    have hbegin : s.begin = { s with stopped := false, channel := some (.make 100), start := .startingService } := by
      simp only [Server.begin, h.start]
    simp only [Stopping.step, hbegin]
    refine ⟨⟨rfl, rfl, hunder, ?_⟩, .inr ⟨.make 100, rfl, rfl, .make 100, ?_, List.nodup_nil, ?_, Nat.zero_le 1⟩⟩
    · simp [Server.underWay, h.workers, StartPc.client, clientsIn, Channel.make]
    · intro i
      simp [h.workers, Channel.make]
    · exact fun hne => absurd rfl hne
  | stop => exact absurd rfl hl
  | listening =>
    have hsame : s.reportListening = s := by
      simp only [Server.reportListening, h.start]
    simp only [Stopping.step, hsame]
    exact ⟨⟨rfl, rfl, hunder, hunder⟩, .inl h⟩
  | resumeStart a =>
    have hsame : s.resumeStart cfg a = s := by
      simp only [Server.resumeStart, h.start]
    simp only [Stopping.step, hsame]
    exact ⟨⟨accepts_none (by simp [h.start]) a, rfl, hunder, hunder⟩, .inl h⟩
  | resumeWorker i a =>
    have hsame : s.resumeWorker i a = s := by
      simp only [Server.resumeWorker, h.workers, List.getElem?_nil]
    simp only [Stopping.step, hsame]
    exact ⟨⟨rfl, by simp only [Server.takes, h.workers, List.getElem?_nil], hunder, hunder⟩, .inl h⟩

/-- the accepted clients are those that have been taken and those under way -/
structure Accounts (t : Traced) : Prop where
  prepared : Prepared t.server
  serves : Unbegun t.server ∨ ∃ c, Serves t.server c
  clients : (t.accepted : Multiset ℕ) = t.taken + t.server.underWay

theorem init_accounts : Accounts Traced.init where
  prepared := ⟨fun _ => rfl, fun _ => rfl⟩
  serves := .inl ⟨rfl, rfl, rfl⟩
  clients := rfl

theorem reportListening_step (h : Serves s c) : Step s .listening s.reportListening := by
  unfold Server.reportListening
  split
  · next hpc _ =>
    refine ⟨⟨c, h.goTo (by simp [hpc]) _⟩, ?_⟩
    have hgo := h.underWay_goTo (.accepting .readable)
    rw [hpc] at hgo
    exact hgo
  · exact ⟨⟨c, h⟩, rfl⟩

theorem resumeWorker_start (s : Server) (i : ℕ) (a : Awaited) :
    (s.resumeWorker i a).start = s.start ∨ (s.resumeWorker i a).start = s.start.resumeWriter true := by
  have hmove := resumeWorker_move s i a
  generalize s.resumeWorker i a = s' at hmove ⊢
  cases hmove with
  | stays | goes | lost => exact .inl rfl
  | worker =>
    unfold Server.workerLoop
    split_ifs
    · exact .inl rfl
    · split <;> exact .inl rfl
  | client =>
    unfold Server.clientLoop
    split_ifs <;> exact .inl rfl
  | recv c hi hc =>
    unfold Server.recv
    split
    · dsimp only [Server.workerTo]
      split_ifs
      · exact .inr rfl
      · exact .inl rfl
    · split_ifs <;> exact .inl rfl

theorem Prepared.step (h : Prepared s) {l : Label} (hl : l ≠ .stop) : Prepared (Stopping.step cfg s l) := by
  cases l with
  | start =>
    simp only [Stopping.step, Server.begin]
    split
    · next hpc => exact ⟨fun _ => h.workers (by rw [hpc]; rfl), nofun⟩
    · exact h
  | stop => exact absurd rfl hl
  | listening =>
    simp only [Stopping.step, Server.reportListening]
    split
    · exact ⟨nofun, nofun⟩
    · exact h
  | resumeStart a => exact h.resumeStart a
  | resumeWorker i a =>
    by_cases hprepares : s.start.prepares = true
    · have hsame : s.resumeWorker i a = s := by
        simp only [Server.resumeWorker, h.workers hprepares, List.getElem?_nil]
      simp only [Stopping.step, hsame]
      exact h
    · have hnot : (s.resumeWorker i a).start.prepares ≠ true := by
        rcases resumeWorker_start s i a with hsame | hsame
        · rwa [hsame]
        · rw [hsame]
          unfold StartPc.resumeWriter
          split
          · nofun
          · exact hprepares
      refine ⟨fun htrue => absurd htrue hnot, fun habsent => absurd ?_ hnot⟩
      have hpc : (s.resumeWorker i a).start = .absent := habsent
      rw [hpc]
      rfl

theorem Accounts.step {t : Traced} (h : Accounts t) {l : Label} (hl : l ≠ .stop) :
    (t.step cfg l).server.start = .ended ∨ Accounts (t.step cfg l) := by
  have hprepared : Prepared (Stopping.step cfg t.server l) := h.prepared.step hl
  rcases h.serves with hunbegun | ⟨c, hserves⟩
  · obtain ⟨⟨haccepts, htakes, hbefore, hafter⟩, hnext⟩ := hunbegun.step cfg hl
    right
    refine ⟨hprepared, hnext, ?_⟩
    have hclients := h.clients
    rw [hbefore] at hclients
    simp only [Traced.step, haccepts, htakes, hafter, Option.toList_none, List.append_nil]
    exact hclients
  · have hgoes : Goes t.server l (Stopping.step cfg t.server l) := by
      cases l with
      | start =>
        have hsame : t.server.begin = t.server := by
          unfold Server.begin
          split
          · next hpc => cases (h.prepared.channel hpc).symm.trans hserves.channel
          · rfl
        simp only [Stopping.step, hsame]
        exact .inr ⟨⟨c, hserves⟩, rfl⟩
      | stop => exact absurd rfl hl
      | listening => exact .inr (reportListening_step hserves)
      | resumeStart a => exact hserves.resumeStart h.prepared a
      | resumeWorker i a => exact .inr (hserves.resumeWorker i a)
    refine hgoes.imp id fun hs => ⟨hprepared, .inr hs.serves, ?_⟩
    have hclients : (t.accepted : Multiset ℕ) + Multiset.ofList (t.server.accepts l).toList =
        t.taken + Multiset.ofList (t.server.takes l).toList + (Stopping.step cfg t.server l).underWay := by
      rw [h.clients, add_assoc, add_assoc, ← hs.clients, add_comm (Multiset.ofList (t.server.takes l).toList)]
    simp only [Traced.step, ← Multiset.coe_add]
    exact hclients

/-- behind its end start() does not go on -/
theorem ended_step (h : s.start = .ended) {l : Label} (hl : l ≠ .stop) : (Stopping.step cfg s l).start = .ended := by
  cases l with
  | start => simp only [Stopping.step, Server.begin, h]
  | stop => exact absurd rfl hl
  | listening => simp only [Stopping.step, Server.reportListening, h]
  | resumeStart a => simp only [Stopping.step, Server.resumeStart, h]
  | resumeWorker i a =>
    rcases resumeWorker_start s i a with hsame | hsame
    · exact hsame.trans h
    · exact hsame.trans (by rw [h]; rfl)

theorem run_accounts {ls : List Label} (hls : ∀ l ∈ ls, l ≠ .stop) :
    (Machine.run (Traced.step cfg) Traced.init ls).server.start = .ended ∨
      Accounts (Machine.run (Traced.step cfg) Traced.init ls) := by
  apply Machine.inv_run (I := fun t => t.server.start = .ended ∨ Accounts t) ?_
    (Machine.along_of_mem hls Traced.init) (.inr init_accounts)
  intro t l hl h
  rcases h with hended | h
  · exact .inl (ended_step hended hl)
  · exact h.step hl

/-- **Clients**: while nobody stops the provider and start() has not ended, the accepted clients are those that
handleClient has been called for, and those under way; as long as a worker waits for one, the channel has none -/
theorem clients_served (cfg : Config) {ls : List Label} (hls : ∀ l ∈ ls, l ≠ .stop)
    (hrunning : (Machine.run (Traced.step cfg) Traced.init ls).server.start ≠ .ended) :
    ((Machine.run (Traced.step cfg) Traced.init ls).accepted : Multiset ℕ) =
        (Machine.run (Traced.step cfg) Traced.init ls).taken +
          (Machine.run (Traced.step cfg) Traced.init ls).server.underWay ∧
      ∀ i : ℕ, (Machine.run (Traced.step cfg) Traced.init ls).server.workers[i]? = some .receiving →
        ∀ c, (Machine.run (Traced.step cfg) Traced.init ls).server.channel = some c → clientsIn c = 0 := by
  have h : Accounts (Machine.run (Traced.step cfg) Traced.init ls) := (run_accounts hls).resolve_left hrunning
  refine ⟨h.clients, ?_⟩
  intro i hi c hc
  rcases h.serves with hunbegun | ⟨c', hserves⟩
  · rw [hunbegun.workers] at hi
    cases hi
  · obtain rfl : c' = c := Option.some.inj (hserves.channel.symm.trans hc)
    have hne : c'.readers ≠ [] := List.ne_nil_of_mem ((hserves.readers i).2 hi)
    obtain ⟨hbuffer, hwriters⟩ := hserves.shape.reader hne
    simp [clientsIn, hbuffer, hwriters]

/-- what a coroutine finds when everything goes well, with a client whose descriptor is 7 -/
abbrev found : Awaited := ⟨true, false, .fd 7, false, 0⟩

/-- one worker, which waits for a client, and a client that start() hands to it -/
abbrev servedRun : List Label :=
  [.start, .resumeStart found, .resumeWorker 0 found, .resumeWorker 0 found, .resumeStart found, .resumeStart found,
    .resumeStart found, .listening, .resumeStart found, .resumeStart found, .resumeStart found, .resumeStart found,
    .resumeStart found, .resumeWorker 0 found]

theorem clients_served_one :
    (Machine.run (Traced.step ⟨false, 1⟩) Traced.init servedRun).taken = [7] ∧
      ((Machine.run (Traced.step ⟨false, 1⟩) Traced.init servedRun).accepted : Multiset ℕ) =
        (Machine.run (Traced.step ⟨false, 1⟩) Traced.init servedRun).taken +
          (Machine.run (Traced.step ⟨false, 1⟩) Traced.init servedRun).server.underWay :=
  ⟨by decide, (clients_served ⟨false, 1⟩ (by simp) (by decide)).1⟩

end MCoroRpc.Stopping
