/-
The instances of an RpcClient (src/rpc_client_impl.cc): the list, the pool, and who is told.

`m_channels` is the list of its entries in the order in which it is iterated, whatever that is. Its channels are known by
their numbers; a channel is made for the key under which it is stored, so no two entries have the same one (`Pool`).

- `updateInstances_effect`: the loop of updateInstances, which erases while it iterates, keeps what is listed and closes
  everything else once.
- `updateInstances_view`: to a call the loop is `keepChannels`.
- `announced_iff`: the watcher calls the callback itself, behind updateInstances, which has called it for a change.
- `progress_iff`: the guard of RpcCaller::call asks for a connected channel, and only the call behind the guard makes one.
-/
import MCoroRpc.Core.Machine
import MCoroRpc.Rpc.RpcClient

namespace MCoroRpc

namespace Instances

open TcpStream (Bytes)
open RpcClient (Conn)
open RpcDispatcher (ascii)

/-! ## Model -/

structure Channel where
  conn : Conn
  /-- how often it has been closed -/
  closes : ℕ := 0
deriving DecidableEq, Repr

def Channel.close (ch : Channel) : Channel := ⟨{ ch.conn with connected := false }, ch.closes + 1⟩

/-- a key of `m_channels`, and the channel under it if that is not null -/
abbrev Entry := Bytes × Option ℕ

def numbers (entries : List Entry) : List ℕ := entries.filterMap Prod.snd

/-- `m_channels`, and how many channels have been made -/
structure Pool where
  entries : List Entry
  made : ℕ
  keys : (entries.map Prod.fst).Nodup
  owned : (numbers entries).Nodup
  below : ∀ id ∈ numbers entries, id < made

namespace Pool

def empty : Pool := ⟨[], 0, List.nodup_nil, List.nodup_nil, by simp [numbers]⟩

/-- some entries are erased -/
def erased (p : Pool) (entries : List Entry) (h : entries.Sublist p.entries) : Pool where
  entries := entries
  made := p.made
  keys := p.keys.sublist (h.map Prod.fst)
  owned := p.owned.sublist (h.filterMap Prod.snd)
  below := fun id hid => p.below id ((h.filterMap Prod.snd).subset hid)

/-- `m_channels[addr] = channel`, for a new channel -/
def store (addr : Bytes) (p : Pool) : Pool where
  entries := p.entries.filter (·.1 ≠ addr) ++ [(addr, some p.made)]
  made := p.made + 1
  keys := by
    rw [List.map_append, List.nodup_append]
    refine ⟨p.keys.sublist (List.filter_sublist.map Prod.fst), List.nodup_singleton _, ?_⟩
    intro a ha b hb
    obtain ⟨e, he, rfl⟩ := List.mem_map.1 ha
    obtain rfl : b = addr := by simpa using hb
    simpa using (List.mem_filter.1 he).2
  owned := by
    rw [numbers, List.filterMap_append, List.nodup_append]
    refine ⟨p.owned.sublist (List.filter_sublist.filterMap Prod.snd), List.nodup_singleton _, ?_⟩
    intro a ha b hb
    obtain rfl : b = p.made := by simpa using hb
    exact Nat.ne_of_lt (p.below a ((List.filter_sublist.filterMap Prod.snd).subset ha))
  below := by
    intro id hid
    rw [numbers, List.filterMap_append, List.mem_append] at hid
    rcases hid with hid | hid
    · exact Nat.lt_succ_of_lt (p.below id ((List.filter_sublist.filterMap Prod.snd).subset hid))
    · obtain rfl : id = p.made := by simpa using hid
      exact Nat.lt_succ_self _

end Pool

/-- a call by RpcCaller or RpcSyncCaller -/
structure Guarded where
  /-- there were instances, and the client was not disconnected -/
  due : Bool
  /-- callMethodSync was called -/
  invoked : Bool
deriving DecidableEq, Repr

structure Client where
  instances : List Bytes := []
  pool : Pool := .empty
  channel : ℕ → Channel := fun _ => ⟨⟨[], 0, false⟩, 0⟩
  failedAddrs : List Bytes := []
  /-- `m_connected` -/
  connected : Bool := false
  /-- `m_stop` -/
  stop : Bool := false
  serviceName : Bytes := []
  /-- `m_statusCallback` is set -/
  statusCallback : Bool := false
  /-- the calls of the callback so far -/
  told : List (Bytes × Bool) := []
  calls : List Guarded := []

/-- `if (m_statusCallback) m_statusCallback(m_serviceName, isAlive)` -/
def tell (isAlive : Bool) (c : Client) : Client :=
  if c.statusCallback then { c with told := c.told ++ [(c.serviceName, isAlive)] } else c

/-- `if (it->second) it->second->close()` -/
def closeSlot (slot : Option ℕ) (channel : ℕ → Channel) : ℕ → Channel :=
  match slot with
  | none => channel
  | some id => Function.update channel id (channel id).close

/-- the loop of updateInstances: `passed` is in front of the iterator, and the other list begins at it -/
def eraseLoop (newSet : Finset Bytes) : List Entry → List Entry → (ℕ → Channel) → List Entry × (ℕ → Channel)
  | passed, [], channel => (passed, channel)
  | passed, (addr, slot) :: rest, channel =>
    if addr ∉ newSet then eraseLoop newSet passed rest (closeSlot slot channel)
    else eraseLoop newSet (passed ++ [(addr, slot)]) rest channel

/-- the entries that are not erased -/
theorem eraseLoop_entries (newSet : Finset Bytes) (passed rest : List Entry) (channel : ℕ → Channel) :
    (eraseLoop newSet passed rest channel).1 = passed ++ rest.filter (·.1 ∈ newSet) := by
  induction rest generalizing passed channel with
  | nil => simp [eraseLoop]
  | cons e rest ih =>
    by_cases he : e.1 ∈ newSet
    · simp [eraseLoop, he, ih]
    · simp [eraseLoop, he, ih]

theorem eraseLoop_sublist (newSet : Finset Bytes) (entries : List Entry) (channel : ℕ → Channel) :
    (eraseLoop newSet [] entries channel).1.Sublist entries := by
  rw [eraseLoop_entries]
  exact List.filter_sublist

def updateInstances (instances : List Bytes) (c : Client) : Client :=
  let r := eraseLoop instances.toFinset [] c.pool.entries c.channel
  let c' : Client :=
    { c with
      instances := instances
      pool := c.pool.erased r.1 (eraseLoop_sublist instances.toFinset c.pool.entries c.channel)
      channel := r.2
      failedAddrs := [] }
  if instances ≠ c.instances then tell (!instances.isEmpty) c' else c'

def setServiceStatusCallback (callback : Bool) (c : Client) : Client := { c with statusCallback := callback }

def connectDirect (addr : Bytes) (c : Client) : Client :=
  { updateInstances [addr] { c with serviceName := [] } with connected := true }

/-- ZooKeeper has the service, with these instances -/
def connectWithDiscovery (serviceName : Bytes) (instances : List Bytes) (c : Client) : Client :=
  let c := updateInstances instances { c with serviceName := serviceName }
  { c with connected := !c.instances.isEmpty }

/-- how a client is connected, with the callback or without it -/
inductive Start where
  | direct (addr : Bytes)
  /-- the list has a first instance -/
  | discovery (serviceName first : Bytes) (rest : List Bytes)

def Start.client (callback : Bool) : Start → Client
  | .direct addr => connectDirect addr (setServiceStatusCallback callback {})
  | .discovery serviceName first rest =>
    connectWithDiscovery serviceName (first :: rest) (setServiceStatusCallback callback {})

/-! ## What updateInstances does -/

/-- the entries that are erased -/
def dropped (newSet : Finset Bytes) (entries : List Entry) : List Entry := entries.filter (·.1 ∉ newSet)

/-- every channel is closed as often as the loop erases an entry with it -/
theorem eraseLoop_channel (newSet : Finset Bytes) (passed rest : List Entry) (channel : ℕ → Channel) (id : ℕ) :
    (eraseLoop newSet passed rest channel).2 id =
      Channel.close^[(numbers (dropped newSet rest)).count id] (channel id) := by
  induction rest generalizing passed channel with
  | nil => rfl
  | cons e rest ih =>
    obtain ⟨addr, slot⟩ := e
    by_cases he : addr ∈ newSet
    · simp [eraseLoop, dropped, numbers, he, ih]
    · cases slot with
      | none => simp [eraseLoop, closeSlot, dropped, numbers, he, ih]
      | some id' =>
        by_cases hid : id' = id
        · subst hid
          simp [eraseLoop, closeSlot, dropped, numbers, he, ih, Function.iterate_succ]
        · simp [eraseLoop, closeSlot, dropped, numbers, he, ih, hid, Function.update_of_ne (Ne.symm hid)]

theorem mem_numbers {entries : List Entry} {id : ℕ} : id ∈ numbers entries ↔ ∃ addr, (addr, some id) ∈ entries := by
  simp [numbers]

/-- a channel stands under one key, so it is erased once or kept -/
theorem Pool.disjoint (p : Pool) (newSet : Finset Bytes) {id : ℕ}
    (h : id ∈ numbers (p.entries.filter (·.1 ∈ newSet))) : id ∉ numbers (dropped newSet p.entries) := by
  have hperm : (p.entries.filter (·.1 ∈ newSet) ++ dropped newSet p.entries).Perm p.entries := by
    simpa [dropped] using List.filter_append_perm (fun e : Entry => e.1 ∈ newSet) p.entries
  have hnodup := ((hperm.filterMap Prod.snd).nodup_iff).2 p.owned
  rw [List.filterMap_append, List.nodup_append] at hnodup
  exact fun h' => hnodup.2.2 id h id h' rfl

/-- what is promised of updateInstances -/
structure Updated (instances : List Bytes) (c c' : Client) : Prop where
  listed : c'.instances = instances
  entries : ∀ addr slot, (addr, slot) ∈ c'.pool.entries ↔ (addr, slot) ∈ c.pool.entries ∧ addr ∈ instances
  kept : ∀ addr id, (addr, some id) ∈ c'.pool.entries → c'.channel id = c.channel id
  closed : ∀ addr id, (addr, some id) ∈ c.pool.entries → addr ∉ instances → c'.channel id = (c.channel id).close
  others : ∀ id, (∀ addr, (addr, some id) ∉ c.pool.entries) → c'.channel id = c.channel id
  failedAddrs : c'.failedAddrs = []

variable {c : Client} {instances : List Bytes}

/-- what the callback has been told so far, when it is called again -/
def toldNow (isAlive : Bool) (c : Client) : List (Bytes × Bool) :=
  if c.statusCallback then c.told ++ [(c.serviceName, isAlive)] else c.told

theorem tell_eq (isAlive : Bool) (c : Client) : tell isAlive c = { c with told := toldNow isAlive c } := by
  unfold tell toldNow
  split_ifs <;> rfl

theorem updateInstances_eq (instances : List Bytes) (c : Client) : ∃ pool,
    pool.entries = c.pool.entries.filter (·.1 ∈ instances.toFinset) ∧ updateInstances instances c =
      { c with
        instances := instances
        pool := pool
        channel := fun id =>
          Channel.close^[(numbers (dropped instances.toFinset c.pool.entries)).count id] (c.channel id)
        failedAddrs := []
        told := if instances ≠ c.instances then toldNow (!instances.isEmpty) c else c.told } := by
  have hchannel : (eraseLoop instances.toFinset [] c.pool.entries c.channel).2 = fun id =>
      Channel.close^[(numbers (dropped instances.toFinset c.pool.entries)).count id] (c.channel id) :=
    funext (eraseLoop_channel instances.toFinset [] c.pool.entries c.channel)
  have hentries := eraseLoop_entries instances.toFinset [] c.pool.entries c.channel
  refine ⟨c.pool.erased _ (eraseLoop_sublist instances.toFinset c.pool.entries c.channel), hentries, ?_⟩
  simp only [updateInstances, hchannel, tell_eq, toldNow]
  split_ifs <;> rfl

/-- **updateInstances**: for every pool in every order of its entries, every list before and every new one -/
theorem updateInstances_effect (instances : List Bytes) (c : Client) :
    Updated instances c (updateInstances instances c) := by
  obtain ⟨pool, hentries, heq⟩ := updateInstances_eq instances c
  have hmem : ∀ addr slot, (addr, slot) ∈ pool.entries ↔ (addr, slot) ∈ c.pool.entries ∧ addr ∈ instances := by
    simp [hentries]
  rw [heq]
  refine ⟨rfl, hmem, ?_, ?_, ?_, rfl⟩
  · intro addr id hid
    have hkept : id ∈ numbers (c.pool.entries.filter (·.1 ∈ instances.toFinset)) := by
      rw [← hentries]
      exact mem_numbers.2 ⟨addr, hid⟩
    have hcount := List.count_eq_zero_of_not_mem (c.pool.disjoint instances.toFinset hkept)
    simp only [hcount, Function.iterate_zero, id_eq]
  · intro addr id hid hout
    have hdropped : id ∈ numbers (dropped instances.toFinset c.pool.entries) := by
      rw [mem_numbers]
      exact ⟨addr, by simp [dropped, hid, hout]⟩
    have hnodup : (numbers (dropped instances.toFinset c.pool.entries)).Nodup :=
      c.pool.owned.sublist (List.filter_sublist.filterMap Prod.snd)
    have hcount := List.count_eq_one_of_mem hnodup hdropped
    simp only [hcount, Function.iterate_one]
  · intro id hid
    have hno : id ∉ numbers (dropped instances.toFinset c.pool.entries) := by
      rw [mem_numbers]
      rintro ⟨addr, haddr⟩
      exact hid addr (List.mem_of_mem_filter haddr)
    have hcount := List.count_eq_zero_of_not_mem hno
    simp only [hcount, Function.iterate_zero, id_eq]

/-- what a call sees of the pool -/
def view (c : Client) : RpcClient.Pool where
  entries := ↑(c.pool.entries.map fun e => (⟨e.1, e.2.map fun id => (c.channel id).conn⟩ : Σ _ : Bytes, Option Conn))
  nodupKeys := by
    have hkeys := c.pool.keys
    simpa [Multiset.NodupKeys, List.NodupKeys, List.keys, Function.comp_def] using hkeys

/-- **The loop refines keepChannels** -/
theorem updateInstances_view (instances : List Bytes) (c : Client) :
    view (updateInstances instances c) = RpcClient.keepChannels instances (view c) := by
  have heffect := updateInstances_effect instances c
  have hentries : (updateInstances instances c).pool.entries = c.pool.entries.filter (·.1 ∈ instances.toFinset) := by
    obtain ⟨pool, hentries, heq⟩ := updateInstances_eq instances c
    rw [heq, hentries]
  apply Finmap.ext
  simp only [view, RpcClient.keepChannels, Multiset.filter_coe, List.filter_map, hentries, Function.comp_def,
    List.mem_toFinset]
  congr 1
  apply List.map_congr_left
  rintro ⟨addr, slot⟩ he
  cases slot with
  | none => rfl
  | some id =>
    have hkept : (addr, some id) ∈ (updateInstances instances c).pool.entries := by
      simpa [hentries] using he
    simp only [Option.map_some, heffect.kept addr id hkept]

/-! ## Who is told -/

/-- the watcher that connectWithDiscovery sets -/
def notify (c : Client) (newInstances : List Bytes) : Client :=
  tell (!newInstances.isEmpty) (updateInstances newInstances c)

/-- what the callback is promised, for a list that is `old` and becomes one after another: each change, and nothing else -/
def changes (serviceName : Bytes) : List Bytes → List (List Bytes) → List (Bytes × Bool)
  | _, [] => []
  | old, new :: news =>
    if new = old then changes serviceName new news else (serviceName, !new.isEmpty) :: changes serviceName new news

/-- over these notifications the callback, if one is set, is told what it is promised -/
def Announced (c : Client) (news : List (List Bytes)) : Prop :=
  (Machine.run notify c news).told = c.told ++ if c.statusCallback then changes c.serviceName c.instances news else []

theorem notify_rest (c : Client) (new : List Bytes) : (notify c new).instances = new ∧
    (notify c new).serviceName = c.serviceName ∧ (notify c new).statusCallback = c.statusCallback := by
  obtain ⟨pool, -, heq⟩ := updateInstances_eq new c
  rw [notify, heq, tell_eq]
  exact ⟨rfl, rfl, rfl⟩

theorem notify_told (c : Client) (new : List Bytes) : (notify c new).told =
    if c.statusCallback then c.told ++ changes c.serviceName c.instances [new] ++ [(c.serviceName, !new.isEmpty)]
    else c.told := by
  obtain ⟨pool, -, heq⟩ := updateInstances_eq new c
  rw [notify, heq, tell_eq]
  simp only [toldNow, changes]
  split_ifs <;> simp_all

/-- without a callback nobody is told -/
theorem run_silent (h : c.statusCallback = false) (news : List (List Bytes)) :
    (Machine.run notify c news).told = c.told := by
  induction news generalizing c with
  | nil => rfl
  | cons new news ih =>
    obtain ⟨-, -, hcallback⟩ := notify_rest c new
    rw [Machine.run_cons, ih (hcallback.trans h), notify_told, h]
    simp

/-- every notification is one call too many -/
theorem run_told_length (h : c.statusCallback = true) (news : List (List Bytes)) :
    (Machine.run notify c news).told.length =
      c.told.length + (changes c.serviceName c.instances news).length + news.length := by
  induction news generalizing c with
  | nil => simp [changes]
  | cons new news ih =>
    obtain ⟨hinstances, hname, hcallback⟩ := notify_rest c new
    rw [Machine.run_cons, ih (hcallback.trans h), notify_told, h, hinstances, hname]
    simp only [changes, if_true, List.length_append, List.length_cons, List.length_nil]
    split_ifs <;> simp only [List.length_cons, List.length_nil] <;> omega

/-- **The callback**: for every client and every sequence of notifications, the callback is told each change once and
nothing else exactly if no callback is set or there is no notification -/
theorem announced_iff (c : Client) (news : List (List Bytes)) :
    Announced c news ↔ c.statusCallback = false ∨ news = [] := by
  unfold Announced
  cases h : c.statusCallback with
  | false => simp [run_silent h]
  | true =>
    constructor
    · intro htold
      have hlength := run_told_length h news
      rw [htold] at hlength
      simp only [if_true, List.length_append] at hlength
      exact .inr (List.eq_nil_of_length_eq_zero (by omega))
    · rintro (hf | rfl)
      · cases hf
      · simp [changes]

/-- behind a first list of one instance: a second one comes, and then the same list again -/
theorem told_three_times :
    let c := (Start.discovery (ascii "Calculator") (ascii "10.0.0.1:80") []).client true
    let news := [[ascii "10.0.0.1:80", ascii "10.0.0.2:80"], [ascii "10.0.0.1:80", ascii "10.0.0.2:80"]]
    (Machine.run notify c news).told = c.told ++ List.replicate 3 (ascii "Calculator", true) ∧ ¬ Announced c news := by
  unfold Announced
  decide

/-! ## The guarded calls -/

def disconnect (c : Client) : Client :=
  { c with
    stop := true
    connected := false
    channel := c.pool.entries.foldl (fun channel e => closeSlot e.2 channel) c.channel
    pool := c.pool.erased [] (List.nil_sublist _)
    instances := [] }

def isConnected (c : Client) : Bool :=
  c.connected && !c.instances.isEmpty && c.pool.entries.any fun e => e.2.any fun id => (c.channel id).conn.connected

/-- what a callMethodSync makes of its client -/
structure Sync where
  /-- the channels that its getOrCreateChannel store, in order -/
  stored : List (Bytes × Conn)
  marked : Option Bytes

/-- a new channel is stored -/
def store (c : Client) (e : Bytes × Conn) : Client :=
  { c with pool := c.pool.store e.1, channel := Function.update c.channel c.pool.made ⟨e.2, 0⟩ }

def callMethodSync (sync : Sync) (c : Client) : Client :=
  let c := sync.stored.foldl store c
  { c with failedAddrs := sync.marked.toList ++ c.failedAddrs }

/-- `RpcCaller::call` and `RpcSyncCaller::call` -/
def call (sync : Sync) (c : Client) : Client :=
  let r : Guarded := ⟨!c.instances.isEmpty && !c.stop, isConnected c⟩
  let c := if isConnected c then callMethodSync sync c else c
  { c with calls := c.calls ++ [r] }

inductive Label where
  | call (sync : Sync)
  | notify (newInstances : List Bytes)
  | disconnect

def step (c : Client) : Label → Client
  | .call sync => call sync c
  | .notify newInstances => notify c newInstances
  | .disconnect => disconnect c

/-- every call that is due calls callMethodSync -/
def Progress (c : Client) : Prop := ∀ r ∈ c.calls, r.due = true → r.invoked = true

/-- a call is only made without instances, or behind disconnect -/
def Idle (c : Client) : Label → Prop
  | .call _ => c.instances = [] ∨ c.stop = true
  | _ => True

/-- what holds as long as calls are made idly: nothing has put a channel into the pool -/
structure Inv (c : Client) : Prop where
  pool : c.pool.entries = []
  progress : Progress c

theorem Inv.not_connected (h : Inv c) : isConnected c = false := by
  simp [isConnected, h.pool]

theorem updateInstances_inv (h : Inv c) (instances : List Bytes) : Inv (updateInstances instances c) := by
  obtain ⟨pool, hentries, heq⟩ := updateInstances_eq instances c
  rw [heq]
  exact ⟨by rw [hentries, h.pool, List.filter_nil], h.progress⟩

theorem notify_inv (h : Inv c) (new : List Bytes) : Inv (notify c new) := by
  have hupdated := updateInstances_inv h new
  rw [notify, tell_eq]
  exact ⟨hupdated.pool, hupdated.progress⟩

/-- a call finds no connected channel -/
theorem call_calls (h : Inv c) (sync : Sync) :
    call sync c = { c with calls := c.calls ++ [⟨!c.instances.isEmpty && !c.stop, false⟩] } := by
  simp [call, h.not_connected]

theorem step_inv {l : Label} (h : Inv c) (hl : Idle c l) : Inv (step c l) := by
  cases l with
  | call sync =>
    simp only [step, call_calls h]
    refine ⟨h.pool, ?_⟩
    simp only [Progress, List.forall_mem_append, List.forall_mem_singleton]
    refine ⟨h.progress, ?_⟩
    intro hdue
    rcases hl with hl | hl <;> simp [hl] at hdue
  | notify new => exact notify_inv h new
  | disconnect => exact ⟨rfl, h.progress⟩

theorem step_rejected {l : Label} (h : Inv c) (hl : ¬ Idle c l) : ¬ Progress (step c l) := by
  cases l with
  | call sync =>
    simp only [Idle, not_or] at hl
    simp only [step, call_calls h]
    intro hp
    have hlast := hp ⟨!c.instances.isEmpty && !c.stop, false⟩ (List.mem_append_right _ (List.mem_singleton_self _))
    simp [hl] at hlast
  | _ => exact absurd trivial hl

theorem start_inv (callback : Bool) (start : Start) : Inv (start.client callback) := by
  have hnew : ∀ serviceName, Inv { setServiceStatusCallback callback {} with serviceName := serviceName } :=
    fun _ => ⟨rfl, by simp [Progress, setServiceStatusCallback]⟩
  cases start with
  | direct addr =>
    have h := updateInstances_inv (hnew []) [addr]
    exact ⟨h.pool, h.progress⟩
  | discovery serviceName first rest =>
    have h := updateInstances_inv (hnew serviceName) (first :: rest)
    exact ⟨h.pool, h.progress⟩

/-- **Guarded calls**: however a client is connected, in every run of guarded calls, changes of its instances and
disconnect, each call that is due calls callMethodSync exactly if none is ever due -/
theorem progress_iff (callback : Bool) (start : Start) (ls : List Label) :
    (∀ n, Progress (Machine.run step (start.client callback) (ls.take n))) ↔
      Machine.Along step Idle (start.client callback) ls :=
  Machine.along_iff (L := fun _ => True) (fun _ h => h.progress) (fun _ _ _ hs hl => step_inv hs hl)
    (fun _ _ _ hs hl => step_rejected hs hl) (start_inv callback start) (fun _ _ => trivial)

/-- the first call of a client that is connected directly is due and rejected -/
theorem call_rejected : ¬ ∀ n, Progress (Machine.run step ((Start.direct (ascii "127.0.0.1:8080")).client false)
    ([.call ⟨[], none⟩].take n)) := by
  intro h
  have hdue : ¬ Idle ((Start.direct (ascii "127.0.0.1:8080")).client false) (.call ⟨[], none⟩) := by
    simp only [Idle]
    decide
  exact step_rejected (start_inv _ _) hdue (h 1)

end Instances

end MCoroRpc
