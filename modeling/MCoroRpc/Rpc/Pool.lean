/-
The pool of an RpcClient under interleaving (src/rpc_client_impl.cc): getOrCreateChannel, updateInstances, disconnect.

getOrCreateChannel looks into the pool in one critical section, awaits the connect of a new channel, and stores the
channel in another; it is two labels here, and anything can come between. A channel is known by its number: `m_channels`
holds numbers, and `conns` is what they stand for. What CallMethodAsync meets on the stream of a channel is a label too.

- `Views.alone`: where nothing comes between, the two labels are the getOrCreateChannel of one call.
- `Consistent`: the keys of m_channels are instances, and a client that has been disconnected has no channels.
- `consistent_iff`: this holds in every state of a run exactly if each connect that ends in time finds its address among
  the instances, and the client not disconnected.
- `stored_behind_update`: an instance that is removed while its channel connects.
-/
import MCoroRpc.Core.Machine
import MCoroRpc.Core.Multimap
import MCoroRpc.Rpc.RpcClient

namespace MCoroRpc.RpcClient

open TcpStream (Bytes)

/-! ## Model -/

/-- what a CallMethodAsync meets on the stream of its channel -/
structure Met where
  eof : Bool := false
  readError : Bool := false
  writeError : Bool := false
  timedOut : Bool := false
deriving DecidableEq, Repr

/-- the stream cannot be used again -/
def Met.breaks (met : Met) : Bool := met.eof || met.readError || met.writeError || met.timedOut

structure Shared where
  instances : List Bytes
  stop : Bool
  channels : Finmap fun _ : Bytes => ℕ
  /-- all channels that have been made, under their numbers -/
  conns : List Conn
  /-- the getOrCreateChannel that await a connect, each with its address and its channel -/
  connecting : List (Bytes × ℕ)
  /-- the channels whose stream is at its end, has raised an error, or has been left by a call that has timed out -/
  broken : List ℕ
deriving DecidableEq

namespace Shared

inductive Label where
  | getOrCreateChannel (addr : Bytes)
  /-- the connect of a getOrCreateChannel has ended, or its time -/
  | connected (k : ℕ) (result : WaitForResult Unit)
  | updateInstances (instances : List Bytes)
  | disconnect
  /-- a CallMethodAsync on the channel `id` has ended -/
  | callMethodAsync (id : ℕ) (met : Met)
deriving DecidableEq, Repr

def start : Shared := ⟨[], false, ∅, [], [], []⟩

def isConnected (conns : List Conn) (id : ℕ) : Bool := conns[id]?.any Conn.connected

/-- the channel that the pool has for an address -/
def offers (s : Shared) (addr : Bytes) : Option ℕ := (s.channels.lookup addr).filter (isConnected s.conns)

def close (ids : Multiset ℕ) (conns : List Conn) : List Conn :=
  conns.mapIdx fun id conn => if id ∈ ids then { conn with connected := false } else conn

/-- getOrCreateChannel up to its `co_await` -/
def getOrCreateChannel (addr : Bytes) (s : Shared) : Shared :=
  match s.offers addr with
  | some _ => s
  | none =>
    match addr.idxOf? 58 with
    | none => s
    | some colonPos =>
      match stoi (addr.drop (colonPos + 1)) with
      | none => s
      | some port =>
        { s with
          conns := s.conns ++ [⟨addr.take colonPos, port, false⟩]
          connecting := s.connecting ++ [(addr, s.conns.length)] }

/-- getOrCreateChannel behind its `co_await`; a refused connect is no exception here, and the channel is stored -/
def connected (k : ℕ) (result : WaitForResult Unit) (s : Shared) : Shared :=
  match s.connecting[k]? with
  | none => s
  | some (addr, id) =>
    let s :=
      { s with
        conns := s.conns.modify id fun conn => { conn with connected := result.ok }
        connecting := s.connecting.eraseIdx k }
    if result.isTimeout then s else { s with channels := s.channels.insert addr id }

/-- named, for the test of membership in updateInstances -/
theorem lawfulBEq_bytes : LawfulBEq Bytes := inferInstance

attribute [local instance] lawfulBEq_bytes in
def updateInstances (instances : List Bytes) (s : Shared) : Shared :=
  { s with
    instances := instances
    channels := Multimap.keep (· ∈ instances) s.channels
    conns := close (Multimap.values (Multimap.keep (· ∉ instances) s.channels)) s.conns }

def disconnect (s : Shared) : Shared :=
  { s with stop := true, instances := [], channels := ∅, conns := close (Multimap.values s.channels) s.conns }

/-- a call can have the channel -/
def Given (s : Shared) (id : ℕ) : Prop := id < s.conns.length ∧ id ∉ s.connecting.map Prod.snd

instance (s : Shared) (id : ℕ) : Decidable (s.Given id) := inferInstanceAs (Decidable (_ ∧ _))

/-- CallMethodAsync leaves m_connected and the pool alone, whatever it meets -/
def callMethodAsync (id : ℕ) (met : Met) (s : Shared) : Shared :=
  if s.Given id ∧ met.breaks then { s with broken := id :: s.broken } else s

def step (s : Shared) : Label → Shared
  | .getOrCreateChannel addr => s.getOrCreateChannel addr
  | .connected k result => s.connected k result
  | .updateInstances instances => s.updateInstances instances
  | .disconnect => s.disconnect
  | .callMethodAsync id met => s.callMethodAsync id met

/-! ## What a step can do -/

/-- getOrCreateChannel gives the channel of the pool or none, or makes a channel that is not in the pool yet -/
inductive Lookup (s : Shared) (addr : Bytes) : Shared → Prop where
  | done : Lookup s addr s
  | connects (host : Bytes) (port : ℤ) (hnone : s.offers addr = none) :
      Lookup s addr
        { s with
          conns := s.conns ++ [⟨host, port, false⟩]
          connecting := s.connecting ++ [(addr, s.conns.length)] }

/-- the channel is stored unless the time has run out -/
inductive Connected (s : Shared) (k : ℕ) (result : WaitForResult Unit) : Shared → Prop where
  | idle (h : s.connecting[k]? = none) : Connected s k result s
  | timeout (addr : Bytes) (id : ℕ) (h : s.connecting[k]? = some (addr, id)) (ht : result.isTimeout = true) :
      Connected s k result
        { s with
          conns := s.conns.modify id fun conn => { conn with connected := result.ok }
          connecting := s.connecting.eraseIdx k }
  | stores (addr : Bytes) (id : ℕ) (h : s.connecting[k]? = some (addr, id)) (ht : result.isTimeout = false) :
      Connected s k result
        { s with
          conns := s.conns.modify id fun conn => { conn with connected := result.ok }
          connecting := s.connecting.eraseIdx k
          channels := s.channels.insert addr id }

section
variable (s : Shared) (addr : Bytes) (k : ℕ) (result : WaitForResult Unit)

theorem getOrCreateChannel_lookup : Lookup s addr (s.getOrCreateChannel addr) := by
  unfold getOrCreateChannel
  cases hoffers : s.offers addr with
  | some id => exact .done
  | none =>
    dsimp only
    cases addr.idxOf? 58 with
    | none => exact .done
    | some colonPos =>
      dsimp only
      cases stoi (addr.drop (colonPos + 1)) with
      | none => exact .done
      | some port => exact .connects _ port hoffers

theorem connected_connected : Connected s k result (s.connected k result) := by
  unfold connected
  cases h : s.connecting[k]? with
  | none => exact .idle h
  | some p =>
    obtain ⟨addr, id⟩ := p
    cases ht : result.isTimeout with
    | true => exact .timeout addr id h ht
    | false => exact .stores addr id h ht

end

/-! ## One lookup at a time -/

/-- `pool` is the pool of `s`, with the channels for their numbers -/
structure Views (s : Shared) (pool : Pool) : Prop where
  made : ∀ addr id, s.channels.lookup addr = some id → id < s.conns.length
  lookup : ∀ addr, pool.lookup addr = (s.channels.lookup addr).map fun id => s.conns[id]?

section
variable {s : Shared} {pool : Pool} {addr : Bytes}

theorem offers_iff {id : ℕ} :
    s.offers addr = some id ↔ s.channels.lookup addr = some id ∧ isConnected s.conns id = true :=
  Option.filter_eq_some_iff

theorem isConnected_iff {conns : List Conn} {id : ℕ} :
    isConnected conns id = true ↔ ∃ conn, conns[id]? = some conn ∧ conn.connected = true := by
  unfold isConnected
  cases conns[id]? <;> simp

theorem Views.offered (h : Views s pool) {id : ℕ} (hoffers : s.offers addr = some id) (con : Connect) :
    (RpcClient.getOrCreateChannel addr con pool).2 = pool := by
  obtain ⟨hlookup, hconnected⟩ := offers_iff.1 hoffers
  obtain ⟨conn, hconn, hc⟩ := isConnected_iff.1 hconnected
  have hpool : pool.lookup addr = some (some conn) := by
    rw [h.lookup, hlookup, Option.map_some, hconn]
  simp only [RpcClient.getOrCreateChannel, hpool, hc, if_true]

theorem Views.not_offered (h : Views s pool) (hoffers : s.offers addr = none) (con : Connect) :
    RpcClient.getOrCreateChannel addr con pool = createChannel addr con pool := by
  unfold RpcClient.getOrCreateChannel
  split
  · next conn hpool =>
    rw [if_neg]
    intro hc
    rw [h.lookup] at hpool
    obtain ⟨id, hlookup, hconn⟩ := Option.map_eq_some_iff.1 hpool
    have hsome : s.offers addr = some id := offers_iff.2 ⟨hlookup, isConnected_iff.2 ⟨conn, hconn, hc⟩⟩
    rw [hoffers] at hsome
    cases hsome
  · rfl

/-- the channels of the pool are what they were when a new one has been made -/
theorem Views.append (h : Views s pool) (conn : Conn) (g : Conn → Conn) (a : Bytes) :
    pool.lookup a = (s.channels.lookup a).map fun id => ((s.conns ++ [conn]).modify s.conns.length g)[id]? := by
  rw [h.lookup]
  cases hlookup : s.channels.lookup a with
  | none => rfl
  | some id =>
    have hlt := h.made a id hlookup
    simp only [Option.map_some]
    rw [List.getElem?_modify_ne _ _ (Nat.ne_of_gt hlt), List.getElem?_append_left hlt]

/-- **Refinement**: where nothing comes between, the two sections do what getOrCreateChannel does -/
theorem Views.alone (h : Views s pool) (addr : Bytes) (result : WaitForResult Unit) :
    Views ((s.getOrCreateChannel addr).connected s.connecting.length result)
      (RpcClient.getOrCreateChannel addr ⟨result, id⟩ pool).2 := by
  have hidle : s.connected s.connecting.length result = s := by
    simp only [connected, List.getElem?_eq_none (le_refl _)]
  cases hoffers : s.offers addr with
  | some id =>
    simp only [getOrCreateChannel, hoffers, h.offered hoffers, hidle]
    exact h
  | none =>
    rw [h.not_offered hoffers]
    simp only [getOrCreateChannel, createChannel, hoffers]
    cases addr.idxOf? 58 with
    | none =>
      simp only [hidle]
      exact h
    | some colonPos =>
      dsimp only
      cases stoi (addr.drop (colonPos + 1)) with
      | none =>
        simp only [hidle]
        exact h
      | some port =>
        have hmade : ∀ a id, s.channels.lookup a = some id → id < s.conns.length + 1 :=
          fun a id hlookup => Nat.lt_succ_of_lt (h.made a id hlookup)
        simp only [connected, List.getElem?_concat_length]
        cases result.isTimeout with
        | true =>
          refine ⟨fun a id hlookup => ?_, h.append _ _⟩
          simpa using hmade a id hlookup
        | false =>
          refine ⟨fun a id hlookup => ?_, fun a => ?_⟩
          · simp only [Bool.false_eq_true, if_false, Multimap.lookup_insert_ite] at hlookup
            split_ifs at hlookup with heq
            · obtain rfl : s.conns.length = id := Option.some.inj hlookup
              simp
            · simpa using hmade a id hlookup
          · simp only [Bool.false_eq_true, if_false, Multimap.lookup_insert_ite]
            split_ifs with heq
            · simp
            · exact h.append _ _ a

end

/-! ## The keys of the pool -/

structure Consistent (s : Shared) : Prop where
  keys : ∀ addr id, s.channels.lookup addr = some id → addr ∈ s.instances
  /-- no channel has been added since disconnect -/
  stopped : s.stop = true → s.channels = ∅

/-- the address of a connect that ends in time is still wanted -/
def Wanted (s : Shared) (l : Label) : Prop :=
  ∀ k result, l = .connected k result → result.isTimeout = false →
    ∀ addr id, s.connecting[k]? = some (addr, id) → addr ∈ s.instances ∧ s.stop = false

section
variable {s s' : Shared} {k : ℕ} {result : WaitForResult Unit} {addr : Bytes} {l : Label}

theorem lookup_consistent (h : Consistent s) (hl : Lookup s addr s') : Consistent s' := by
  cases hl with
  | done => exact h
  | connects => exact ⟨h.keys, h.stopped⟩

theorem connected_consistent (h : Consistent s) (hw : Wanted s (.connected k result)) (hc : Connected s k result s') :
    Consistent s' := by
  cases hc with
  | idle => exact h
  | timeout => exact ⟨h.keys, h.stopped⟩
  | stores addr id hk ht =>
    obtain ⟨hmem, hstop⟩ := hw k result rfl ht addr id hk
    constructor
    · intro addr' id' hlookup
      rw [Multimap.lookup_insert_ite] at hlookup
      split_ifs at hlookup with heq
      · exact heq ▸ hmem
      · exact h.keys addr' id' hlookup
    · intro hs
      rw [hstop] at hs
      cases hs

theorem updateInstances_consistent (h : Consistent s) (instances : List Bytes) :
    Consistent (s.updateInstances instances) := by
  constructor
  · intro addr id hlookup
    simp only [updateInstances, Multimap.lookup_keep] at hlookup
    split_ifs at hlookup with hmem
    exact hmem
  · intro hs
    have hempty := h.stopped hs
    simp only [updateInstances, hempty]
    rfl

theorem step_consistent (h : Consistent s) (hw : Wanted s l) : Consistent (s.step l) := by
  cases l with
  | getOrCreateChannel addr => exact lookup_consistent h (getOrCreateChannel_lookup s addr)
  | connected k result => exact connected_consistent h hw (connected_connected s k result)
  | updateInstances instances => exact updateInstances_consistent h instances
  | disconnect => exact ⟨fun _ _ hlookup => absurd hlookup Multimap.lookup_empty_ne, fun _ => rfl⟩
  | callMethodAsync id met =>
    simp only [step, callMethodAsync]
    split_ifs
    · exact ⟨h.keys, h.stopped⟩
    · exact h

/-- the channel is stored all the same -/
theorem step_unwanted (hw : ¬ Wanted s l) : ¬ Consistent (s.step l) := by
  simp only [Wanted, not_forall] at hw
  obtain ⟨k, result, rfl, ht, addr, id, hk, hw⟩ := hw
  intro h
  have hlookup : (s.step (.connected k result)).channels.lookup addr = some id := by
    simp only [step, connected, hk, ht, Bool.false_eq_true, if_false]
    exact Finmap.lookup_insert s.channels
  have hinstances : (s.step (.connected k result)).instances = s.instances := by
    simp only [step, connected, hk, ht, Bool.false_eq_true, if_false]
  have hstop : (s.step (.connected k result)).stop = s.stop := by
    simp only [step, connected, hk, ht, Bool.false_eq_true, if_false]
  apply hw
  refine ⟨hinstances ▸ h.keys addr id hlookup, ?_⟩
  by_contra hne
  have hempty := h.stopped (by rw [hstop]; simpa using hne)
  rw [hempty] at hlookup
  exact Multimap.lookup_empty_ne hlookup

theorem start_consistent : Consistent start :=
  ⟨fun _ _ hlookup => absurd hlookup Multimap.lookup_empty_ne, fun hs => by cases hs⟩

end

/-- **The pool is consistent**: in every run the keys of the pool are instances and no channel is added behind
disconnect, exactly if each connect that ends in time ends while its address is wanted. -/
theorem consistent_iff (ls : List Label) :
    (∀ n, Consistent (Machine.run step start (ls.take n))) ↔ Machine.Along step Wanted start ls :=
  Machine.along_iff (L := fun _ => True) (I := Consistent) (fun _ h => h) (fun _ _ _ h hw => step_consistent h hw)
    (fun _ _ _ _ hw => step_unwanted hw) start_consistent (fun _ _ => trivial)

/-- an instance that is removed while its channel connects -/
theorem stored_behind_update :
    ¬ Consistent (Machine.run step start
      [.updateInstances [RpcDispatcher.ascii "a:1"], .getOrCreateChannel (RpcDispatcher.ascii "a:1"),
        .updateInstances [], .connected 0 ⟨true, none, false⟩]) := by
  intro h
  exact absurd (h.keys (RpcDispatcher.ascii "a:1") 0 (by decide)) (by decide)

end Shared

end MCoroRpc.RpcClient
