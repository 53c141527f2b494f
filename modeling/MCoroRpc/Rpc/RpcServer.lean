/-
RpcServer (src/rpc_server_impl.cc): a wrapper around one RpcProvider.

The address of a server is for getAddr. start gives the provider "0.0.0.0" and the port, and schedules its start, which
begins in a later turn of the loop; registerToZk, at some time behind that, reads them from the provider. A stop that comes
before the provider's start is undone by it. Nothing takes m_started of the provider back: a start behind a stop ends at
once, with the server running and the stop flag set.

- `step`: the calls to a server, and the starts and registrations of its provider whenever they come.
- `isRunning_iff`: isRunning says whether the loops of the provider go on or are about to, exactly in the runs without a
  start behind a stop and without a stop in front of the provider's start.
- `discovered_wildcard`: where only servers of this kind register, what is discovered of any service in any run is
  "0.0.0.0" and a port, whatever addresses have been set, and so each client gets a channel to its own host.
-/
import MCoroRpc.Core.Machine
import MCoroRpc.Rpc.Addresses
import MCoroRpc.Zk.Discovery

namespace MCoroRpc

namespace RpcServer

open Addresses (IPNetAddr channelAddr)
open RpcDispatcher (ascii)
open Zk ZkClient

/-! ## Model -/

/-- the members of an RpcProvider that the calls of a server touch -/
structure Provider where
  /-- `m_ip` -/
  ip : String := "127.0.0.1"
  /-- `m_port` -/
  port : ℤ := 8000
  /-- `m_zkHost` -/
  zkHost : String := "127.0.0.1:2181"
  /-- `m_worker_count` -/
  workerCount : ℤ := 4
  /-- the keys of `m_services` of the dispatcher -/
  services : List String := []
  /-- `m_started` -/
  started : Bool := false
  /-- `m_stop` -/
  stop : Bool := true
deriving DecidableEq, Repr

namespace Provider

def registerService (service : String) (p : Provider) : Provider := { p with services := p.services.insert service }

/-- `RpcProvider::start` up to its first await -/
def start (p : Provider) : Provider := if p.started then p else { p with started := true, stop := false }

/-- `m_ip + ":" + std::to_string(m_port)` -/
def getLocalAddr (p : Provider) : String := p.ip ++ ":" ++ toString p.port

/-- the flags under which start and the workers are in their loops, or on the way there -/
def Serves (p : Provider) : Prop := p.started = true ∧ p.stop = false

instance (p : Provider) : Decidable p.Serves := by
  unfold Serves
  infer_instance

end Provider

structure State where
  /-- `m_addr` -/
  addr : IPNetAddr
  /-- `m_zkHost` -/
  zkHost : String
  /-- `m_port` -/
  port : ℤ
  /-- `m_workerCount` -/
  workerCount : ℤ := 4
  /-- `m_running` -/
  running : Bool := false
  /-- `m_provider` -/
  provider : Provider := {}
  /-- the starts of the provider that are scheduled and have not begun -/
  scheduled : ℕ := 0
  /-- `m_services` -/
  services : List String := []
  /-- address and services with which registerToZk has run -/
  registered : List (String × List String) := []
deriving DecidableEq, Repr

/-- the constructor -/
def make (port : ℤ) (zkHost : String) : State := { addr := .create (ascii "0.0.0.0") port, zkHost := zkHost, port := port }

inductive Label where
  | setAddress (ip : String) (port : ℤ)
  | setZkHost (host : String)
  | setWorkerCount (count : ℤ)
  | registerService (service : String)
  | start
  | stop
  /-- a start of the provider that is scheduled begins -/
  | provide
  /-- the provider has come to registerToZk -/
  | registerToZk
deriving DecidableEq, Repr

/-- `co_await` of the provider's start schedules it -/
def start (s : State) : State :=
  if s.running then s
  else
    let p := { s.provider with ip := "0.0.0.0", port := s.port, zkHost := s.zkHost, workerCount := s.workerCount }
    { s with
      running := true
      provider := s.services.foldl (fun p service => p.registerService service) p
      scheduled := s.scheduled + 1 }

def stop (s : State) : State :=
  if !s.running then s else { s with running := false, provider := { s.provider with stop := true } }

def step (s : State) : Label → State
  | .setAddress ip port => { s with port := port, addr := .create (ascii ip) port }
  | .setZkHost host => { s with zkHost := host }
  | .setWorkerCount count => { s with workerCount := count }
  | .registerService service => { s with services := s.services ++ [service] }
  | .start => start s
  | .stop => stop s
  | .provide =>
    if 0 < s.scheduled then { s with provider := s.provider.start, scheduled := s.scheduled - 1 } else s
  | .registerToZk =>
    if s.provider.started then
      { s with registered := s.registered ++ [(s.provider.getLocalAddr, s.provider.services)] }
    else s

/-- under its flags the loops of the provider go on, or a start that has been scheduled is about to set them so -/
def Goes (s : State) : Prop := s.provider.Serves ∨ 0 < s.scheduled ∧ s.provider.started = false

/-- isRunning says whether the provider goes on -/
def Tells (s : State) : Prop := s.running = true ↔ Goes s

/-- no start of a server that is not running any more, and no stop of one whose provider has not begun to start -/
def InOrder (s : State) (l : Label) : Prop :=
  (l = .start → s.running = true ∨ s.provider.started = false) ∧
    (l = .stop → s.running = true → s.provider.started = true)

/-! ## isRunning -/

variable {s : State} {l : Label} {ls : List Label}

/-- what start gives the provider beside the services -/
theorem foldl_registerService (services : List String) (p : Provider) :
    ∃ services', services.foldl (fun p service => p.registerService service) p = { p with services := services' } := by
  induction services generalizing p with
  | nil => exact ⟨p.services, rfl⟩
  | cons service services ih =>
    obtain ⟨services', h⟩ := ih (p.registerService service)
    exact ⟨services', h⟩

/-- **start**: all that it does -/
theorem start_cases (s : State) :
    (s.running = true ∧ start s = s) ∨
      (s.running = false ∧ ∃ services, start s = { s with
        running := true
        provider := ⟨"0.0.0.0", s.port, s.zkHost, s.workerCount, services, s.provider.started, s.provider.stop⟩
        scheduled := s.scheduled + 1 }) := by
  cases hr : s.running with
  | true => exact .inl ⟨rfl, by rw [start, hr]; rfl⟩
  | false =>
    obtain ⟨services, h⟩ := foldl_registerService s.services
      { s.provider with ip := "0.0.0.0", port := s.port, zkHost := s.zkHost, workerCount := s.workerCount }
    refine .inr ⟨rfl, services, ?_⟩
    unfold start
    rw [hr]
    simp only [Bool.false_eq_true, if_false, h]

theorem stop_cases (s : State) :
    (s.running = false ∧ stop s = s) ∨
      (s.running = true ∧ stop s = { s with running := false, provider := { s.provider with stop := true } }) := by
  unfold stop
  cases hr : s.running with
  | false => exact .inl ⟨rfl, rfl⟩
  | true => exact .inr ⟨rfl, rfl⟩

/-- a start of the provider begins what was about to begin -/
theorem goes_provide (hs : 0 < s.scheduled) :
    Goes { s with provider := s.provider.start, scheduled := s.scheduled - 1 } ↔ Goes s := by
  unfold Goes Provider.Serves Provider.start
  cases hstarted : s.provider.started with
  | true => simp [hstarted]
  | false => simp [hs]

theorem step_tells (hs : Tells s) (hl : InOrder s l) : Tells (step s l) := by
  cases l with
  | start =>
    rcases start_cases s with ⟨-, he⟩ | ⟨hr, services, he⟩
    · rw [step, he]
      exact hs
    · have hnew := (hl.1 rfl).resolve_left (by rw [hr]; decide)
      rw [step, he]
      exact iff_of_true rfl (.inr ⟨Nat.succ_pos _, hnew⟩)
  | stop =>
    rcases stop_cases s with ⟨-, he⟩ | ⟨hr, he⟩
    · rw [step, he]
      exact hs
    · have hstarted := hl.2 rfl hr
      rw [step, he]
      refine iff_of_false Bool.false_ne_true ?_
      rintro (⟨-, hstop⟩ | ⟨-, hnot⟩)
      · cases hstop
      · exact absurd (hstarted.symm.trans hnot) (by decide)
  | provide =>
    rw [step]
    split_ifs with hscheduled
    · exact hs.trans (goes_provide hscheduled).symm
    · exact hs
  | registerToZk =>
    rw [step]
    split_ifs
    · exact hs
    · exact hs
  | _ => exact hs

/-- a start behind a stop leaves the server running alone, a stop in front of the provider's start leaves the provider -/
theorem step_out_of_order (hs : Tells s) (hl : ¬ InOrder s l) : ¬ Tells (step s l) := by
  rw [InOrder, not_and_or] at hl
  push Not at hl
  rcases hl with ⟨rfl, hnot, hbefore⟩ | ⟨rfl, hr, hbefore⟩
  · have hr := Bool.eq_false_of_not_eq_true hnot
    have hstarted := Bool.eq_true_of_not_eq_false hbefore
    have hstop : s.provider.stop = true := by
      by_contra hstop
      exact hnot (hs.2 (.inl ⟨hstarted, Bool.eq_false_iff.2 hstop⟩))
    rcases start_cases s with ⟨hr', -⟩ | ⟨-, services, he⟩
    · exact absurd hr' hnot
    · rw [step, he]
      intro htells
      rcases htells.1 rfl with ⟨-, hgoes⟩ | ⟨-, hgoes⟩
      · exact absurd (hstop.symm.trans hgoes) (by decide)
      · exact hbefore hgoes
  · have hnew := Bool.eq_false_of_not_eq_true hbefore
    have hscheduled : 0 < s.scheduled := by
      rcases hs.1 hr with ⟨hstarted, -⟩ | ⟨hscheduled, -⟩
      · exact absurd hstarted hbefore
      · exact hscheduled
    rcases stop_cases s with ⟨hr', -⟩ | ⟨-, he⟩
    · exact absurd (hr.symm.trans hr') (by decide)
    · rw [step, he]
      intro htells
      cases htells.2 (.inr ⟨hscheduled, hnew⟩)

/-- **isRunning** tells whether the loops of the provider go on or are about to, at every time of a run, if and only if no
start comes behind a stop and no stop comes before the provider's start has begun -/
theorem isRunning_iff (port : ℤ) (zkHost : String) (ls : List Label) :
    (∀ n, Tells (Machine.run step (make port zkHost) (ls.take n))) ↔ Machine.Along step InOrder (make port zkHost) ls := by
  have hmake : Tells (make port zkHost) := by
    refine iff_of_false Bool.false_ne_true ?_
    rintro (⟨hstarted, -⟩ | ⟨hscheduled, -⟩)
    · cases hstarted
    · exact absurd hscheduled (lt_irrefl 0)
  exact Machine.along_iff (L := fun _ => True) (I := Tells) (fun _ h => h) (fun _ _ _ hs hl => step_tells hs hl)
    (fun _ _ _ hs hl => step_out_of_order hs hl) hmake (fun _ _ => trivial)

/-- start and stop before the provider has begun: its start comes behind the stop, and nothing says that it serves -/
example : let s := Machine.run step (make 8000 "") [.start, .stop, .provide]; s.running = false ∧ s.provider.Serves := by
  decide

/-! ## What is registered -/

/-- an address of all interfaces -/
def Wildcard (addr : String) : Prop := ∃ port : ℤ, addr = "0.0.0.0:" ++ toString port

structure Registers (s : State) : Prop where
  ip : s.provider.started = true ∨ 0 < s.scheduled → s.provider.ip = "0.0.0.0"
  registered : ∀ r ∈ s.registered, Wildcard r.1

theorem step_registers (hs : Registers s) (l : Label) : Registers (step s l) := by
  cases l with
  | start =>
    rcases start_cases s with ⟨-, he⟩ | ⟨-, services, he⟩
    · rw [step, he]
      exact hs
    · rw [step, he]
      exact ⟨fun _ => rfl, hs.registered⟩
  | stop =>
    rcases stop_cases s with ⟨-, he⟩ | ⟨-, he⟩
    · rw [step, he]
      exact hs
    · rw [step, he]
      exact ⟨hs.ip, hs.registered⟩
  | provide =>
    rw [step]
    split_ifs with hscheduled
    · refine ⟨fun _ => ?_, hs.registered⟩
      have hip := hs.ip (.inr hscheduled)
      change (Provider.start _).ip = "0.0.0.0"
      unfold Provider.start
      split_ifs
      · exact hip
      · exact hip
    · exact hs
  | registerToZk =>
    rw [step]
    split_ifs with hstarted
    · refine ⟨hs.ip, ?_⟩
      intro r hr
      rcases List.mem_append.1 hr with hr | hr
      · exact hs.registered r hr
      · rw [List.mem_singleton.1 hr]
        refine ⟨s.provider.port, ?_⟩
        change s.provider.getLocalAddr = _
        unfold Provider.getLocalAddr
        rw [hs.ip (.inl hstarted)]
        rfl
    · exact hs
  | _ => exact ⟨hs.ip, hs.registered⟩

theorem run_registers (port : ℤ) (zkHost : String) (ls : List Label) :
    Registers (Machine.run step (make port zkHost) ls) := by
  have hmake : Registers (make port zkHost) := by
    refine ⟨?_, fun _ hr => absurd hr List.not_mem_nil⟩
    rintro (hstarted | hscheduled)
    · cases hstarted
    · exact absurd hscheduled (lt_irrefl 0)
  exact Machine.inv_run_of_step (I := Registers) (fun _ l hs => step_registers hs l) hmake ls

/-! ## What is discovered -/

/-- the provider that starts is that of an RpcServer, with what this registers at some time of its life -/
def OfServer : Providers.Label → Prop
  | .start addr services =>
    ∃ port zkHost ls, (addr, services) ∈ (Machine.run step (make port zkHost) ls).registered
  | _ => True

theorem forall_modify {α : Type} {P : α → Prop} {f : α → α} (hf : ∀ a, P a → P (f a)) {as : List α} (h : ∀ a ∈ as, P a)
    (i : ℕ) : ∀ a ∈ as.modify i f, P a := by
  intro a ha
  obtain ⟨j, hj⟩ := List.mem_iff_getElem?.1 ha
  rw [List.getElem?_modify] at hj
  obtain ⟨b, hb, rfl⟩ := Option.map_eq_some_iff.1 hj
  have hbound := h b (List.mem_of_getElem? hb)
  split_ifs
  · exact hf b hbound
  · exact hbound

theorem wildcard_step {σ : Type} {zk : ZooKeeper σ} {s : Providers.System σ} {l : Providers.Label} (hl : OfServer l)
    (hs : ∀ p ∈ s.providers, Wildcard p.addr) : ∀ p ∈ (Providers.step zk s l).providers, Wildcard p.addr := by
  cases l with
  | start addr services =>
    obtain ⟨port, zkHost, ls, hmem⟩ := hl
    intro p hp
    rcases List.mem_append.1 hp with hp | hp
    · exact hs p hp
    · rw [List.mem_singleton.1 hp]
      exact (run_registers port zkHost ls).registered _ hmem
  | create i arrives =>
    cases hp : s.providers[i]? with
    | none => simpa only [Providers.step, hp] using hs
    | some p =>
      cases hc : p.pc.create p.addr with
      | none => simpa only [Providers.step, Providers.System.create, hp, hc] using hs
      | some c =>
        simp only [Providers.step, Providers.System.create, hp, hc]
        exact forall_modify (f := Providers.Provider.next) (fun _ h => h) hs i
  | close i =>
    cases hp : s.providers[i]? with
    | none => simpa only [Providers.step, hp] using hs
    | some p =>
      simp only [Providers.step, hp]
      exact forall_modify (f := fun p => { p with alive := false }) (fun _ h => h) hs i

/-- a client that reads such an address connects to its own host -/
theorem channelAddr_wildcard {port : ℕ} (hport : port ≤ 65535) :
    channelAddr (ascii ("0.0.0.0:" ++ toString (port : ℤ))) = .addressed ⟨ascii "0.0.0.0", port⟩ := by
  have htext : ascii ("0.0.0.0:" ++ toString (port : ℤ)) = (⟨ascii "0.0.0.0", port⟩ : IPNetAddr).toString := by
    unfold IPNetAddr.toString Addresses.toDecimal ascii
    rw [String.toList_append, List.map_append]
    rfl
  have hcolon : 58 ∉ ascii "0.0.0.0" := by decide
  rw [htext]
  exact Addresses.channelAddr_toString ⟨ascii "0.0.0.0", port⟩ hcolon hport

/-- **Servers**: where all providers are those of RpcServers, whatever has been done to these, an instance that is discovered
of a service in any run is "0.0.0.0" and a port, and a name for which getOrCreateChannel makes a channel to its own host -/
theorem discovered_wildcard {σ : Type} {zk : ZooKeeper σ} {t : σ} (ht : Providers.Fresh zk t) {ls : List Providers.Label}
    (hls : ∀ l ∈ ls, Providers.Plain l ∧ OfServer l) {name : String} (hname : IsName name) :
    ∀ addr ∈ Providers.discovered zk name (Machine.run (Providers.step zk) ⟨t, []⟩ ls),
      ∃ port : ℤ, addr = "0.0.0.0:" ++ toString port ∧
        (0 ≤ port → port ≤ 65535 → channelAddr (ascii addr) = .addressed ⟨ascii "0.0.0.0", port.toNat⟩) := by
  have hinv := Providers.run_inv ht fun l hl => (hls l hl).1
  have halong : Machine.Along (Providers.step zk) (fun _ l => OfServer l) ⟨t, []⟩ ls :=
    Machine.along_of_mem (fun l hl => (hls l hl).2) _
  have hwild : ∀ p ∈ (Machine.run (Providers.step zk) ⟨t, []⟩ ls).providers, Wildcard p.addr :=
    Machine.inv_run (I := fun s : Providers.System σ => ∀ p ∈ s.providers, Wildcard p.addr)
      (fun _ _ hl hs => wildcard_step hl hs) halong fun _ hp => absurd hp List.not_mem_nil
  intro addr haddr
  obtain ⟨-, hslash, hnode⟩ := (Providers.mem_discovered hinv hname).1 haddr
  obtain ⟨p, hp, -, rfl, -⟩ := hinv.sound hname.not_mem hslash hnode
  obtain ⟨port, hport⟩ := hwild p hp
  refine ⟨port, hport, ?_⟩
  intro h0 hle
  obtain ⟨n, rfl⟩ := Int.eq_ofNat_of_zero_le h0
  rw [hport]
  exact channelAddr_wildcard (by omega)

/-- a server that is told its address, and registers -/
abbrev addressed : List Label := [.setAddress "10.0.0.1" 8080, .registerService "s", .start, .provide, .registerToZk]

/-- its clients discover another one -/
theorem discovered_wildcard_addressed :
    (Machine.run step (make 8000 "zk:2181") addressed).addr = ⟨ascii "10.0.0.1", 8080⟩ ∧
      ∃ port : ℤ, "0.0.0.0:8080" = "0.0.0.0:" ++ toString port ∧ (0 ≤ port → port ≤ 65535 →
        channelAddr (ascii "0.0.0.0:8080") = .addressed ⟨ascii "0.0.0.0", port.toNat⟩) := by
  have hserver : ("0.0.0.0:8080", ["s"]) ∈ (Machine.run step (make 8000 "zk:2181") addressed).registered := by decide
  have hls : ∀ l ∈ Providers.Label.start "0.0.0.0:8080" ["s"] :: Providers.registers 0, Providers.Plain l ∧ OfServer l := by
    intro l hl
    rcases List.mem_cons.1 hl with rfl | hl
    · exact ⟨by decide, 8000, "zk:2181", addressed, hserver⟩
    · rw [List.eq_of_mem_replicate hl]
      exact ⟨trivial, trivial⟩
  have hinv := Providers.run_inv Providers.empty_fresh fun l hl => (hls l hl).1
  have hnode : Tree.server.node (Providers.endpointPath "s" "0.0.0.0:8080") (Machine.run (Providers.step Tree.server)
      ⟨Tree.empty, []⟩ (.start "0.0.0.0:8080" ["s"] :: Providers.registers 0)).tree = some (.session 0) := by decide
  have hmem := (Providers.mem_discovered hinv (by decide : IsName "s")).2
    ⟨(by decide : "0.0.0.0:8080" ≠ ""), by decide, by rw [hnode]; simp⟩
  exact ⟨by decide, discovered_wildcard Providers.empty_fresh hls (by decide) "0.0.0.0:8080" hmem⟩

end RpcServer

end MCoroRpc
