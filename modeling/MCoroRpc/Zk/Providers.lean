/-
The providers of a ZooKeeper server (RpcProvider::registerToZk in src/rpc_provider.cc).

Providers register with one ZooKeeper server, each in a session of its own. registerToZk makes its creates one after
another and looks at none of their results; a `Pc` is the create at which it stands. Labels start a provider that is
connected, let the next create of a provider take effect or be lost, or end a session: `close`, a crash or an expiry.
The keys of `m_services` come in some order, and getLocalAddr is the address as it is.

- `step`: the machine; `Creates`: all that a create can do.
- `Inv`, `run_inv`: in every run an address belongs to the session of a provider that lives, has that address and has
  created it; the nodes above the addresses are persistent; below "/rpc" there is nothing but the services.
-/
import MCoroRpc.Core.Machine
import MCoroRpc.Rpc.ServiceDiscovery
import MCoroRpc.Zk.Tree

namespace MCoroRpc

namespace Providers

open ServiceDiscovery (servicePath)
open Zk ZkClient

/-! ## Model -/

/-- the create that registerToZk makes next -/
inductive Pc where
  | root
  | services
  /-- in the loop over `m_services`, with the names behind `name` to come -/
  | service (name : String) (rest : List String)
  | endpoint (name : String) (rest : List String)
  | ended
deriving DecidableEq, Repr

/-- the head of the loop -/
def Pc.loop : List String → Pc
  | [] => .ended
  | name :: rest => .service name rest

def Pc.next (services : List String) : Pc → Pc
  | .root => .services
  | .services => .loop services
  | .service name rest => .endpoint name rest
  | .endpoint _ rest => .loop rest
  | .ended => .ended

/-- path and flags of the create: the address is ephemeral -/
def Pc.create (addr : String) : Pc → Option (String × Bool)
  | .root => some ("/rpc", false)
  | .services => some ("/rpc/services", false)
  | .service name _ => some (servicePath name, false)
  | .endpoint name _ => some (servicePath name ++ "/" ++ addr, true)
  | .ended => none

structure Provider where
  /-- `getLocalAddr()` -/
  addr : String
  /-- the keys of `m_services` -/
  services : List String
  pc : Pc
  /-- its session has not ended -/
  alive : Bool
deriving DecidableEq, Repr

/-- the session of a provider is its number -/
structure System (σ : Type) where
  tree : σ
  providers : List Provider

inductive Label where
  | start (addr : String) (services : List String)
  /-- the next create of the provider `i` arrives at the server, or is lost -/
  | create (i : ℕ) (arrives : Bool)
  | close (i : ℕ)
deriving DecidableEq, Repr

section
variable {σ : Type} (zk : ZooKeeper σ)

def System.create (i : ℕ) (arrives : Bool) (p : Provider) (s : System σ) : System σ :=
  match p.pc.create p.addr with
  | none => s
  | some (path, ephemeral) =>
    { tree := if p.alive = true ∧ arrives = true then (zk.create i path ephemeral s.tree).2 else s.tree
      providers := s.providers.modify i fun p => { p with pc := p.pc.next p.services } }

def step (s : System σ) : Label → System σ
  | .start addr services => { s with providers := s.providers ++ [⟨addr, services, .root, true⟩] }
  | .create i arrives =>
    match s.providers[i]? with
    | none => s
    | some p => s.create zk i arrives p
  | .close i =>
    match s.providers[i]? with
    | none => s
    | some _ =>
      { tree := zk.closeSession i s.tree, providers := s.providers.modify i fun p => { p with alive := false } }

/-- names of nodes; an address has no comma, and no service is registered twice -/
def Plain : Label → Prop
  | .start addr services => (IsName addr ∧ ',' ∉ addr.toList) ∧ (∀ name ∈ services, IsName name) ∧ services.Nodup
  | _ => True

instance (l : Label) : Decidable (Plain l) := by
  unfold Plain
  split <;> infer_instance

/-- nothing has been registered yet -/
def Fresh (t : σ) : Prop := ∀ rest, zk.node ("/rpc" ++ rest) t = none

end

/-! ## Paths -/

def endpointPath (name addr : String) : String := servicePath name ++ "/" ++ addr

theorem root_child : "/rpc" = child "" "rpc" := by decide

theorem services_child : "/rpc/services" = child "/rpc" "services" := by decide

theorem service_child (name : String) : servicePath name = child "/rpc/services" name := by
  rw [servicePath, child]
  rfl

theorem endpoint_child (name addr : String) : endpointPath name addr = child (servicePath name) addr := rfl

/-- how deep a path is -/
def depth (path : String) : ℕ := path.toList.count '/'

theorem depth_child {p name : String} (hname : '/' ∉ name.toList) : depth (child p name) = depth p + 1 := by
  rw [depth, child_toList, List.count_append, List.count_cons_self, List.count_eq_zero_of_not_mem hname]
  rfl

theorem depth_service {name : String} (hname : '/' ∉ name.toList) : depth (servicePath name) = 3 := by
  rw [service_child, depth_child hname]
  decide

theorem depth_endpoint {name addr : String} (hname : '/' ∉ name.toList) (haddr : '/' ∉ addr.toList) :
    depth (endpointPath name addr) = 4 := by
  rw [endpoint_child, depth_child haddr, depth_service hname]

theorem endpoint_inj {name name' addr addr' : String} (hname : '/' ∉ name.toList) (hname' : '/' ∉ name'.toList)
    (haddr : '/' ∉ addr.toList) (haddr' : '/' ∉ addr'.toList) :
    endpointPath name addr = endpointPath name' addr' ↔ name = name' ∧ addr = addr' := by
  rw [endpoint_child, endpoint_child, child_inj haddr haddr', service_child, service_child, child_inj hname hname']
  simp

/-! ## Providers -/

/-- the services whose address is still to be created -/
def Pc.todo (services : List String) : Pc → List String
  | .root => services
  | .services => services
  | .service name rest => name :: rest
  | .endpoint name rest => name :: rest
  | .ended => []

structure Provider.Valid (p : Provider) : Prop where
  addr : IsName p.addr
  comma : ',' ∉ p.addr.toList
  services : ∀ name ∈ p.services, IsName name
  nodup : p.services.Nodup
  todo : p.pc.todo p.services <:+ p.services

def Provider.next (p : Provider) : Provider := { p with pc := p.pc.next p.services }

/-- the create of the address for the service lies behind the provider; it may have been lost -/
def Provider.Has (p : Provider) (name : String) : Prop := name ∈ p.services ∧ name ∉ p.pc.todo p.services

namespace Provider

variable {p : Provider} {name : String} {rest : List String}

theorem loop_todo (services rest : List String) : (Pc.loop rest).todo services = rest := by
  cases rest <;> rfl

theorem next_todo (p : Provider) : p.next.pc.todo p.services =
    match p.pc with
    | .endpoint _ rest => rest
    | pc => pc.todo p.services := by
  unfold Provider.next
  cases p.pc with
  | services => exact loop_todo _ _
  | endpoint name rest => exact loop_todo _ _
  | _ => rfl

theorem Valid.next (h : p.Valid) : p.next.Valid := by
  refine ⟨h.addr, h.comma, h.services, h.nodup, ?_⟩
  have htodo := h.todo
  change p.next.pc.todo p.services <:+ p.services
  rw [next_todo]
  cases hpc : p.pc with
  | endpoint name rest =>
    rw [hpc] at htodo
    exact (List.suffix_cons name rest).trans htodo
  | _ => rwa [hpc] at htodo

/-- at the create of the address for `name` -/
theorem Valid.at_endpoint (h : p.Valid) (hpc : p.pc = .endpoint name rest) :
    name ∈ p.services ∧ IsName name ∧ ¬ p.Has name ∧ p.next.Has name := by
  have htodo := h.todo
  rw [hpc] at htodo
  have hmem : name ∈ p.services := htodo.subset List.mem_cons_self
  have hnodup := h.nodup.sublist htodo.sublist
  refine ⟨hmem, h.services name hmem, ?_, hmem, ?_⟩
  · rintro ⟨-, hno⟩
    rw [hpc] at hno
    exact hno List.mem_cons_self
  · change name ∉ p.next.pc.todo p.services
    rw [next_todo, hpc]
    exact (List.nodup_cons.1 hnodup).1

/-- what has been created stays created, and one create is for one service -/
theorem has_next (name' : String) : p.next.Has name' → p.Has name' ∨ ∃ rest, p.pc = .endpoint name' rest := by
  rintro ⟨hmem, hno⟩
  change name' ∉ p.next.pc.todo p.services at hno
  rw [next_todo] at hno
  unfold Provider.Has
  cases hpc : p.pc with
  | endpoint name rest =>
    rw [hpc] at hno
    by_cases heq : name' = name
    · right
      rw [heq]
      exact ⟨rest, rfl⟩
    · left
      refine ⟨hmem, ?_⟩
      intro h
      rcases List.mem_cons.1 h with h | h
      · exact heq h
      · exact hno h
  | _ =>
    left
    rw [hpc] at hno
    exact ⟨hmem, hno⟩

theorem next_has (name' : String) : p.Has name' → p.next.Has name' := by
  rintro ⟨hmem, hno⟩
  refine ⟨hmem, ?_⟩
  change name' ∉ p.next.pc.todo p.services
  rw [next_todo]
  cases hpc : p.pc with
  | endpoint name rest =>
    rw [hpc] at hno
    exact fun h => hno (List.mem_cons_of_mem name h)
  | _ => rwa [hpc] at hno

end Provider

/-- every create is of a name below a path -/
theorem create_child {p : Provider} {path : String} {e : Bool} (h : p.Valid) (hc : p.pc.create p.addr = some (path, e)) :
    ∃ parent name, path = child parent name ∧ IsName name := by
  have htodo := h.todo
  cases hpc : p.pc with
  | root =>
    rw [hpc] at hc
    cases hc
    exact ⟨_, _, root_child, by decide⟩
  | services =>
    rw [hpc] at hc
    cases hc
    exact ⟨_, _, services_child, by decide⟩
  | service name rest =>
    rw [hpc] at hc htodo
    cases hc
    exact ⟨_, _, service_child name, h.services name (htodo.subset List.mem_cons_self)⟩
  | endpoint name rest =>
    rw [hpc] at hc
    cases hc
    exact ⟨_, _, endpoint_child name p.addr, h.addr⟩
  | ended =>
    rw [hpc] at hc
    cases hc

/-- the creates above the addresses are persistent; an address is created for the service of the round -/
theorem create_endpoint {p : Provider} {name addr : String} {e : Bool} (h : p.Valid) (hname : '/' ∉ name.toList)
    (haddr : '/' ∉ addr.toList) (hc : p.pc.create p.addr = some (endpointPath name addr, e)) :
    addr = p.addr ∧ e = true ∧ ∃ rest, p.pc = .endpoint name rest := by
  have htodo := h.todo
  have hdepth := depth_endpoint hname haddr
  cases hpc : p.pc with
  | root =>
    rw [hpc] at hc
    rw [← (Prod.mk.inj (Option.some.inj hc)).1] at hdepth
    exact absurd hdepth (by decide)
  | services =>
    rw [hpc] at hc
    rw [← (Prod.mk.inj (Option.some.inj hc)).1] at hdepth
    exact absurd hdepth (by decide)
  | service name' rest =>
    rw [hpc] at hc htodo
    have hname' := (h.services name' (htodo.subset List.mem_cons_self)).not_mem
    rw [← (Prod.mk.inj (Option.some.inj hc)).1, depth_service hname'] at hdepth
    exact absurd hdepth (by decide)
  | endpoint name' rest =>
    rw [hpc] at hc htodo
    have hname' := (h.services name' (htodo.subset List.mem_cons_self)).not_mem
    obtain ⟨h1, h2⟩ := Prod.mk.inj (Option.some.inj hc)
    obtain ⟨rfl, rfl⟩ := (endpoint_inj hname' hname h.addr.not_mem haddr).1 h1
    exact ⟨rfl, h2.symm, rest, rfl⟩
  | ended =>
    rw [hpc] at hc
    cases hc

/-- what is created at the depth of a service or above is persistent -/
theorem create_above {p : Provider} {path : String} {e : Bool} (h : p.Valid)
    (hc : p.pc.create p.addr = some (path, e)) (hdepth : depth path ≤ 3) : e = false := by
  have htodo := h.todo
  cases hpc : p.pc with
  | endpoint name rest =>
    rw [hpc] at hc htodo
    have hname := (h.services name (htodo.subset List.mem_cons_self)).not_mem
    rw [← (Prod.mk.inj (Option.some.inj hc)).1] at hdepth
    have hfour := depth_endpoint hname h.addr.not_mem
    unfold endpointPath at hfour
    omega
  | ended =>
    rw [hpc] at hc
    cases hc
  | _ =>
    rw [hpc] at hc
    exact (Prod.mk.inj (Option.some.inj hc)).2.symm

/-! ## What a step does -/

section
variable {σ : Type} {zk : ZooKeeper σ} {s : System σ} {i : ℕ} {p : Provider}

/-- all that the create of the provider `i` can do -/
inductive Creates (zk : ZooKeeper σ) (s : System σ) (i : ℕ) (arrives : Bool) (p : Provider) : System σ → Prop where
  | nothing (hended : p.pc = .ended) : Creates zk s i arrives p s
  | lost (path : String) (e : Bool) (hc : p.pc.create p.addr = some (path, e))
      (hlost : ¬ (p.alive = true ∧ arrives = true)) :
      Creates zk s i arrives p ⟨s.tree, s.providers.modify i Provider.next⟩
  | done (path : String) (e : Bool) (hc : p.pc.create p.addr = some (path, e)) (halive : p.alive = true)
      (harrives : arrives = true) :
      Creates zk s i arrives p ⟨(zk.create i path e s.tree).2, s.providers.modify i Provider.next⟩

theorem create_creates (s : System σ) (i : ℕ) (arrives : Bool) (p : Provider) :
    Creates zk s i arrives p (s.create zk i arrives p) := by
  unfold System.create
  cases hc : p.pc.create p.addr with
  | none =>
    apply Creates.nothing
    cases hpc : p.pc with
    | ended => rfl
    | _ =>
      rw [hpc] at hc
      cases hc
  | some c =>
    obtain ⟨path, e⟩ := c
    dsimp only
    split_ifs with harr
    · exact .done path e hc harr.1 harr.2
    · exact .lost path e hc harr

theorem getElem?_next {j : ℕ} {q : Provider} {ps : List Provider} (h : (ps.modify i Provider.next)[j]? = some q) :
    j ≠ i ∧ ps[j]? = some q ∨ j = i ∧ ∃ p, ps[i]? = some p ∧ q = p.next := by
  by_cases hj : j = i
  · right
    subst hj
    rw [List.getElem?_modify_eq] at h
    obtain ⟨p, hp, rfl⟩ := Option.map_eq_some_iff.1 h
    exact ⟨rfl, p, hp, rfl⟩
  · left
    rw [List.getElem?_modify_ne _ _ (Ne.symm hj)] at h
    exact ⟨hj, h⟩

theorem getElem?_close {j : ℕ} {q : Provider} {ps : List Provider}
    (h : (ps.modify i fun p => { p with alive := false })[j]? = some q) :
    j ≠ i ∧ ps[j]? = some q ∨ j = i ∧ ∃ p, ps[i]? = some p ∧ q = { p with alive := false } := by
  by_cases hj : j = i
  · right
    subst hj
    rw [List.getElem?_modify_eq] at h
    obtain ⟨p, hp, rfl⟩ := Option.map_eq_some_iff.1 h
    exact ⟨rfl, p, hp, rfl⟩
  · left
    rw [List.getElem?_modify_ne _ _ (Ne.symm hj)] at h
    exact ⟨hj, h⟩

/-! ## Every run -/

/-- the paths above the addresses -/
def Above (path : String) : Prop :=
  path = "/rpc" ∨ path = "/rpc/services" ∨ ∃ name : String, '/' ∉ name.toList ∧ path = servicePath name

theorem Above.depth {path : String} (h : Above path) : depth path ≤ 3 := by
  rcases h with rfl | rfl | ⟨name, hname, rfl⟩
  · decide
  · decide
  · rw [depth_service hname]

/-- `o` is the session of a provider that lives, at that address, and is behind its create for the service -/
def Owns (s : System σ) (name addr : String) (o : Owner) : Prop :=
  ∃ n p, o = .session n ∧ s.providers[n]? = some p ∧ p.alive = true ∧ p.addr = addr ∧ p.Has name

structure Inv (zk : ZooKeeper σ) (s : System σ) : Prop where
  valid : ∀ p ∈ s.providers, p.Valid
  owned : ∀ {name addr : String} {o : Owner}, '/' ∉ name.toList → '/' ∉ addr.toList →
    zk.node (endpointPath name addr) s.tree = some o → Owns s name addr o
  above : ∀ {path : String} {o : Owner}, Above path → zk.node path s.tree = some o → o = .persistent
  parents : ∀ {name addr : String}, '/' ∉ name.toList → '/' ∉ addr.toList →
    zk.node (endpointPath name addr) s.tree ≠ none → zk.node (servicePath name) s.tree = some .persistent
  silent : ∀ {name : String}, '/' ∉ name.toList → name ≠ "services" → zk.node (child "/rpc" name) s.tree = none

variable {t : σ}

theorem start_inv (ht : Fresh zk t) : Inv zk ⟨t, []⟩ := by
  have hrpc : ∀ rest, zk.node ("/rpc" ++ rest) t = none := ht
  have hservice : ∀ name, servicePath name = "/rpc" ++ ("/services/" ++ name) := by
    intro name
    rw [← String.append_assoc]
    rfl
  have habove : ∀ path, Above path → zk.node path t = none := by
    rintro path (rfl | rfl | ⟨name, -, rfl⟩)
    · exact hrpc ""
    · exact hrpc "/services"
    · rw [hservice]
      exact hrpc _
  have hendpoint : ∀ name addr, zk.node (endpointPath name addr) t = none := by
    intro name addr
    rw [endpointPath, hservice, String.append_assoc, String.append_assoc]
    exact hrpc _
  refine ⟨nofun, ?_, ?_, ?_, ?_⟩
  · intro name addr o _ _ h
    rw [hendpoint] at h
    cases h
  · intro path o hpath h
    rw [habove path hpath] at h
    cases h
  · intro name addr _ _ h
    exact absurd (hendpoint name addr) h
  · intro name _ _
    rw [child, String.append_assoc]
    exact hrpc _

theorem Inv.sound (h : Inv zk s) {name addr : String} (hname : '/' ∉ name.toList) (haddr : '/' ∉ addr.toList)
    (hnode : zk.node (endpointPath name addr) s.tree ≠ none) :
    ∃ p ∈ s.providers, p.alive = true ∧ p.addr = addr ∧ p.Has name := by
  obtain ⟨o, ho⟩ := Option.ne_none_iff_exists'.1 hnode
  obtain ⟨n, p, -, hp, hrest⟩ := h.owned hname haddr ho
  exact ⟨p, List.mem_of_getElem? hp, hrest⟩

/-- providers that go on keep what they own -/
theorem Owns.next {name addr : String} {o : Owner} (h : Owns s name addr o) (t : σ) (i : ℕ) :
    Owns ⟨t, s.providers.modify i Provider.next⟩ name addr o := by
  obtain ⟨n, p, rfl, hp, halive, haddr, hhas⟩ := h
  by_cases hn : n = i
  · subst hn
    refine ⟨n, p.next, rfl, ?_, halive, haddr, Provider.next_has name hhas⟩
    rw [List.getElem?_modify_eq, hp]
    rfl
  · refine ⟨n, p, rfl, ?_, halive, haddr, hhas⟩
    rw [List.getElem?_modify_ne _ _ (Ne.symm hn)]
    exact hp

theorem Inv.valid_next (h : Inv zk s) (i : ℕ) : ∀ p ∈ s.providers.modify i Provider.next, p.Valid := by
  intro q hq
  obtain ⟨j, hj⟩ := List.mem_iff_getElem?.1 hq
  rcases getElem?_next hj with ⟨-, hj⟩ | ⟨-, p, hp, rfl⟩
  · exact h.valid q (List.mem_of_getElem? hj)
  · exact (h.valid p (List.mem_of_getElem? hp)).next

/-- a create that arrives -/
theorem Inv.done (h : Inv zk s) (hp : s.providers[i]? = some p) {path : String} {e : Bool}
    (hc : p.pc.create p.addr = some (path, e)) (halive : p.alive = true) :
    Inv zk ⟨(zk.create i path e s.tree).2, s.providers.modify i Provider.next⟩ := by
  have hvalid := h.valid p (List.mem_of_getElem? hp)
  obtain ⟨parent, base, rfl, hbase⟩ := create_child hvalid hc
  rcases zk.create_cases (n := i) (p := parent) (e := e) (t := s.tree) hbase with hsame | ⟨hnone, hparent, hnew⟩
  · -- the node was there, or its parent was not
    rw [hsame]
    exact ⟨h.valid_next i, fun hname haddr hnode => (h.owned hname haddr hnode).next s.tree i, h.above, h.parents, h.silent⟩
  refine ⟨h.valid_next i, ?_, ?_, ?_, ?_⟩
  · intro name addr o hname haddr hnode
    by_cases hpath : endpointPath name addr = child parent base
    · rw [hnew, if_pos hpath] at hnode
      rw [← hpath] at hc
      obtain ⟨rfl, rfl, rest, hpc⟩ := create_endpoint hvalid hname haddr hc
      obtain rfl := Option.some.inj hnode
      refine ⟨i, p.next, rfl, ?_, halive, rfl, (hvalid.at_endpoint hpc).2.2.2⟩
      rw [List.getElem?_modify_eq, hp]
      rfl
    · rw [hnew, if_neg hpath] at hnode
      exact (h.owned hname haddr hnode).next _ i
  · intro path o hpath hnode
    rw [hnew] at hnode
    split_ifs at hnode with heq
    · rw [← heq] at hc
      obtain rfl := create_above hvalid hc hpath.depth
      exact (Option.some.inj hnode).symm
    · exact h.above hpath hnode
  · intro name addr hname haddr hnode
    have hservice : zk.node (servicePath name) s.tree = some .persistent := by
      by_cases hpath : endpointPath name addr = child parent base
      · obtain ⟨rfl, -⟩ := (child_inj haddr hbase.not_mem).1 ((endpoint_child name addr).symm.trans hpath)
        rcases hparent with hroot | hparent
        · have hdepth := depth_service hname
          rw [hroot] at hdepth
          exact absurd hdepth (by decide)
        · exact hparent
      · rw [hnew, if_neg hpath] at hnode
        exact h.parents hname haddr hnode
    exact zk.create_grows hbase hservice
  · intro name hname hne
    have hpath : child "/rpc" name ≠ child parent base := by
      intro heq
      -- the path has the depth of "/rpc/services"
      have hdepth : depth (child parent base) = 2 := by
        rw [← heq, depth_child hname]
        decide
      have htodo := hvalid.todo
      cases hpc : p.pc with
      | root =>
        rw [hpc] at hc
        rw [← (Prod.mk.inj (Option.some.inj hc)).1] at hdepth
        exact absurd hdepth (by decide)
      | services =>
        rw [hpc] at hc
        rw [← (Prod.mk.inj (Option.some.inj hc)).1, services_child] at heq
        exact hne ((child_inj hname (by decide)).1 heq).2
      | service name' rest =>
        rw [hpc] at hc htodo
        have hname' := (hvalid.services name' (htodo.subset List.mem_cons_self)).not_mem
        rw [← (Prod.mk.inj (Option.some.inj hc)).1, depth_service hname'] at hdepth
        exact absurd hdepth (by decide)
      | endpoint name' rest =>
        rw [hpc] at hc htodo
        have hname' := (hvalid.services name' (htodo.subset List.mem_cons_self)).not_mem
        have hfour := depth_endpoint hname' hvalid.addr.not_mem
        rw [← (Prod.mk.inj (Option.some.inj hc)).1] at hdepth
        unfold endpointPath at hfour
        omega
      | ended =>
        rw [hpc] at hc
        cases hc
    rw [hnew, if_neg hpath]
    exact h.silent hname hne

theorem Inv.close (h : Inv zk s) (i : ℕ) :
    Inv zk ⟨zk.closeSession i s.tree, s.providers.modify i fun p => { p with alive := false }⟩ := by
  refine ⟨?_, ?_, ?_, ?_, ?_⟩
  · intro q hq
    obtain ⟨j, hj⟩ := List.mem_iff_getElem?.1 hq
    rcases getElem?_close hj with ⟨-, hj⟩ | ⟨-, p, hp, rfl⟩
    · exact h.valid q (List.mem_of_getElem? hj)
    · have hvalid := h.valid p (List.mem_of_getElem? hp)
      exact ⟨hvalid.addr, hvalid.comma, hvalid.services, hvalid.nodup, hvalid.todo⟩
  · intro name addr o hname haddr hnode
    obtain ⟨hbefore, ho⟩ := zk.close_shrinks hnode
    obtain ⟨n, p, rfl, hp, hrest⟩ := h.owned hname haddr hbefore
    have hn : n ≠ i := by
      rintro rfl
      exact ho rfl
    refine ⟨n, p, rfl, ?_, hrest⟩
    rw [List.getElem?_modify_ne _ _ (Ne.symm hn)]
    exact hp
  · intro path o hpath hnode
    exact h.above hpath (zk.close_shrinks hnode).1
  · intro name addr hname haddr hnode
    obtain ⟨o, ho⟩ := Option.ne_none_iff_exists'.1 hnode
    have hbefore := h.parents hname haddr (by rw [(zk.close_shrinks ho).1]; simp)
    exact zk.closeSession_keeps hbefore (by simp)
  · intro name hname hne
    rw [zk.node_close, h.silent hname hne]
    rfl

theorem Inv.start (h : Inv zk s) {addr : String} {services : List String} (hl : Plain (.start addr services)) :
    Inv zk { s with providers := s.providers ++ [⟨addr, services, .root, true⟩] } := by
  obtain ⟨⟨haddr, hcomma⟩, hservices, hnodup⟩ := hl
  refine ⟨?_, ?_, h.above, h.parents, h.silent⟩
  · intro p hp
    rcases List.mem_append.1 hp with hp | hp
    · exact h.valid p hp
    · rw [List.mem_singleton.1 hp]
      exact ⟨haddr, hcomma, hservices, hnodup, List.suffix_rfl⟩
  · intro name addr' o hname haddr' hnode
    obtain ⟨n, p, rfl, hp, hrest⟩ := h.owned hname haddr' hnode
    exact ⟨n, p, rfl, (List.getElem?_append_left (List.getElem?_eq_some_iff.1 hp).1).trans hp, hrest⟩

theorem Inv.create (h : Inv zk s) (hp : s.providers[i]? = some p) (arrives : Bool) :
    Inv zk (s.create zk i arrives p) := by
  generalize hs' : s.create zk i arrives p = s'
  have hcreates : Creates zk s i arrives p s' := hs' ▸ create_creates s i arrives p
  cases hcreates with
  | nothing => exact h
  | lost =>
    exact ⟨h.valid_next i, fun hname haddr hnode => (h.owned hname haddr hnode).next s.tree i, h.above, h.parents,
      h.silent⟩
  | done path e hc halive => exact h.done hp hc halive

/-- **One step** -/
theorem Inv.step (h : Inv zk s) {l : Label} (hl : Plain l) : Inv zk (step zk s l) := by
  cases l with
  | start addr services => exact h.start hl
  | create i arrives =>
    cases hp : s.providers[i]? with
    | none =>
      simp only [Providers.step, hp]
      exact h
    | some p =>
      simp only [Providers.step, hp]
      exact h.create hp arrives
  | close i =>
    cases hp : s.providers[i]? with
    | none =>
      simp only [Providers.step, hp]
      exact h
    | some p =>
      simp only [Providers.step, hp]
      exact h.close i

theorem run_inv (ht : Fresh zk t) {ls : List Label} (hls : ∀ l ∈ ls, Plain l) :
    Inv zk (Machine.run (step zk) ⟨t, []⟩ ls) :=
  Machine.inv_run (fun _ _ hl h => h.step hl) (Machine.along_of_mem hls _) (start_inv ht)

end

end Providers

end MCoroRpc
