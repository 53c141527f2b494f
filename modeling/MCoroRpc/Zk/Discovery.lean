/-
What clients discover of the registered providers (ServiceDiscovery in src/rpc_provider.cc).

getInstances lists the children of the node of a service, and discoverAllMethods those of a node below "/rpc".

- `discovered_sound`: in every run, an address that is discovered for a service is that of a provider whose session lives,
  and the node below the service is one of that session.
- `discovered_iff`: in every run in which no create is lost and no provider starts at an address whose session still
  lives, what is discovered is exactly what the living providers have registered so far, whatever the interleaving.
- `registered_iff`: a provider that lives on alone is discovered exactly if its create met no node, but the node of the
  service. Behind a restart at the same address within the old session it is never discovered again.
- `discoverAllMethods_nothing`: discoverAllMethods looks where nothing is registered.
-/
import MCoroRpc.Zk.Providers

namespace MCoroRpc

namespace Providers

open ServiceDiscovery (servicePath getInstances)
open Zk ZkClient

/-! ## Model -/

section
variable {σ : Type} (zk : ZooKeeper σ)

/-- `getChildren` of a client, without a watch -/
def getChildren (s : System σ) (path : String) : ZkResult :=
  getChildrenCompletion ⟨(zk.getChildren path s.tree).1, none, none, (zk.getChildren path s.tree).2⟩

/-- what a client discovers -/
def discovered (name : String) (s : System σ) : List String := getInstances true (getChildren zk s) name

def discoverAllMethods (connected : Bool) (getChildren : String → ZkResult) (serviceName : String) : List String :=
  if !connected then []
  else
    let result := getChildren ("/rpc/" ++ serviceName)
    if result.rc = ZOK then (Getline.getlines ',' result.data.toList).map String.ofList else []

/-- no create is lost, and no provider starts at an address whose session lives -/
def Lone (s : System σ) (l : Label) : Prop :=
  Plain l ∧
    match l with
    | .start addr _ => ∀ p ∈ s.providers, p.alive = true → p.addr ≠ addr
    | .create _ arrives => arrives = true
    | .close _ => True

end

/-! ## What is discovered -/

section
variable {σ : Type} {zk : ZooKeeper σ} {s : System σ} {t : σ} {i : ℕ} {p : Provider} {name addr : String}

theorem discovered_none (hnone : zk.node (servicePath name) s.tree = none) : discovered zk name s = [] := by
  have hchildren := zk.children_none hnone
  have hrc : (getChildren zk s (servicePath name)).rc = ZNONODE := by
    rw [getChildren, hchildren]
    rfl
  simp only [discovered, getInstances, Bool.not_true, Bool.false_eq_true, if_false, hrc]
  rfl

theorem discovered_some (h : Inv zk s) (hname : IsName name) (hsome : zk.node (servicePath name) s.tree ≠ none) :
    discovered zk name s = (zk.getChildren (servicePath name) s.tree).2 := by
  obtain ⟨hok, -, hmem⟩ := zk.children_some hsome
  have hrc : (getChildren zk s (servicePath name)).rc = ZOK := hok
  simp only [discovered, getInstances, Bool.not_true, Bool.false_eq_true, if_false, hrc, if_true]
  apply ServiceDiscovery.instancesOf_completion
  · intro addr haddr
    obtain ⟨-, hslash, hnode⟩ := (hmem addr).1 haddr
    obtain ⟨p, hp, -, rfl, -⟩ := h.sound hname.not_mem hslash hnode
    exact (h.valid p hp).comma
  · intro addr haddr
    exact ((hmem addr).1 haddr).1

theorem mem_discovered (h : Inv zk s) (hname : IsName name) : addr ∈ discovered zk name s ↔
    addr ≠ "" ∧ '/' ∉ addr.toList ∧ zk.node (endpointPath name addr) s.tree ≠ none := by
  by_cases hnone : zk.node (servicePath name) s.tree = none
  · rw [discovered_none hnone]
    constructor
    · exact fun hmem => absurd hmem List.not_mem_nil
    · rintro ⟨-, hslash, hnode⟩
      rw [h.parents hname.not_mem hslash hnode] at hnone
      cases hnone
  · rw [discovered_some h hname hnone, (zk.children_some hnone).2.2]
    rfl

theorem discovered_nodup (h : Inv zk s) (hname : IsName name) : (discovered zk name s).Nodup := by
  by_cases hnone : zk.node (servicePath name) s.tree = none
  · rw [discovered_none hnone]
    exact List.nodup_nil
  · rw [discovered_some h hname hnone]
    exact (zk.children_some hnone).2.1

/-- an address at which a provider lives that has made its create for the service, which may have been lost -/
def Serves (s : System σ) (name addr : String) : Prop :=
  ∃ p ∈ s.providers, p.alive = true ∧ p.addr = addr ∧ p.Has name

/-- **No stale instance**: what is discovered in any run is the address of a provider whose session lives, and the node of
this address below the service belongs to that session -/
theorem discovered_sound (ht : Fresh zk t) {ls : List Label} (hls : ∀ l ∈ ls, Plain l) (hname : IsName name) :
    ∀ addr ∈ discovered zk name (Machine.run (step zk) ⟨t, []⟩ ls), ∃ o,
      zk.node (endpointPath name addr) (Machine.run (step zk) ⟨t, []⟩ ls).tree = some o ∧
        Owns (Machine.run (step zk) ⟨t, []⟩ ls) name addr o := by
  have h := run_inv ht hls
  intro addr haddr
  obtain ⟨-, hslash, hnode⟩ := (mem_discovered h hname).1 haddr
  obtain ⟨o, ho⟩ := Option.ne_none_iff_exists'.1 hnode
  exact ⟨o, ho, h.owned hname.not_mem hslash ho⟩

/-! ## Runs without losses -/

/-- the creates that a living provider has made have taken effect -/
structure Full (zk : ZooKeeper σ) (s : System σ) : Prop where
  inv : Inv zk s
  lone : ∀ {i j : ℕ} {p q : Provider}, s.providers[i]? = some p → s.providers[j]? = some q → p.alive = true →
    q.alive = true → p.addr = q.addr → i = j
  root : ∀ p ∈ s.providers, p.alive = true → p.pc ≠ .root → zk.node "/rpc" s.tree = some .persistent
  services : ∀ p ∈ s.providers, p.alive = true → p.pc ≠ .root → p.pc ≠ .services →
    zk.node "/rpc/services" s.tree = some .persistent
  service : ∀ p ∈ s.providers, p.alive = true → ∀ name rest, p.pc = .endpoint name rest →
    zk.node (servicePath name) s.tree = some .persistent
  endpoint : ∀ {i : ℕ} {p : Provider}, s.providers[i]? = some p → p.alive = true → ∀ name, p.Has name →
    zk.node (endpointPath name p.addr) s.tree = some (.session i)

theorem start_full (ht : Fresh zk t) : Full zk ⟨t, []⟩ :=
  ⟨start_inv ht, nofun, nofun, nofun, nofun, nofun⟩

/-- a persistent node above the addresses is there behind its create -/
theorem Inv.ensures (h : Inv zk s) {parent base : String} (hbase : IsName base) (habove : Above (child parent base))
    (hparent : parent = "" ∨ zk.node parent s.tree = some .persistent) :
    zk.node (child parent base) (zk.create i (child parent base) false s.tree).2 = some .persistent := by
  cases hnode : zk.node (child parent base) s.tree with
  | none => exact zk.create_self hbase hnode hparent
  | some o =>
    obtain rfl := h.above habove hnode
    exact zk.create_grows hbase hnode

/-- the providers behind a create: the one that has gone on, and the others -/
theorem forall_next {P : Provider → Prop} (hold : ∀ q ∈ s.providers, P q) (hp : s.providers[i]? = some p)
    (hnew : P p.next) : ∀ q ∈ s.providers.modify i Provider.next, P q := by
  intro q hq
  obtain ⟨j, hj⟩ := List.mem_iff_getElem?.1 hq
  rcases getElem?_next hj with ⟨-, hj⟩ | ⟨-, p', hp', rfl⟩
  · exact hold q (List.mem_of_getElem? hj)
  · obtain rfl := Option.some.inj (hp.symm.trans hp')
    exact hnew

/-- behind its create a node is there -/
theorem Full.done (h : Full zk s) (hp : s.providers[i]? = some p) {path : String} {e : Bool}
    (hc : p.pc.create p.addr = some (path, e)) (halive : p.alive = true) :
    Full zk ⟨(zk.create i path e s.tree).2, s.providers.modify i Provider.next⟩ := by
  have hmem := List.mem_of_getElem? hp
  have hvalid := h.inv.valid p hmem
  obtain ⟨parent, base, hpath, hbase⟩ := create_child hvalid hc
  have hgrows : ∀ q o, zk.node q s.tree = some o → zk.node q (zk.create i path e s.tree).2 = some o := by
    intro q o hq
    rw [hpath]
    exact zk.create_grows hbase hq
  refine ⟨h.inv.done hp hc halive, ?_, ?_, ?_, ?_, ?_⟩
  · intro j k q r hj hk hq hr haddr
    have hback : ∀ {j : ℕ} {q : Provider}, (s.providers.modify i Provider.next)[j]? = some q → q.alive = true →
        ∃ q', s.providers[j]? = some q' ∧ q'.alive = true ∧ q'.addr = q.addr := by
      intro j q hj hq
      rcases getElem?_next hj with ⟨-, hj⟩ | ⟨rfl, p', hp', rfl⟩
      · exact ⟨q, hj, hq, rfl⟩
      · exact ⟨p', hp', hq, rfl⟩
    obtain ⟨q', hq', hqa, hqb⟩ := hback hj hq
    obtain ⟨r', hr', hra, hrb⟩ := hback hk hr
    exact h.lone hq' hr' hqa hra (hqb.trans (haddr.trans hrb.symm))
  · apply forall_next (fun q hq hqa hne => hgrows _ _ (h.root q hq hqa hne)) hp
    intro _ _
    by_cases hpc : p.pc = .root
    · rw [hpc] at hc
      cases hc
      rw [root_child]
      exact h.inv.ensures (by decide) (.inl root_child.symm) (.inl rfl)
    · exact hgrows _ _ (h.root p hmem halive hpc)
  · apply forall_next (fun q hq hqa hne hne' => hgrows _ _ (h.services q hq hqa hne hne')) hp
    intro _ _ hne
    by_cases hroot : p.pc = .root
    · exact absurd (by rw [Provider.next, hroot]; rfl) hne
    by_cases hpc : p.pc = .services
    · rw [hpc] at hc
      cases hc
      rw [services_child]
      exact h.inv.ensures (by decide) (.inr (.inl services_child.symm)) (.inr (h.root p hmem halive hroot))
    · exact hgrows _ _ (h.services p hmem halive hroot hpc)
  · apply forall_next (fun q hq hqa name rest hpc => hgrows _ _ (h.service q hq hqa name rest hpc)) hp
    intro _ name rest hnext
    have hpc : p.pc = .service name rest := by
      unfold Provider.next at hnext
      cases hpc : p.pc with
      | service name' rest' =>
        rw [hpc] at hnext
        cases hnext
        rfl
      | services =>
        rw [hpc] at hnext
        cases hservices : p.services with
        | nil =>
          rw [hservices] at hnext
          cases hnext
        | cons _ _ =>
          rw [hservices] at hnext
          cases hnext
      | endpoint name' rest' =>
        rw [hpc] at hnext
        cases rest' <;> cases hnext
      | _ =>
        rw [hpc] at hnext
        cases hnext
    have htodo := hvalid.todo
    rw [hpc] at hc htodo
    cases hc
    have hname := hvalid.services name (htodo.subset List.mem_cons_self)
    have hparent := h.services p hmem halive (by rw [hpc]; nofun) (by rw [hpc]; nofun)
    rw [service_child]
    exact h.inv.ensures hname (.inr (.inr ⟨name, hname.not_mem, (service_child name).symm⟩)) (.inr hparent)
  · intro j q hj hq name hhas
    rcases getElem?_next hj with ⟨-, hj⟩ | ⟨rfl, p', hp', rfl⟩
    · exact hgrows _ _ (h.endpoint hj hq name hhas)
    · obtain rfl := Option.some.inj (hp.symm.trans hp')
      rcases Provider.has_next name hhas with hbefore | ⟨rest, hpc⟩
      · exact hgrows _ _ (h.endpoint hp halive name hbefore)
      · -- the address of the round: nobody else lives who could have created it
        obtain ⟨-, hname, hnot, -⟩ := hvalid.at_endpoint hpc
        have hparent := h.service p hmem halive name rest hpc
        rw [hpc] at hc
        cases hc
        cases hnode : zk.node (endpointPath name p.addr) s.tree with
        | none => exact zk.create_self hvalid.addr hnode (.inr hparent)
        | some o =>
          obtain ⟨k, r, rfl, hr, hra, haddr, hrhas⟩ := h.inv.owned hname.not_mem hvalid.addr.not_mem hnode
          obtain rfl := h.lone hr hp hra halive haddr
          obtain rfl := Option.some.inj (hr.symm.trans hp)
          exact absurd hrhas hnot

theorem Full.close (h : Full zk s) (i : ℕ) :
    Full zk ⟨zk.closeSession i s.tree, s.providers.modify i fun p => { p with alive := false }⟩ := by
  have hkeeps : ∀ q, zk.node q s.tree = some .persistent → zk.node q (zk.closeSession i s.tree) = some .persistent :=
    fun q hq => zk.closeSession_keeps hq (by simp)
  have hback : ∀ {j : ℕ} {q : Provider}, (s.providers.modify i fun p => { p with alive := false })[j]? = some q →
      q.alive = true → j ≠ i ∧ s.providers[j]? = some q := by
    intro j q hj hq
    rcases getElem?_close hj with hj | ⟨-, p, -, rfl⟩
    · exact hj
    · cases hq
  have hmem : ∀ q ∈ s.providers.modify i fun p => { p with alive := false }, q.alive = true → q ∈ s.providers := by
    intro q hq hqa
    obtain ⟨j, hj⟩ := List.mem_iff_getElem?.1 hq
    exact List.mem_of_getElem? (hback hj hqa).2
  refine ⟨h.inv.close i, ?_, ?_, ?_, ?_, ?_⟩
  · intro j k q r hj hk hq hr haddr
    exact h.lone (hback hj hq).2 (hback hk hr).2 hq hr haddr
  · exact fun q hq hqa hne => hkeeps _ (h.root q (hmem q hq hqa) hqa hne)
  · exact fun q hq hqa hne hne' => hkeeps _ (h.services q (hmem q hq hqa) hqa hne hne')
  · exact fun q hq hqa name rest hpc => hkeeps _ (h.service q (hmem q hq hqa) hqa name rest hpc)
  · intro j q hj hqa name hhas
    obtain ⟨hne, hj⟩ := hback hj hqa
    exact zk.closeSession_keeps (h.endpoint hj hqa name hhas) (by simpa using hne)

theorem Full.start (h : Full zk s) {addr : String} {services : List String} (hl : Lone s (.start addr services)) :
    Full zk { s with providers := s.providers ++ [⟨addr, services, .root, true⟩] } := by
  obtain ⟨hplain, hlone⟩ := hl
  -- the new provider is the last one
  have hcases : ∀ {j : ℕ} {q : Provider}, (s.providers ++ [⟨addr, services, .root, true⟩])[j]? = some q →
      s.providers[j]? = some q ∨ j = s.providers.length ∧ q = ⟨addr, services, .root, true⟩ := by
    intro j q hj
    rw [List.getElem?_append] at hj
    split_ifs at hj with hlt
    · exact .inl hj
    · obtain ⟨hj0, rfl⟩ := List.getElem?_eq_some_iff.1 hj
      rw [List.length_singleton] at hj0
      exact .inr ⟨by omega, List.getElem_singleton hj0⟩
  have hmem : ∀ q ∈ s.providers ++ [⟨addr, services, .root, true⟩], q ∈ s.providers ∨ q.pc = .root := by
    intro q hq
    rcases List.mem_append.1 hq with hq | hq
    · exact .inl hq
    · rw [List.mem_singleton.1 hq]
      exact .inr rfl
  refine ⟨h.inv.start hplain, ?_, ?_, ?_, ?_, ?_⟩
  · intro j k q r hj hk hq hr haddr
    rcases hcases hj with hj | ⟨rfl, rfl⟩
    · rcases hcases hk with hk | ⟨-, rfl⟩
      · exact h.lone hj hk hq hr haddr
      · exact absurd haddr (hlone q (List.mem_of_getElem? hj) hq)
    · rcases hcases hk with hk | ⟨rfl, -⟩
      · exact absurd haddr.symm (hlone r (List.mem_of_getElem? hk) hr)
      · rfl
  · intro q hq hqa hne
    exact h.root q ((hmem q hq).resolve_right hne) hqa hne
  · intro q hq hqa hne hne'
    exact h.services q ((hmem q hq).resolve_right hne) hqa hne hne'
  · intro q hq hqa name rest hpc
    exact h.service q ((hmem q hq).resolve_right (by rw [hpc]; nofun)) hqa name rest hpc
  · intro j q hj hqa name hhas
    rcases hcases hj with hj | ⟨-, rfl⟩
    · exact h.endpoint hj hqa name hhas
    · exact absurd hhas.1 hhas.2

/-- **One step** of a run without losses -/
theorem Full.step (h : Full zk s) {l : Label} (hl : Lone s l) : Full zk (step zk s l) := by
  cases l with
  | start addr services => exact h.start hl
  | create i arrives =>
    obtain rfl : arrives = true := hl.2
    cases hp : s.providers[i]? with
    | none =>
      simp only [Providers.step, hp]
      exact h
    | some p =>
      simp only [Providers.step, hp]
      generalize hs' : s.create zk i true p = s'
      have hcreates : Creates zk s i true p s' := hs' ▸ create_creates s i true p
      cases hcreates with
      | nothing => exact h
      | done path e hc halive => exact h.done hp hc halive
      | lost path e hc hlost =>
        -- its session has ended: it registers nothing any more
        have hdead : p.alive = false := by simpa using hlost
        have hsame : ∀ {j : ℕ} {q : Provider}, (s.providers.modify i Provider.next)[j]? = some q → q.alive = true →
            s.providers[j]? = some q := by
          intro j q hj hq
          rcases getElem?_next hj with ⟨-, hj⟩ | ⟨-, p', hp', rfl⟩
          · exact hj
          · obtain rfl := Option.some.inj (hp.symm.trans hp')
            exact absurd hq (by simp [Provider.next, hdead])
        have hmem : ∀ q ∈ s.providers.modify i Provider.next, q.alive = true → q ∈ s.providers := by
          intro q hq hqa
          obtain ⟨j, hj⟩ := List.mem_iff_getElem?.1 hq
          exact List.mem_of_getElem? (hsame hj hqa)
        refine ⟨hs' ▸ h.inv.create hp true, ?_, ?_, ?_, ?_, ?_⟩
        · exact fun hj hk hq hr => h.lone (hsame hj hq) (hsame hk hr) hq hr
        · exact fun q hq hqa => h.root q (hmem q hq hqa) hqa
        · exact fun q hq hqa => h.services q (hmem q hq hqa) hqa
        · exact fun q hq hqa => h.service q (hmem q hq hqa) hqa
        · exact fun hj hqa => h.endpoint (hsame hj hqa) hqa
  | close i =>
    cases hp : s.providers[i]? with
    | none =>
      simp only [Providers.step, hp]
      exact h
    | some p =>
      simp only [Providers.step, hp]
      exact h.close i

/-- the nodes of a service are the addresses of those that serve it -/
theorem Full.node_iff_serves (h : Full zk s) (hname : IsName name) :
    (addr ≠ "" ∧ '/' ∉ addr.toList ∧ zk.node (endpointPath name addr) s.tree ≠ none) ↔ Serves s name addr := by
  constructor
  · intro ⟨_, hslash, hnode⟩
    exact h.inv.sound hname.not_mem hslash hnode
  · rintro ⟨p, hp, halive, rfl, hhas⟩
    have hvalid := h.inv.valid p hp
    obtain ⟨i, hi⟩ := List.mem_iff_getElem?.1 hp
    exact ⟨hvalid.addr.1, hvalid.addr.not_mem, by rw [h.endpoint hi halive name hhas]; simp⟩

/-- **Discovery**: without losses and with one living provider at an address, each address that a living provider has
created is discovered, once, and nothing else is -/
theorem discovered_iff (ht : Fresh zk t) {ls : List Label} (hls : Machine.Along (step zk) Lone ⟨t, []⟩ ls)
    (hname : IsName name) : (discovered zk name (Machine.run (step zk) ⟨t, []⟩ ls)).Nodup ∧
      ∀ addr, addr ∈ discovered zk name (Machine.run (step zk) ⟨t, []⟩ ls) ↔
        Serves (Machine.run (step zk) ⟨t, []⟩ ls) name addr := by
  have h : Full zk (Machine.run (step zk) ⟨t, []⟩ ls) :=
    Machine.inv_run (fun _ _ hl hs => hs.step hl) hls (start_full ht)
  exact ⟨discovered_nodup h.inv hname, fun addr => (mem_discovered h.inv hname).trans (h.node_iff_serves hname)⟩

/-! ## One create -/

/-- the provider is behind its create, and the node is not its own -/
structure Missed (zk : ZooKeeper σ) (i : ℕ) (name addr : String) (s : System σ) : Prop where
  inv : Inv zk s
  behind : ∃ p, s.providers[i]? = some p ∧ p.addr = addr ∧ p.Has name
  other : zk.node (endpointPath name addr) s.tree ≠ some (.session i)

/-- the provider has created the node, and its session lives -/
structure Owned (zk : ZooKeeper σ) (i : ℕ) (name addr : String) (s : System σ) : Prop where
  inv : Inv zk s
  own : zk.node (endpointPath name addr) s.tree = some (.session i)

/-- the labels of a run in which the session `i` lives -/
def Lives (i : ℕ) (l : Label) : Prop := Plain l ∧ l ≠ .close i

theorem Owned.step (h : Owned zk i name addr s) {l : Label} (hl : Lives i l) : Owned zk i name addr (step zk s l) := by
  refine ⟨h.inv.step hl.1, ?_⟩
  have hown := h.own
  cases l with
  | start => exact hown
  | create j arrives =>
    cases hp : s.providers[j]? with
    | none => simpa only [Providers.step, hp] using hown
    | some p =>
      simp only [Providers.step, hp]
      generalize hs' : s.create zk j arrives p = s'
      have hcreates : Creates zk s j arrives p s' := hs' ▸ create_creates s j arrives p
      cases hcreates with
      | nothing => exact hown
      | lost => exact hown
      | done path e hc =>
        obtain ⟨parent, base, rfl, hbase⟩ := create_child (h.inv.valid p (List.mem_of_getElem? hp)) hc
        exact zk.create_grows hbase hown
  | close j =>
    cases hp : s.providers[j]? with
    | none => simpa only [Providers.step, hp] using hown
    | some p =>
      simp only [Providers.step, hp]
      have hne : i ≠ j := by
        rintro rfl
        exact hl.2 rfl
      exact zk.closeSession_keeps hown (by simpa using hne)

theorem Missed.step (hname : '/' ∉ name.toList) (haddr : '/' ∉ addr.toList) (h : Missed zk i name addr s) {l : Label}
    (hl : Lives i l) : Missed zk i name addr (step zk s l) := by
  refine ⟨h.inv.step hl.1, ?_, ?_⟩
  · obtain ⟨p, hp, hpa, hhas⟩ := h.behind
    cases l with
    | start => exact ⟨p, (List.getElem?_append_left (List.getElem?_eq_some_iff.1 hp).1).trans hp, hpa, hhas⟩
    | create j arrives =>
      cases hq : s.providers[j]? with
      | none => simpa only [Providers.step, hq] using h.behind
      | some q =>
        simp only [Providers.step, hq]
        have hnext : ∃ p, (s.providers.modify j Provider.next)[i]? = some p ∧ p.addr = addr ∧ p.Has name := by
          by_cases hij : j = i
          · subst hij
            exact ⟨p.next, by rw [List.getElem?_modify_eq, hp]; rfl, hpa, Provider.next_has name hhas⟩
          · exact ⟨p, (List.getElem?_modify_ne _ _ hij).trans hp, hpa, hhas⟩
        generalize hs' : s.create zk j arrives q = s'
        have hcreates : Creates zk s j arrives q s' := hs' ▸ create_creates s j arrives q
        cases hcreates with
        | nothing => exact h.behind
        | lost => exact hnext
        | done => exact hnext
    | close j =>
      cases hq : s.providers[j]? with
      | none => simpa only [Providers.step, hq] using h.behind
      | some q =>
        simp only [Providers.step, hq]
        have hij : j ≠ i := by
          rintro rfl
          exact hl.2 rfl
        exact ⟨p, (List.getElem?_modify_ne _ _ hij).trans hp, hpa, hhas⟩
  · intro hnode
    -- a node of the session `i` is one of before, or the one that its provider creates in this step
    cases l with
    | start => exact h.other hnode
    | create j arrives =>
      cases hq : s.providers[j]? with
      | none =>
        simp only [Providers.step, hq] at hnode
        exact h.other hnode
      | some q =>
        simp only [Providers.step, hq] at hnode
        generalize hs' : s.create zk j arrives q = s' at hnode
        have hcreates : Creates zk s j arrives q s' := hs' ▸ create_creates s j arrives q
        cases hcreates with
        | nothing => exact h.other hnode
        | lost => exact h.other hnode
        | done path e hc =>
          have hvalid := h.inv.valid q (List.mem_of_getElem? hq)
          obtain ⟨parent, base, hpath, hbase⟩ := create_child hvalid hc
          rw [hpath] at hnode
          rcases zk.create_cases (n := j) (p := parent) (e := e) (t := s.tree) hbase with hsame | ⟨-, -, hnew⟩
          · rw [hsame] at hnode
            exact h.other hnode
          · rw [hnew] at hnode
            split_ifs at hnode with heq
            · rw [hpath, ← heq] at hc
              obtain ⟨rfl, rfl, rest, hpc⟩ := create_endpoint hvalid hname haddr hc
              obtain rfl : j = i := by simpa [Owner.of] using hnode
              obtain ⟨p, hp, -, hhas⟩ := h.behind
              obtain rfl := Option.some.inj (hp.symm.trans hq)
              exact (hvalid.at_endpoint hpc).2.2.1 hhas
            · exact h.other hnode
    | close j =>
      cases hq : s.providers[j]? with
      | none =>
        simp only [Providers.step, hq] at hnode
        exact h.other hnode
      | some q =>
        simp only [Providers.step, hq] at hnode
        exact h.other (zk.close_shrinks hnode).1

/-- what the create of the address comes to -/
theorem create_iff (h : Inv zk s) (hp : s.providers[i]? = some p) (halive : p.alive = true) {rest : List String}
    (hpc : p.pc = .endpoint name rest) (arrives : Bool) :
    zk.node (endpointPath name p.addr) (step zk s (.create i arrives)).tree = some (.session i) ↔
      arrives = true ∧ zk.node (endpointPath name p.addr) s.tree = none ∧
        zk.node (servicePath name) s.tree = some .persistent := by
  have hvalid := h.valid p (List.mem_of_getElem? hp)
  obtain ⟨-, hname, hnot, -⟩ := hvalid.at_endpoint hpc
  -- the node is not its own already
  have hother : zk.node (endpointPath name p.addr) s.tree ≠ some (.session i) := by
    intro hnode
    obtain ⟨n, q, hn, hq, -, -, hhas⟩ := h.owned hname.not_mem hvalid.addr.not_mem hnode
    obtain rfl := Owner.session.inj hn
    obtain rfl := Option.some.inj (hp.symm.trans hq)
    exact hnot hhas
  have hc : p.pc.create p.addr = some (endpointPath name p.addr, true) := by
    rw [hpc]
    rfl
  have htree : (step zk s (.create i arrives)).tree =
      if arrives = true then (zk.create i (endpointPath name p.addr) true s.tree).2 else s.tree := by
    simp only [step, hp, System.create, hc, halive, true_and]
  rw [htree]
  cases arrives with
  | false =>
    simp only [Bool.false_eq_true, if_false, false_and, iff_false]
    exact hother
  | true =>
    simp only [if_true, true_and]
    have hservice : servicePath name ≠ "" := by
      intro hempty
      have hdepth := depth_service hname.not_mem
      rw [hempty] at hdepth
      exact absurd hdepth (by decide)
    constructor
    · intro hnode
      rcases zk.create_cases (n := i) (p := servicePath name) (e := true) (t := s.tree) hvalid.addr with
        hsame | ⟨hnone, hparent, -⟩
      · rw [endpoint_child, hsame] at hnode
        exact absurd hnode hother
      · exact ⟨hnone, hparent.resolve_left hservice⟩
    · rintro ⟨hnone, hparent⟩
      exact zk.create_self hvalid.addr hnone (.inr hparent)

/-- **Registration**: behind the create of its address for a service, a provider whose session lives on is discovered
there, as the only one that lives with that address and service, exactly if the create arrived, met no node and found
the node of the service -/
theorem registered_iff (ht : Fresh zk t) {ls : List Label} (hls : ∀ l ∈ ls, Plain l) {rest : List String}
    (hp : (Machine.run (step zk) ⟨t, []⟩ ls).providers[i]? = some p) (halive : p.alive = true)
    (hpc : p.pc = .endpoint name rest) (arrives : Bool) {ls' : List Label} (hls' : ∀ l ∈ ls', Lives i l)
    (hlone : ∀ j q, (Machine.run (step zk) ⟨t, []⟩ (ls ++ .create i arrives :: ls')).providers[j]? = some q →
      q.alive = true → q.addr = p.addr → name ∈ q.services → j = i) :
    p.addr ∈ discovered zk name (Machine.run (step zk) ⟨t, []⟩ (ls ++ .create i arrives :: ls')) ↔
      arrives = true ∧ zk.node (endpointPath name p.addr) (Machine.run (step zk) ⟨t, []⟩ ls).tree = none ∧
        zk.node (servicePath name) (Machine.run (step zk) ⟨t, []⟩ ls).tree = some .persistent := by
  rw [Machine.run_append, Machine.run_cons] at hlone ⊢
  have h := run_inv ht hls
  generalize Machine.run (step zk) ⟨t, []⟩ ls = s at hp hlone h ⊢
  have hvalid := h.valid p (List.mem_of_getElem? hp)
  obtain ⟨-, hname, -, hnext⟩ := hvalid.at_endpoint hpc
  have h₁ : Inv zk (step zk s (.create i arrives)) := h.step trivial
  have hbehind : ∃ q, (step zk s (.create i arrives)).providers[i]? = some q ∧ q.addr = p.addr ∧ q.Has name := by
    refine ⟨p.next, ?_, rfl, hnext⟩
    have hc : p.pc.create p.addr = some (endpointPath name p.addr, true) := by
      rw [hpc]
      rfl
    simp only [step, hp, System.create, hc, List.getElem?_modify_eq]
    rfl
  have halong : Machine.Along (step zk) (fun _ l => Lives i l) (step zk s (.create i arrives)) ls' :=
    Machine.along_of_mem hls' _
  rw [← create_iff h hp halive hpc arrives]
  constructor
  · intro hmem
    by_contra hother
    have hmissed : Missed zk i name p.addr (Machine.run (step zk) (step zk s (.create i arrives)) ls') :=
      Machine.inv_run (fun _ _ hl hm => hm.step hname.not_mem hvalid.addr.not_mem hl) halong ⟨h₁, hbehind, hother⟩
    obtain ⟨-, hslash, hnode⟩ := (mem_discovered hmissed.inv hname).1 hmem
    obtain ⟨o, ho⟩ := Option.ne_none_iff_exists'.1 hnode
    obtain ⟨j, q, rfl, hq, hqa, haddr, hhas⟩ := hmissed.inv.owned hname.not_mem hslash ho
    obtain rfl := hlone j q hq hqa haddr hhas.1
    exact hmissed.other ho
  · intro hown
    have howned : Owned zk i name p.addr (Machine.run (step zk) (step zk s (.create i arrives)) ls') :=
      Machine.inv_run (fun _ _ hl ho => ho.step hl) halong ⟨h₁, hown⟩
    exact (mem_discovered howned.inv hname).2 ⟨hvalid.addr.1, hvalid.addr.not_mem, by rw [howned.own]; simp⟩

/-- **Methods**: nothing is registered where discoverAllMethods looks for the methods of a service, unless the service is
called "services" -/
theorem discoverAllMethods_nothing (ht : Fresh zk t) {ls : List Label} (hls : ∀ l ∈ ls, Plain l) (hname : IsName name)
    (hne : name ≠ "services") :
    discoverAllMethods true (getChildren zk (Machine.run (step zk) ⟨t, []⟩ ls)) name = [] := by
  have hnone := (run_inv ht hls).silent hname.not_mem hne
  have hpath : "/rpc/" ++ name = child "/rpc" name := by
    rw [child]
    rfl
  have hrc : (getChildren zk (Machine.run (step zk) ⟨t, []⟩ ls) ("/rpc/" ++ name)).rc = ZNONODE := by
    rw [getChildren, hpath, zk.children_none hnone]
    rfl
  simp only [discoverAllMethods, Bool.not_true, Bool.false_eq_true, if_false, hrc]
  rfl

end

/-! ## Two providers -/

/-- the creates of a provider with one service -/
def registers (i : ℕ) : List Label := List.replicate 4 (.create i true)

theorem empty_fresh : Fresh Tree.server Tree.empty := fun _ => rfl

/-- two providers at different addresses, one behind the other's first two creates -/
abbrev twoRun : List Label :=
  [.start "a:1" ["s"], .create 0 true, .create 0 true, .start "b:2" ["s"]] ++ registers 1 ++
    [.create 0 true, .create 0 true]

theorem twoRun_lone : Machine.Along (step Tree.server) Lone ⟨Tree.empty, []⟩ twoRun := by
  refine ⟨⟨by decide, by decide⟩, ⟨trivial, rfl⟩, ⟨trivial, rfl⟩, ⟨by decide, ?_⟩, ⟨trivial, rfl⟩, ⟨trivial, rfl⟩,
    ⟨trivial, rfl⟩, ⟨trivial, rfl⟩, ⟨trivial, rfl⟩, ⟨trivial, rfl⟩, trivial⟩
  change ∀ p ∈ [(⟨"a:1", ["s"], .service "s" [], true⟩ : Provider)], p.alive = true → p.addr ≠ "b:2"
  decide

theorem discovered_two :
    "a:1" ∈ discovered Tree.server "s" (Machine.run (step Tree.server) ⟨Tree.empty, []⟩ twoRun) ∧
      "b:2" ∈ discovered Tree.server "s" (Machine.run (step Tree.server) ⟨Tree.empty, []⟩ twoRun) := by
  have hproviders : (Machine.run (step Tree.server) ⟨Tree.empty, []⟩ twoRun).providers =
      [⟨"a:1", ["s"], .ended, true⟩, ⟨"b:2", ["s"], .ended, true⟩] := rfl
  have hiff := (discovered_iff empty_fresh twoRun_lone (by decide : IsName "s")).2
  constructor
  · exact (hiff "a:1").2 ⟨⟨"a:1", ["s"], .ended, true⟩, by rw [hproviders]; decide, rfl, rfl, by decide, by decide⟩
  · exact (hiff "b:2").2 ⟨⟨"b:2", ["s"], .ended, true⟩, by rw [hproviders]; decide, rfl, rfl, by decide, by decide⟩

/-- only addresses of providers: not even behind the end of a session -/
theorem discovered_sound_closed :
    "a:1" ∉ discovered Tree.server "s" (Machine.run (step Tree.server) ⟨Tree.empty, []⟩ (twoRun ++ [.close 0])) := by
  have hproviders : (Machine.run (step Tree.server) ⟨Tree.empty, []⟩ (twoRun ++ [.close 0])).providers =
      [⟨"a:1", ["s"], .ended, false⟩, ⟨"b:2", ["s"], .ended, true⟩] := rfl
  intro hmem
  obtain ⟨-, -, n, p, -, hnth, halive, haddr, -⟩ :=
    discovered_sound empty_fresh (by decide) (by decide : IsName "s") "a:1" hmem
  have hp := List.mem_of_getElem? hnth
  rw [hproviders] at hp
  have hgone : ∀ q ∈ ([⟨"a:1", ["s"], .ended, false⟩, ⟨"b:2", ["s"], .ended, true⟩] : List Provider), q.alive = true →
      q.addr ≠ "a:1" := by decide
  exact hgone p hp halive haddr

theorem discoverAllMethods_two : discoverAllMethods true
    (getChildren Tree.server (Machine.run (step Tree.server) ⟨Tree.empty, []⟩ twoRun)) "s" = [] :=
  discoverAllMethods_nothing empty_fresh (by decide) (by decide) (by decide)

/-- a provider that starts again at its address while its old session lives, up to the create of the address -/
abbrev restartRun : List Label :=
  .start "a:1" ["s"] :: registers 0 ++ [.start "a:1" ["s"], .create 1 true, .create 1 true, .create 1 true]

/-- it lives, it has made all its creates, and behind the end of the old session it is not discovered -/
theorem restart_missed :
    (Machine.run (step Tree.server) ⟨Tree.empty, []⟩ (restartRun ++ .create 1 true :: [.close 0])).providers[1]? =
        some ⟨"a:1", ["s"], .ended, true⟩ ∧
      "a:1" ∉ discovered Tree.server "s"
        (Machine.run (step Tree.server) ⟨Tree.empty, []⟩ (restartRun ++ .create 1 true :: [.close 0])) := by
  have hproviders :
      (Machine.run (step Tree.server) ⟨Tree.empty, []⟩ (restartRun ++ .create 1 true :: [.close 0])).providers =
        [⟨"a:1", ["s"], .ended, false⟩, ⟨"a:1", ["s"], .ended, true⟩] := rfl
  refine ⟨by rw [hproviders]; rfl, ?_⟩
  have hlives : ∀ l ∈ [Label.close 0], Lives 1 l := by
    intro l hl
    rw [List.mem_singleton.1 hl]
    exact ⟨trivial, by decide⟩
  have hbefore : (Machine.run (step Tree.server) ⟨Tree.empty, []⟩ restartRun).providers[1]? =
      some ⟨"a:1", ["s"], .endpoint "s" [], true⟩ := rfl
  have hiff := registered_iff empty_fresh (by decide) hbefore rfl rfl true hlives ?_
  · intro hmem
    have hnone := (hiff.1 hmem).2.1
    have hnode : Tree.server.node (endpointPath "s" "a:1")
        (Machine.run (step Tree.server) ⟨Tree.empty, []⟩ restartRun).tree = some (.session 0) := by decide
    rw [hnode] at hnone
    cases hnone
  · intro j q hq hqa _ _
    rw [hproviders] at hq
    match j with
    | 0 =>
      obtain rfl := Option.some.inj hq
      cases hqa
    | 1 => rfl
    | j + 2 => cases hq

end Providers

end MCoroRpc
