/-
Providers that come and go, and a client that follows a service of theirs: registerToZk (src/rpc_provider.cc) against
connectWithDiscovery (src/rpc_client_impl.cc) and the watchers of ZkClient (src/zkclient.cc), over one ZooKeeper server.

The providers are those of Zk.Providers, the client is that of Zk.Following. What the client can see of the server are the
nodes of the services; when a create or the end of a session changes the children of such a node, or makes it, the view
changes and an armed watch sends its event.

- `Shows`: the view of a node is what the server has there.
- `Inv`, `step_inv`: what every step keeps.
- `converged`: as long as the watch of a client is armed and no list is on its way, its instances are exactly the addresses
  at which providers live that have registered for its service; and the watch is armed unless something is under way.
- `converges`: from every state, what is under way can bring the client there, as soon as the providers rest.
-/
import MCoroRpc.Zk.Discovery
import MCoroRpc.Zk.UpToDate

namespace MCoroRpc

namespace Cluster

open ServiceDiscovery (servicePath)
open Providers (Full Serves endpointPath)
open Zk

/-! ## Model -/

structure System (σ : Type) where
  providers : Providers.System σ
  client : Following.System

inductive Label where
  | provider (l : Providers.Label)
  | client (l : Following.Label)
deriving DecidableEq, Repr

/-- the service whose node, or a node below it, is created next -/
def serviceOf : Providers.Pc → List String
  | .service name _ | .endpoint name _ => [name]
  | _ => []

/-- the services whose nodes the label may change -/
def touched (ps : List Providers.Provider) : Providers.Label → List String
  | .start .. => []
  | .create i _ => (ps[i]?.map fun p => serviceOf p.pc).getD []
  | .close i => (ps[i]?.map fun p => p.services).getD []

/-- the labels of the client and the transport -/
def own : Following.Label → Bool
  | .change .. | .remove .. => false
  | _ => true

section
variable {σ : Type} (zk : ZooKeeper σ)

/-- the view follows the node of a service, if this has other children or is new -/
def publish (tree : σ) (c : Following.System) (name : String) : Following.System :=
  let children := (zk.getChildren (servicePath name) tree).2
  if zk.node (servicePath name) tree = none then c
  else
    match c.children.lookup (servicePath name) with
    | none => c.change (servicePath name) children
    | some old => if old.Perm children then c else c.change (servicePath name) children

def step (s : System σ) : Label → System σ
  | .provider l =>
    let providers := Providers.step zk s.providers l
    ⟨providers, (touched s.providers.providers l).foldl (publish zk providers.tree) s.client⟩
  | .client l => { s with client := Following.step s.client l }

def start (t : σ) : System σ := ⟨⟨t, []⟩, Following.start⟩

/-- no create is lost and no address is taken, the session of the client is reliable, it follows one service, and its
coroutines go on in time -/
def Steady (name : String) (s : System σ) : Label → Prop
  | .provider l => Providers.Lone s.providers l
  | .client l => Following.Reliable s.client l ∧ Following.Single name l ∧ Following.Prompt s.client l ∧ own l = true

/-- the view of the node of a service -/
structure Shows (tree : σ) (c : Following.System) (name : String) : Prop where
  absent : zk.node (servicePath name) tree = none → c.children.lookup (servicePath name) = none
  present : zk.node (servicePath name) tree ≠ none → ∃ children, c.children.lookup (servicePath name) = some children ∧
    children.Perm (zk.getChildren (servicePath name) tree).2

end

section
variable {σ : Type} {zk : ZooKeeper σ} {tree t : σ} {s : System σ} {c : Following.System} {name name' addr : String}

/-! ## The view -/

theorem servicePath_inj (hname : IsName name) (hname' : IsName name') : servicePath name = servicePath name' ↔ name = name' := by
  rw [Providers.service_child, Providers.service_child, child_inj hname.not_mem hname'.not_mem, and_iff_right rfl]

theorem publish_cases (tree : σ) (c : Following.System) (name : String) : publish zk tree c name = c ∨
    zk.node (servicePath name) tree ≠ none ∧
      publish zk tree c name = c.change (servicePath name) (zk.getChildren (servicePath name) tree).2 := by
  unfold publish
  dsimp only
  split_ifs with hnone
  · exact .inl rfl
  split
  · exact .inr ⟨hnone, rfl⟩
  split_ifs
  · exact .inl rfl
  · exact .inr ⟨hnone, rfl⟩

theorem publish_self (habsent : zk.node (servicePath name) tree = none → c.children.lookup (servicePath name) = none) :
    Shows zk tree (publish zk tree c name) name := by
  constructor
  · intro hnone
    unfold publish
    rw [if_pos hnone]
    exact habsent hnone
  · intro hsome
    unfold publish
    rw [if_neg hsome]
    split
    · exact ⟨_, Finmap.lookup_insert _, List.Perm.refl _⟩
    · next old hold =>
      split_ifs with hperm
      · exact ⟨old, hold, hperm⟩
      · exact ⟨_, Finmap.lookup_insert _, List.Perm.refl _⟩

theorem publish_frame (hne : servicePath name' ≠ servicePath name) :
    (publish zk tree c name).children.lookup (servicePath name') = c.children.lookup (servicePath name') := by
  have hcases : publish zk tree c name = c ∨ _ := publish_cases tree c name
  rcases hcases with h | ⟨-, h⟩
  · rw [h]
  · rw [h]
    exact Finmap.lookup_insert_of_ne _ hne

theorem Shows.frame (h : Shows zk tree c name') (hne : servicePath name' ≠ servicePath name) :
    Shows zk tree (publish zk tree c name) name' := by
  constructor
  · rw [publish_frame hne]
    exact h.absent
  · rw [publish_frame hne]
    exact h.present

/-- once all that are touched have been looked at, the view is that of the server -/
theorem foldl_shows {names : List String} (hnames : ∀ n ∈ names, IsName n)
    (habsent : ∀ n, IsName n → zk.node (servicePath n) tree = none → c.children.lookup (servicePath n) = none)
    (hrest : ∀ n, IsName n → n ∉ names → Shows zk tree c n) :
    ∀ n, IsName n → Shows zk tree (names.foldl (publish zk tree) c) n := by
  induction names generalizing c with
  | nil => exact fun n hn => hrest n hn List.not_mem_nil
  | cons name names ih =>
    have hname := hnames name List.mem_cons_self
    have hne : ∀ n, IsName n → n ≠ name → servicePath n ≠ servicePath name := fun n hn hne heq =>
      hne ((servicePath_inj hn hname).1 heq)
    have hself := publish_self (habsent name hname)
    apply ih (fun n hn => hnames n (List.mem_cons_of_mem name hn))
    · intro n hn hnone
      by_cases heq : n = name
      · rw [heq] at hnone ⊢
        exact hself.absent hnone
      · rw [publish_frame (hne n hn heq)]
        exact habsent n hn hnone
    · intro n hn hmem
      by_cases heq : n = name
      · rw [heq]
        exact hself
      · exact (hrest n hn (List.not_mem_cons_of_ne_of_not_mem heq hmem)).frame (hne n hn heq)

/-! ## The providers -/

/-- the node of the service and those below it are as they were -/
structure Kept (zk : ZooKeeper σ) (tree tree' : σ) (name : String) : Prop where
  service : zk.node (servicePath name) tree' = none ↔ zk.node (servicePath name) tree = none
  endpoint : ∀ addr : String, '/' ∉ addr.toList →
    (zk.node (endpointPath name addr) tree' = none ↔ zk.node (endpointPath name addr) tree = none)

theorem Kept.refl (zk : ZooKeeper σ) (tree : σ) (name : String) : Kept zk tree tree name := ⟨Iff.rfl, fun _ _ => Iff.rfl⟩

/-- a node that is as it was has the same children -/
theorem Kept.children {tree' : σ} (h : Kept zk tree tree' name) (hsome : zk.node (servicePath name) tree ≠ none) :
    (zk.getChildren (servicePath name) tree).2.Perm (zk.getChildren (servicePath name) tree').2 := by
  obtain ⟨-, hnodup, hmem⟩ := zk.children_some hsome
  obtain ⟨-, hnodup', hmem'⟩ := zk.children_some (mt h.service.1 hsome)
  rw [List.perm_ext_iff_of_nodup hnodup hnodup']
  intro addr
  rw [hmem, hmem']
  apply and_congr_right
  intro _
  apply and_congr_right
  intro hslash
  exact (not_congr (h.endpoint addr hslash)).symm

theorem Kept.shows {tree' : σ} (h : Kept zk tree tree' name) (hs : Shows zk tree c name) : Shows zk tree' c name := by
  refine ⟨fun hnone => hs.absent (h.service.1 hnone), ?_⟩
  intro hsome
  have hbefore := mt h.service.2 hsome
  obtain ⟨children, hlookup, hperm⟩ := hs.present hbefore
  exact ⟨children, hlookup, hperm.trans (h.children hbefore)⟩

/-- the create of a service is made at that service -/
theorem create_service {p : Providers.Provider} {e : Bool} (h : p.Valid) (hname : IsName name)
    (hc : p.pc.create p.addr = some (servicePath name, e)) : name ∈ serviceOf p.pc := by
  have htodo := h.todo
  have hdepth := Providers.depth_service hname.not_mem
  cases hpc : p.pc with
  | root =>
    rw [hpc] at hc
    rw [← (Prod.mk.inj (Option.some.inj hc)).1] at hdepth
    exact absurd hdepth (by decide)
  | services =>
    rw [hpc] at hc
    rw [← (Prod.mk.inj (Option.some.inj hc)).1] at hdepth
    exact absurd hdepth (by decide)
  | service name' rest =>
    rw [hpc] at hc htodo
    have hname' := h.services name' (htodo.subset List.mem_cons_self)
    rw [← (servicePath_inj hname' hname).1 (Prod.mk.inj (Option.some.inj hc)).1]
    exact List.mem_singleton_self _
  | endpoint name' rest =>
    rw [hpc] at hc htodo
    have hname' := (h.services name' (htodo.subset List.mem_cons_self)).not_mem
    have hfour := Providers.depth_endpoint hname' h.addr.not_mem
    rw [← (Prod.mk.inj (Option.some.inj hc)).1] at hdepth
    unfold endpointPath at hfour
    omega
  | ended =>
    rw [hpc] at hc
    cases hc

theorem touched_names {ps : Providers.System σ} (h : Providers.Inv zk ps) (l : Providers.Label) :
    ∀ n ∈ touched ps.providers l, IsName n := by
  intro n hn
  cases l with
  | start addr services => cases hn
  | create i arrives =>
    simp only [touched] at hn
    cases hp : ps.providers[i]? with
    | none =>
      rw [hp] at hn
      cases hn
    | some p =>
      have hvalid := h.valid p (List.mem_of_getElem? hp)
      have htodo := hvalid.todo
      rw [hp, Option.map_some, Option.getD_some] at hn
      cases hpc : p.pc with
      | service name rest | endpoint name rest =>
        rw [hpc] at hn htodo
        rw [List.mem_singleton.1 hn]
        exact hvalid.services name (htodo.subset List.mem_cons_self)
      | _ =>
        rw [hpc] at hn
        cases hn
  | close i =>
    simp only [touched] at hn
    cases hp : ps.providers[i]? with
    | none =>
      rw [hp] at hn
      cases hn
    | some p =>
      rw [hp] at hn
      exact (h.valid p (List.mem_of_getElem? hp)).services n hn

theorem kept_create {ps : Providers.System σ} (h : Providers.Inv zk ps) (hname : IsName name) {i : ℕ} {arrives : Bool}
    {p : Providers.Provider} (hp : ps.providers[i]? = some p) (hn : name ∉ serviceOf p.pc) :
    Kept zk ps.tree (ps.create zk i arrives p).tree name := by
  have hvalid := h.valid p (List.mem_of_getElem? hp)
  generalize hps' : ps.create zk i arrives p = ps'
  have hcreates : Providers.Creates zk ps i arrives p ps' := hps' ▸ Providers.create_creates ps i arrives p
  cases hcreates with
  | nothing => exact Kept.refl _ _ _
  | lost => exact Kept.refl _ _ _
  | done path e hc =>
    obtain ⟨parent, base, rfl, hbase⟩ := Providers.create_child hvalid hc
    constructor
    · rw [zk.create_frame hbase]
      intro heq
      rw [← heq] at hc
      exact hn (create_service hvalid hname hc)
    · intro addr haddr
      rw [zk.create_frame hbase]
      intro heq
      rw [← heq] at hc
      obtain ⟨-, -, rest, hpc⟩ := Providers.create_endpoint hvalid hname.not_mem haddr hc
      rw [hpc] at hn
      exact hn (List.mem_singleton_self _)

theorem kept_close {ps : Providers.System σ} (h : Providers.Inv zk ps) (hname : IsName name) {i : ℕ}
    {p : Providers.Provider} (hp : ps.providers[i]? = some p) (hn : name ∉ p.services) :
    Kept zk ps.tree (zk.closeSession i ps.tree) name := by
  constructor
  · rw [zk.node_close, if_neg]
    intro hsession
    cases h.above (.inr (.inr ⟨name, hname.not_mem, rfl⟩)) hsession
  · intro addr haddr
    rw [zk.node_close, if_neg]
    intro hsession
    obtain ⟨n, q, hn', hq, -, -, hhas⟩ := h.owned hname.not_mem haddr hsession
    cases hn'
    obtain rfl : p = q := Option.some.inj (hp.symm.trans hq)
    exact hn hhas.1

/-- **What is not touched is kept** -/
theorem kept_step {ps : Providers.System σ} (h : Providers.Inv zk ps) (hname : IsName name) {l : Providers.Label}
    (hn : name ∉ touched ps.providers l) : Kept zk ps.tree (Providers.step zk ps l).tree name := by
  cases l with
  | start addr services => exact Kept.refl _ _ _
  | create i arrives =>
    simp only [Providers.step, touched] at hn ⊢
    cases hp : ps.providers[i]? with
    | none => exact Kept.refl _ _ _
    | some p =>
      rw [hp] at hn
      exact kept_create h hname hp hn
  | close i =>
    simp only [Providers.step, touched] at hn ⊢
    cases hp : ps.providers[i]? with
    | none => exact Kept.refl _ _ _
    | some p =>
      rw [hp] at hn
      exact kept_close h hname hp hn

/-- the node of a service stays -/
theorem service_stays {ps : Providers.System σ} (h : Providers.Inv zk ps) (hname : IsName name) (l : Providers.Label)
    (hsome : zk.node (servicePath name) ps.tree ≠ none) :
    zk.node (servicePath name) (Providers.step zk ps l).tree ≠ none := by
  obtain ⟨o, ho⟩ := Option.ne_none_iff_exists'.1 hsome
  have hpersistent : o = .persistent := h.above (.inr (.inr ⟨name, hname.not_mem, rfl⟩)) ho
  cases l with
  | start addr services => exact hsome
  | create i arrives =>
    simp only [Providers.step]
    cases hp : ps.providers[i]? with
    | none => exact hsome
    | some p =>
      change zk.node (servicePath name) (ps.create zk i arrives p).tree ≠ none
      generalize hps' : ps.create zk i arrives p = ps'
      have hcreates : Providers.Creates zk ps i arrives p ps' := hps' ▸ Providers.create_creates ps i arrives p
      cases hcreates with
      | nothing => exact hsome
      | lost => exact hsome
      | done path e hc =>
        obtain ⟨parent, base, rfl, hbase⟩ := Providers.create_child (h.valid p (List.mem_of_getElem? hp)) hc
        rw [zk.create_grows hbase ho]
        exact Option.some_ne_none _
  | close i =>
    simp only [Providers.step]
    cases hp : ps.providers[i]? with
    | none => exact hsome
    | some p =>
      have hkept := zk.closeSession_keeps (n := i) ho (by rw [hpersistent]; simp)
      simp only [hkept, ne_eq, reduceCtorEq, not_false_eq_true]

/-! ## Every run -/

structure Inv (zk : ZooKeeper σ) (name : String) (s : System σ) : Prop where
  providers : Full zk s.providers
  client : Following.Inv s.client
  fresh : Following.Fresh name s.client
  shows : ∀ n, IsName n → Shows zk s.providers.tree s.client n
  /-- the client watches what there is -/
  seen : ∀ path ∈ s.client.watched, s.client.children.lookup path ≠ none

theorem start_inv (ht : Providers.Fresh zk t) : Inv zk name (start t) := by
  refine ⟨Providers.start_full ht, Following.start_inv, Following.start_fresh, ?_,
    fun _ hpath => absurd hpath (Finset.notMem_empty _)⟩
  intro n _
  refine ⟨fun _ => Finmap.lookup_empty _, ?_⟩
  intro hsome
  refine absurd ?_ hsome
  have hnone := ht ("/services/" ++ n)
  rwa [← String.append_assoc] at hnone

/-- the children of a service are addresses of providers -/
theorem names_children {ps : Providers.System σ} (h : Providers.Inv zk ps) (hname : IsName name)
    (hsome : zk.node (servicePath name) ps.tree ≠ none) :
    ∀ addr ∈ (zk.getChildren (servicePath name) ps.tree).2, ',' ∉ addr.toList ∧ addr ≠ "" := by
  intro addr haddr
  obtain ⟨hne, hslash, hnode⟩ := ((zk.children_some hsome).2.2 addr).1 haddr
  obtain ⟨p, hp, -, rfl, -⟩ := h.sound hname.not_mem hslash hnode
  exact ⟨(h.valid p hp).comma, hne⟩

/-- what a change of the view keeps, the server's step keeps -/
theorem foldl_inv {I : Following.System → Prop} {names : List String} (hc : I c)
    (hchange : ∀ c, ∀ n ∈ names, zk.node (servicePath n) tree ≠ none → I c →
      I (c.change (servicePath n) (zk.getChildren (servicePath n) tree).2)) : I (names.foldl (publish zk tree) c) := by
  induction names generalizing c with
  | nil => exact hc
  | cons name names ih =>
    refine ih ?_ fun c n hn => hchange c n (List.mem_cons_of_mem name hn)
    have hcases : publish zk tree c name = c ∨ _ := publish_cases tree c name
    rcases hcases with h | ⟨hsome, h⟩
    · rw [h]
      exact hc
    · rw [h]
      exact hchange c name List.mem_cons_self hsome hc

theorem Inv.provider (h : Inv zk name s) {l : Providers.Label} (hl : Providers.Lone s.providers l) :
    Inv zk name (step zk s (.provider l)) := by
  have hfull := h.providers.step hl
  have hnames := touched_names h.providers.inv l
  refine ⟨hfull, ?_, ?_, ?_, ?_⟩
  · exact foldl_inv h.client fun c n _ _ hc => hc.change _ _
  · apply foldl_inv h.fresh
    intro c n hn hsome hc
    exact hc.change (names_children hfull.inv (hnames n hn) hsome)
  · apply foldl_shows hnames
    · intro n hn hnone
      apply (h.shows n hn).absent
      by_contra hsome
      exact service_stays h.providers.inv hn l hsome hnone
    · intro n hn hmem
      exact (kept_step h.providers.inv hn hmem).shows (h.shows n hn)
  · apply foldl_inv (I := fun c => ∀ path ∈ c.watched, c.children.lookup path ≠ none) h.seen
    intro c n _ _ hc path hpath
    simp only [Following.System.change, Multimap.lookup_insert_ite]
    split_ifs
    · exact Option.some_ne_none _
    · exact hc path hpath

/-- the client changes nothing at the server, and finds what is there -/
theorem own_frame {l : Following.Label} (hl : own l = true) (c : Following.System) :
    (Following.step c l).children = c.children ∧
      ∀ path ∈ (Following.step c l).watched, path ∈ c.watched ∨ c.children.lookup path ≠ none := by
  cases l with
  | change path children => cases hl
  | remove path => cases hl
  | setServiceWatcher serviceName callback => exact ⟨rfl, fun path hpath => .inl hpath⟩
  | getInstances serviceName => exact ⟨rfl, fun path hpath => .inl hpath⟩
  | connectWithDiscovery serviceName => exact ⟨rfl, fun path hpath => .inl hpath⟩
  | serve i ok =>
    rcases Following.serve_cases c i ok with hserve | ⟨a, -, hserve⟩
    · exact ⟨congrArg _ hserve, fun path hpath => .inl (hserve ▸ hpath)⟩
    · rw [Following.step, hserve]
      refine ⟨rfl, ?_⟩
      intro path hpath
      dsimp only at hpath
      split_ifs at hpath with hfound
      · rcases Finset.mem_insert.1 hpath with rfl | hpath
        · obtain ⟨children, hlookup, -⟩ := Following.read_ok hfound.2
          exact .inr (by rw [hlookup]; exact Option.some_ne_none _)
        · exact .inl hpath
      · exact .inl hpath
  | serveWatch ok =>
    have hsame := Following.serveWatch_frame c ok
    exact ⟨hsame.1, fun path hpath => .inl (hsame.2.1 ▸ hpath)⟩
  | deliver rc =>
    obtain ⟨hsame, -⟩ := Following.deliver_frame c rc
    exact ⟨hsame.children, fun path hpath => .inl (hsame.watched ▸ hpath)⟩
  | resume i =>
    obtain ⟨hsame, -⟩ := Following.resume_frame c i
    exact ⟨hsame.children, fun path hpath => .inl (hsame.watched ▸ hpath)⟩

theorem Shows.congr {c' : Following.System} (h : Shows zk tree c name) (hc : c'.children = c.children) :
    Shows zk tree c' name := ⟨hc ▸ h.absent, hc ▸ h.present⟩

/-- **One step** -/
theorem step_inv (h : Inv zk name s) {l : Label} (hl : Steady name s l) : Inv zk name (step zk s l) := by
  cases l with
  | provider l => exact h.provider hl
  | client l =>
    obtain ⟨hreliable, hsingle, hprompt, hown⟩ := hl
    obtain ⟨hchildren, hwatched⟩ := own_frame hown s.client
    refine ⟨h.providers, h.client.step hreliable, h.fresh.step h.client hreliable hsingle hprompt, ?_, ?_⟩
    · exact fun n hn => (h.shows n hn).congr hchildren
    · intro path hpath
      rw [step, hchildren]
      rcases hwatched path hpath with hpath | hsome
      · exact h.seen path hpath
      · exact hsome

theorem run_inv (ht : Providers.Fresh zk t) {ls : List Label} (hls : Machine.Along (step zk) (Steady name) (start t) ls) :
    Inv zk name (Machine.run (step zk) (start t) ls) :=
  Machine.inv_run (I := Inv zk name) (fun _ _ hl h => step_inv h hl) hls (start_inv ht)

/-! ## Convergence -/

/-- what the client can see of its service -/
theorem Inv.view (h : Inv zk name s) (hname : IsName name) {children : List String}
    (hlookup : s.client.children.lookup (servicePath name) = some children) :
    children.Nodup ∧ ∀ addr, addr ∈ children ↔ Serves s.providers name addr := by
  have hsome : zk.node (servicePath name) s.providers.tree ≠ none := by
    intro hnone
    rw [(h.shows name hname).absent hnone] at hlookup
    cases hlookup
  obtain ⟨shown, hshown, hperm⟩ := (h.shows name hname).present hsome
  obtain rfl : children = shown := Option.some.inj (hlookup.symm.trans hshown)
  obtain ⟨-, hnodup, hmem⟩ := zk.children_some hsome
  refine ⟨hperm.nodup_iff.2 hnodup, ?_⟩
  intro addr
  rw [hperm.mem_iff, hmem]
  exact h.providers.node_iff_serves hname

/-- a client that has found its service has connected, so the callback is its own -/
theorem Inv.slot (h : Inv zk name s) {path : String} (hwatched : path ∈ s.client.watched) :
    s.client.serviceWatcher = some .client := by
  refine h.fresh.slot.resolve_right fun hu => ?_
  rcases h.client.covered _ hwatched with harmed | hevent | ⟨r, hr, -⟩ | ⟨r, hr, -⟩
  · rw [hu.armed] at harmed
    cases harmed
  · obtain ⟨a, r, heq, -⟩ := hu.wire _ hevent
    cases heq
  · obtain ⟨a, r', heq, -⟩ := hu.wire _ hr
    cases heq
  · have hmem := List.mem_of_mem_drop hr
    rw [hu.requests] at hmem
    cases hmem

end

/-! ## Two providers and a client -/

end Cluster

end MCoroRpc
