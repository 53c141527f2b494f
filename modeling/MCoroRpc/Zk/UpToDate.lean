/-
A client that follows the node of one service, and what the transport can bring a client to that has connected to others.

What counts is the youngest list that the server has sent: on its way, waiting for connectWithDiscovery, or the client's own
if there is no other.

- `Fresh`: this list is no older than the watch, as long as the coroutines go on in time (`Prompt`).
- `up_to_date`: as long as the server holds the watch of a client of one service, this list is that of the server; and the
  server holds the watch unless an event or a get is under way.
- `settles`: everything that is on its way can come, and this list is then the client's.
- `follows`: whatever the children of a node become that a client has connected to, the list of the client can become
  the same; also if the client has connected to another service since.
-/
import MCoroRpc.Zk.Following

namespace MCoroRpc

namespace Following

open ServiceDiscovery (instancesOf servicePath)
open ZkClient (Answer ZOK getChildrenCompletion)

variable {s : System} {l : Label} {path name : String}

/-! ## One service -/

/-- an answer without an error is the list of the server -/
theorem read_ok {ok : Bool} (h : (s.read path ok).rc = ZOK) :
    ∃ children, s.children.lookup path = some children ∧ s.read path ok = ⟨ZOK, none, none, children⟩ := by
  unfold System.read at h ⊢
  split at h
  · next hok =>
    rw [if_pos hok]
    cases hlookup : s.children.lookup path with
    | none =>
      rw [hlookup] at h
      exact absurd h (by decide)
    | some children => exact ⟨children, rfl, rfl⟩
  · exact absurd h (by decide)

theorem tell_client (h : s.serviceWatcher = some .client) (children : List String) :
    s.tell children = { s with told := s.told ++ [(.client, children)], instances := children } := by
  simp only [System.tell, h]

theorem filterMap_cons_toList {α β : Type} (f : α → Option β) (a : α) (as : List α) :
    (a :: as).filterMap f = (f a).toList ++ as.filterMap f := by
  cases hf : f a with
  | none => exact List.filterMap_cons_none hf
  | some b => exact List.filterMap_cons_some hf

/-- a message at the end of the wire -/
theorem latest_snoc (s : System) (m : Message) :
    System.latest { s with wire := s.wire ++ [m] } = m.list.getD s.latest := by
  unfold System.latest System.pending
  rw [List.filterMap_append, ← List.append_assoc, filterMap_cons_toList, List.filterMap_nil, List.append_nil]
  cases m.list with
  | none => rw [Option.toList_none, List.append_nil]; rfl
  | some children => rw [Option.toList_some, List.getLastD_concat]; rfl

/-- what is delivered in time, the client has last -/
theorem latest_deliver (h : Inv s) (hslot : s.serviceWatcher = some .client ∨ Unarmed s) {rc : ℤ}
    (hl : Prompt s (.deliver rc)) : (s.deliver rc).latest = s.latest := by
  cases hwire : s.wire with
  | nil => simp only [System.deliver, hwire]
  | cons m rest =>
    cases m with
    | event path =>
      simp only [System.deliver, hwire, System.latest, System.pending]
      rfl
    | asked a r =>
      simp only [System.deliver, hwire, System.latest, System.pending]
      rw [List.filterMap_append, List.append_assoc, filterMap_cons_toList, filterMap_cons_toList, List.filterMap_nil,
        List.append_nil]
      rfl
    | watch path r =>
      have hresults : s.results = [] := hl _ (by rw [hwire]; rfl) (by simp [Message.watchPath])
      have hclient : s.serviceWatcher = some .client := by
        refine hslot.resolve_right fun hu => ?_
        obtain ⟨a, r', heq, -⟩ := hu.wire _ (by rw [hwire]; exact List.mem_cons_self)
        cases heq
      obtain ⟨req, again, tail, c, -, -, -, -, -, -, -, hdeliver⟩ := deliver_watch h hwire rc
      have hnext : System.pending { s with wire := rest, client := c } = rest.filterMap Message.list := by
        rw [System.pending, hresults]
        rfl
      have hnow : s.latest = (rest.filterMap Message.list).getLastD (if r.rc = ZOK then r.strings else s.instances) := by
        rw [System.latest, System.pending, hresults, hwire, filterMap_cons_toList, Message.list]
        split_ifs
        · exact List.getLastD_cons
        · rfl
      rw [hdeliver, hnow]
      split_ifs
      · rw [tell_client (by exact hclient), ← hnext]
        rfl
      · rw [← hnext]
        rfl

/-- the coroutine of connectWithDiscovery goes on with the list that waits in front -/
theorem latest_resume (s : System) : (s.resume 0).latest = s.latest := by
  rcases resume_cases s 0 with ⟨-, hresume⟩ | ⟨a, r, hi, hcases⟩
  · rw [hresume]
  · obtain ⟨tail, hresults⟩ : ∃ tail, s.results = (a, r) :: tail := by
      cases hresults : s.results with
      | nil =>
        rw [hresults] at hi
        cases hi
      | cons x tail =>
        rw [hresults] at hi
        exact ⟨tail, by rw [Option.some.inj hi]⟩
    have hnow : s.latest = (tail.filterMap (fun x => listOf x.1 x.2) ++ s.wire.filterMap Message.list).getLastD
        ((listOf a r).getD s.instances) := by
      rw [System.latest, System.pending, hresults, filterMap_cons_toList]
      cases listOf a r with
      | none => rfl
      | some children => exact List.getLastD_cons
    rw [hnow]
    rcases hcases with ⟨instances, hlist, hresume⟩ | ⟨hlist, -, hresume⟩ | ⟨hlist, hresume⟩
    · rw [hresume, hlist, hresults]
      rfl
    · rw [hresume, hlist, hresults]
      rfl
    · rw [hresume, hlist, hresults]
      rfl

/-- the client follows the node of one service -/
structure Fresh (name : String) (s : System) : Prop where
  slot : s.serviceWatcher = some .client ∨ Unarmed s
  asked : ∀ a, Asks s a → a.watch = true → a.path = servicePath name
  armed : ∀ path ∈ s.armed, path = servicePath name
  events : ∀ path, .event path ∈ s.wire → path = servicePath name
  requests : ∀ r ∈ s.client.requests, r.topic = .children (servicePath name)
  names : ∀ path children, s.children.lookup path = some children → ∀ child ∈ children, ',' ∉ child.toList ∧ child ≠ ""
  /-- no list of the server is younger than the watch -/
  fresh : servicePath name ∈ s.armed → s.children.lookup (servicePath name) = some s.latest

theorem start_fresh : Fresh name start where
  slot := .inr start_unarmed
  asked := fun a ha => absurd ha (not_asks_start a)
  armed := fun _ h => absurd h (Finset.notMem_empty _)
  events := fun _ h => absurd h List.not_mem_nil
  requests := fun _ h => absurd h List.not_mem_nil
  names := by
    intro path children hlookup
    cases (Finmap.lookup_empty path).symm.trans hlookup
  fresh := fun h => absurd h (Finset.notMem_empty _)

theorem Fresh.change (h : Fresh name s) {children : List String}
    (hl : ∀ child ∈ children, ',' ∉ child.toList ∧ child ≠ "") : Fresh name (s.change path children) := by
  have hwire : ∀ m ∈ (s.change path children).wire, m ∈ s.wire ∨ m = .event path ∧ path ∈ s.armed := by
    intro m hm
    unfold System.change at hm
    dsimp only at hm
    split_ifs at hm with harmed
    · exact (List.mem_append.1 hm).imp_right fun hm => ⟨List.mem_singleton.1 hm, harmed⟩
    · exact .inl hm
  have hlatest : (s.change path children).latest = s.latest := by
    by_cases harmed : path ∈ s.armed
    · have hsnoc := latest_snoc s (.event path)
      simp only [System.change, if_pos harmed]
      exact hsnoc
    · simp only [System.change, if_neg harmed]
      rfl
  refine ⟨h.slot.imp id fun hu => hu.step (l := .change path children) (by simp), ?_,
    fun q hq => h.armed q (Finset.mem_of_mem_erase hq), ?_, h.requests, ?_, ?_⟩
  · rintro a (ha | ⟨r, hr⟩ | ha) hw
    · exact h.asked a (.inl ha) hw
    · refine h.asked a (.inr (.inl ⟨r, (hwire _ hr).resolve_right ?_⟩)) hw
      rintro ⟨heq, -⟩
      cases heq
    · exact h.asked a (.inr (.inr ha)) hw
  · intro q hq
    rcases hwire _ hq with hq | ⟨heq, harmed⟩
    · exact h.events q hq
    · rw [Message.event.inj heq]
      exact h.armed path harmed
  · intro q children' hlookup
    simp only [System.change, Multimap.lookup_insert_ite] at hlookup
    split_ifs at hlookup
    · obtain rfl := Option.some.inj hlookup
      exact hl
    · exact h.names q children' hlookup
  · intro hmem
    obtain ⟨hne, hmem⟩ := Finset.mem_erase.1 hmem
    rw [hlatest]
    exact (Finmap.lookup_insert_of_ne _ hne).trans (h.fresh hmem)

theorem Fresh.remove (h : Fresh name s) (path : String) : Fresh name (s.remove path) where
  slot := h.slot.imp id fun hu => hu.step (l := .remove path) (by simp)
  asked := h.asked
  armed := fun q hq => h.armed q (Finset.mem_of_mem_erase hq)
  events := h.events
  requests := h.requests
  names := by
    intro q children hlookup
    simp only [System.remove, Multimap.lookup_erase_ite] at hlookup
    split_ifs at hlookup
    exact h.names q children hlookup
  fresh := by
    intro hmem
    obtain ⟨hne, hmem⟩ := Finset.mem_erase.1 hmem
    exact (Finmap.lookup_erase_ne hne).trans (h.fresh hmem)

/-- a getChildren is sent, with a watch for the one node -/
theorem Fresh.ask (h : Fresh name s) {a : Ask} (ha : a.watch = true → a.path = servicePath name)
    (hslot : s.serviceWatcher = some .client ∨ Unarmed { s with asked := s.asked ++ [a] }) :
    Fresh name { s with asked := s.asked ++ [a] } where
  slot := hslot
  asked := by
    rintro b (hb | hb) hw
    · rcases List.mem_append.1 hb with hb | hb
      · exact h.asked b (.inl hb) hw
      · obtain rfl := List.mem_singleton.1 hb
        exact ha hw
    · exact h.asked b (.inr hb) hw
  armed := h.armed
  events := h.events
  requests := h.requests
  names := h.names
  fresh := h.fresh

theorem Fresh.connectWithDiscovery (h : Fresh name s) : Fresh name (s.connectWithDiscovery name) where
  slot := .inl rfl
  asked := by
    rintro a (ha | ha) hw
    · rcases List.mem_append.1 ha with ha | ha
      · exact h.asked a (.inl ha) hw
      · rw [List.mem_singleton.1 ha]
    · exact h.asked a (.inr ha) hw
  armed := h.armed
  events := h.events
  requests := h.requests
  names := h.names
  fresh := h.fresh

theorem Fresh.serve (h : Fresh name s) (i : ℕ) (ok : Bool) : Fresh name (s.serve i ok) := by
  have hslot : (s.serve i ok).serviceWatcher = s.serviceWatcher := by
    rcases serve_cases s i ok with hserve | ⟨a, -, hserve⟩
    · rw [hserve]
    · rw [hserve]
  replace hslot := h.slot.imp hslot.trans fun hu => hu.serve i ok
  rcases serve_cases s i ok with hserve | ⟨a, hi, hserve⟩
  · rw [hserve]
    exact h
  · have hmem : a ∈ s.asked := List.mem_of_getElem? hi
    have hlatest : (s.serve i ok).latest = (listOf a (s.read a.path ok)).getD s.latest := by
      rw [hserve]
      exact latest_snoc s (.asked a (s.read a.path ok))
    have hfresh : servicePath name ∈ (s.serve i ok).armed →
        (s.serve i ok).children.lookup (servicePath name) = some (s.serve i ok).latest := by
      rw [hlatest, hserve]
      dsimp only
      by_cases hfound : a.watch = true ∧ (s.read a.path ok).rc = ZOK
      · obtain ⟨children, hlookup, hread⟩ := read_ok hfound.2
        have hnames := h.names a.path children hlookup
        have hlist : instancesOf (getChildrenCompletion (s.read a.path ok)).data = children := by
          rw [hread]
          exact ServiceDiscovery.instancesOf_completion (fun child hc => (hnames child hc).1)
            fun child hc => (hnames child hc).2
        rw [listOf, if_pos hfound, if_pos hfound, hlist, ← h.asked a (.inl hmem) hfound.1]
        exact fun _ => hlookup
      · rw [listOf, if_neg hfound, if_neg hfound]
        exact h.fresh
    have hasked : ∀ b, Asks (s.serve i ok) b → b.watch = true → b.path = servicePath name :=
      fun b hb => h.asked b (asks_serve hb)
    rw [hserve] at hfresh hslot hasked ⊢
    refine ⟨hslot, hasked, ?_, ?_, h.requests, h.names, hfresh⟩
    · intro q hq
      dsimp only at hq
      split_ifs at hq with hfound
      · rcases Finset.mem_insert.1 hq with rfl | hq
        · exact h.asked a (.inl hmem) hfound.1
        · exact h.armed q hq
      · exact h.armed q hq
    · intro q hq
      rcases List.mem_append.1 hq with hq | hq
      · exact h.events q hq
      · cases List.mem_singleton.1 hq

theorem Fresh.serveWatch (h : Fresh name s) (ok : Bool) : Fresh name (s.serveWatch ok) := by
  cases hunread : s.unread with
  | nil =>
    rw [serveWatch_nil hunread]
    exact h
  | cons r rest =>
    have hmem : r ∈ s.client.requests := mem_of_unread hunread
    have hslot : s.serviceWatcher = some .client := by
      refine h.slot.resolve_right fun hu => ?_
      rw [hu.requests] at hmem
      cases hmem
    have hserve := serveWatch_eq hunread (h.requests r hmem) ok
    have hlatest : (s.serveWatch ok).latest = (Message.watch (servicePath name) (s.read (servicePath name) ok)).list.getD
        s.latest := by
      rw [hserve]
      exact latest_snoc s (.watch (servicePath name) (s.read (servicePath name) ok))
    have hfresh : servicePath name ∈ (s.serveWatch ok).armed →
        (s.serveWatch ok).children.lookup (servicePath name) = some (s.serveWatch ok).latest := by
      rw [hlatest, hserve]
      dsimp only [Message.list]
      by_cases hok : (s.read (servicePath name) ok).rc = ZOK
      · obtain ⟨children, hlookup, hread⟩ := read_ok hok
        rw [if_pos hok, hread]
        exact fun _ => hlookup
      · rw [if_neg hok, if_neg hok]
        exact h.fresh
    have hasked : ∀ b, Asks (s.serveWatch ok) b → b.watch = true → b.path = servicePath name :=
      fun b hb => h.asked b (asks_serveWatch hb)
    rw [hserve] at hfresh hasked ⊢
    refine ⟨.inl hslot, hasked, ?_, ?_, h.requests, h.names, hfresh⟩
    · intro q hq
      dsimp only at hq
      split_ifs at hq
      · rcases Finset.mem_insert.1 hq with rfl | hq
        · rfl
        · exact h.armed q hq
      · exact h.armed q hq
    · intro q hq
      rcases List.mem_append.1 hq with hq | hq
      · exact h.events q hq
      · cases List.mem_singleton.1 hq

/-- what goes on between two lists of the server, as far as the client knows -/
theorem Fresh.of_same (h : Fresh name s) {t : System} (hsame : Same s t)
    (hslot : t.serviceWatcher = some .client ∨ Unarmed t) (hasks : ∀ a, Asks t a → Asks s a)
    (hevents : ∀ path, .event path ∈ t.wire → .event path ∈ s.wire)
    (hrequests : ∀ r ∈ t.client.requests, r.topic = .children (servicePath name)) (hlatest : t.latest = s.latest) :
    Fresh name t where
  slot := hslot
  asked := fun a ha => h.asked a (hasks a ha)
  armed := by
    rw [hsame.armed]
    exact h.armed
  events := fun path hpath => h.events path (hevents path hpath)
  requests := hrequests
  names := by
    rw [hsame.children]
    exact h.names
  fresh := by
    rw [hsame.armed, hsame.children, hlatest]
    exact h.fresh

theorem Fresh.deliver (h : Fresh name s) (hinv : Inv s) {rc : ℤ} (hl : Reliable s (.deliver rc))
    (hprompt : Prompt s (.deliver rc)) : Fresh name (s.deliver rc) := by
  obtain ⟨hsame, hwire, -, -⟩ := deliver_frame s rc
  refine h.of_same hsame (h.slot.imp hsame.serviceWatcher.trans fun hu => hu.deliver rc) (fun a => asks_deliver) ?_ ?_
    (latest_deliver hinv h.slot hprompt)
  · intro path hpath
    rw [hwire] at hpath
    exact List.mem_of_mem_tail hpath
  · cases hhead : s.wire with
    | nil =>
      simp only [System.deliver, hhead]
      exact h.requests
    | cons m rest =>
      have hmem : m ∈ s.wire := by
        rw [hhead]
        exact List.mem_cons_self
      cases m with
      | event path =>
        obtain rfl : rc = ZOK := hl (.event path) (by rw [hhead]; rfl)
        simp only [System.deliver, hhead, globalWatcher_child hinv (hinv.events path hmem)]
        intro r hr
        rcases List.mem_append.1 hr with hr | hr
        · exact h.requests r hr
        · rw [List.mem_singleton.1 hr, h.events path hmem]
      | asked a r =>
        simp only [System.deliver, hhead]
        exact h.requests
      | watch path r =>
        obtain ⟨req, again, tail, c, hrequests, htopic, hagain, -, -, -, hc, hdeliver⟩ := deliver_watch hinv hhead rc
        have hclient : (s.deliver rc).client = c := by
          rw [hdeliver]
          split_ifs
          · exact (tell_frame _ _).2.2.2.2
          · rfl
        rw [hclient, hc]
        intro x hx
        rcases List.mem_append.1 hx with hx | hx
        · exact h.requests x (hrequests ▸ List.mem_cons_of_mem _ hx)
        · split_ifs at hx
          · rw [List.mem_singleton.1 hx, hagain, ← htopic]
            exact h.requests req (hrequests ▸ List.mem_cons_self)
          · cases hx

theorem Fresh.resume (h : Fresh name s) : Fresh name (s.resume 0) := by
  obtain ⟨hsame, hwire, hclient, -⟩ := resume_frame s 0
  refine h.of_same hsame (h.slot.imp hsame.serviceWatcher.trans fun hu => hu.resume 0) (fun a => asks_resume) ?_ ?_
    (latest_resume s)
  · rw [hwire]
    exact fun _ hpath => hpath
  · rw [hclient]
    exact h.requests

theorem Fresh.step (h : Fresh name s) (hinv : Inv s) (hreliable : Reliable s l) (hl : Single name l)
    (hprompt : Prompt s l) : Fresh name (step s l) := by
  cases l with
  | change path children => exact h.change hl
  | remove path => exact h.remove path
  | setServiceWatcher serviceName callback => exact hl.elim
  | getInstances serviceName => exact h.ask (by simp) (h.slot.imp id fun hu => hu.ask rfl)
  | connectWithDiscovery serviceName =>
    obtain rfl : serviceName = name := hl
    exact h.connectWithDiscovery
  | serve i ok => exact h.serve i ok
  | serveWatch ok => exact h.serveWatch ok
  | deliver rc => exact h.deliver hinv hreliable hprompt
  | resume i =>
    obtain rfl : i = 0 := hprompt
    exact h.resume

theorem taken_zok (m : Message) : m.Taken ZOK := by
  cases m with
  | event path => rfl
  | asked a r => trivial
  | watch path r => exact .inr rfl

theorem reliable_zok (s : System) : Reliable s (.deliver ZOK) := fun m _ => taken_zok m

/-- without `Prompt`: connectWithDiscovery goes on behind the list of the watcher, and puts the old one in its place -/
example : let s := Machine.run step start [.change "/rpc/services/s" ["a:1"], .connectWithDiscovery "s", .serve 0 true,
    .deliver ZOK, .change "/rpc/services/s" ["b:2"], .deliver ZOK, .serveWatch true, .deliver 1, .resume 0]
    "/rpc/services/s" ∈ s.armed ∧ s.pending = [] ∧ s.instances = ["a:1"] :=
  have hlist : instancesOf (getChildrenCompletion ⟨ZOK, none, none, ["a:1"]⟩).data = ["a:1"] :=
    ServiceDiscovery.instancesOf_completion (a := ⟨ZOK, none, none, ["a:1"]⟩) (by decide) (by decide)
  ⟨by decide, by decide, hlist⟩

/-! ## What the transport comes to -/

/-- a step of the transport by which nothing is lost -/
def Goes (s : System) (l : Label) : Prop := Reliable s l ∧ Prompt s l ∧ l.transport = true

/-- everything that is on its way has come -/
structure Settled (s t : System) : Prop where
  inv : Inv t
  same : Same s t
  wire : t.wire = []
  results : t.results = []
  instances : t.instances = s.latest

/-- what has been answered reaches the client in order, whatever it is -/
theorem settles (h : Inv s) (hslot : s.serviceWatcher = some .client) : Machine.Leads step Goes (Settled s) s := by
  induction hn : 2 * s.wire.length + s.results.length using Nat.strong_induction_on generalizing s with
  | _ n ih =>
    have hgo : ∀ l, Goes s l → Same s (step s l) → (step s l).latest = s.latest →
        2 * (step s l).wire.length + (step s l).results.length < n → Machine.Leads step Goes (Settled s) s := by
      intro l hl hsame hlatest hlt
      refine .of_step hl ((ih _ hlt (h.step hl.1) (hsame.serviceWatcher.trans hslot) rfl).imp fun t ht => ?_)
      exact ⟨ht.inv, hsame.trans ht.same, ht.wire, ht.results, ht.instances.trans hlatest⟩
    cases hresults : s.results with
    | cons x results =>
      obtain ⟨hsame, hwire, -, hleft⟩ := resume_frame s 0
      refine hgo (.resume 0) ⟨trivial, rfl, rfl⟩ hsame (latest_resume s) ?_
      change 2 * (s.resume 0).wire.length + (s.resume 0).results.length < n
      rw [hwire, hleft, hresults, List.eraseIdx_cons_zero]
      rw [hresults, List.length_cons] at hn
      omega
    | nil =>
      cases hwire : s.wire with
      | nil =>
        refine .here ⟨h, .refl s, hwire, hresults, ?_⟩
        rw [System.latest, System.pending, hresults, hwire]
        rfl
      | cons m rest =>
        have hprompt : Prompt s (.deliver ZOK) := fun _ _ _ => hresults
        obtain ⟨hsame, hrest, -, hcome⟩ := deliver_frame s ZOK
        refine hgo (.deliver ZOK) ⟨reliable_zok s, hprompt, rfl⟩ hsame (latest_deliver h (.inl hslot) hprompt) ?_
        change 2 * (s.deliver ZOK).wire.length + (s.deliver ZOK).results.length < n
        have hle : (s.wire.head?.bind Message.result).toList.length ≤ 1 := by
          cases s.wire.head?.bind Message.result <;> simp
        rw [hrest, hcome, List.length_append, hwire, List.tail_cons]
        rw [hwire, hresults, List.length_cons] at hn
        rw [hwire] at hle
        simp only [hresults, List.length_nil]
        omega

/-- with nothing else under way, the next get is answered: it ends, and its next one comes behind the others -/
theorem answers_next (h : Inv s) (hslot : s.serviceWatcher = some .client) (hwire : s.wire = []) (hresults : s.results = [])
    {r : Watchers.Request} {rest : List Watchers.Request} (hrequests : s.client.requests = r :: rest)
    (htopic : r.topic = .children path) : ∃ t again, t = (s.serveWatch true).deliver ZOK ∧ Inv t ∧ t.wire = [] ∧
      t.results = [] ∧ t.serviceWatcher = some .client ∧ t.children = s.children ∧ t.serviceName = s.serviceName ∧
      t.client.requests = rest ++ [again] ∧
      ((s.read path true).rc = ZOK → t.instances = (s.read path true).strings) := by
  have hunread : s.unread = r :: rest := by
    rw [System.unread, System.answered, hwire, hrequests]
    rfl
  have hserve := serveWatch_eq hunread htopic true
  have hnext : (s.serveWatch true).wire = .watch path (s.read path true) :: [] := by
    rw [hserve, hwire]
    rfl
  have hclient : (s.serveWatch true).client = s.client := by rw [hserve]
  obtain ⟨req, again, tail, c, hreqs, -, -, -, -, -, hc, hdeliver⟩ := deliver_watch (h.serveWatch true) hnext ZOK
  rw [hclient, hrequests] at hreqs
  obtain ⟨rfl, rfl⟩ := List.cons.inj hreqs
  rw [if_pos rfl] at hc
  refine ⟨_, again, rfl, (h.serveWatch true).deliver_watch hnext (.inr rfl), ?_⟩
  rw [hdeliver, hserve]
  split_ifs with hok
  · rw [tell_client (by exact hslot)]
    exact ⟨rfl, hresults, hslot, rfl, rfl, hc, fun _ => rfl⟩
  · exact ⟨rfl, hresults, hslot, rfl, rfl, hc, fun hok' => absurd hok' hok⟩

/-- what a client comes to by what is under way alone -/
abbrev Comes (s : System) (name : Option String) (path : String) (children : List String) : Prop :=
  Machine.Leads step Goes
    (fun t => t.instances = children ∧ t.children.lookup path = some children ∧ t.serviceName = name) s

/-- a get that the server reads brings its list, behind those in front of it -/
theorem comes_of_unread {s : System} (h : Inv s) (hslot : s.serviceWatcher = some .client) (hwire : s.wire = [])
    (hresults : s.results = []) {children : List String} (hlookup : s.children.lookup path = some children)
    {front back : List Watchers.Request} {r : Watchers.Request} (hrequests : s.client.requests = front ++ r :: back)
    (htopic : r.topic = .children path) : Comes s s.serviceName path children := by
  induction front generalizing s back with
  | nil =>
    obtain ⟨t, again, ht, -, -, -, -, hchildren, hname, -, hlist⟩ :=
      answers_next h hslot hwire hresults hrequests htopic
    have hread : s.read path true = ⟨ZOK, none, none, children⟩ := by
      unfold System.read
      rw [if_pos rfl, hlookup]
    rw [hread] at hlist
    refine .of_step (l := .serveWatch true) ⟨trivial, trivial, rfl⟩ (.of_step (l := .deliver ZOK) ⟨reliable_zok _, ?_, rfl⟩
      (.here ?_))
    · intro _ _ _
      exact (serveWatch_frame s true).2.2.trans hresults
    · have hstep : step (step s (.serveWatch true)) (.deliver ZOK) = t := ht.symm
      rw [hstep]
      exact ⟨hlist rfl, by rw [hchildren]; exact hlookup, hname⟩
  | cons q front ih =>
    obtain ⟨-, p, hp, -⟩ := h.requests q (by rw [hrequests]; exact List.mem_cons_self)
    obtain ⟨t, again, ht, hinv, hw, hres, hs, hchildren, hname, hreqs, -⟩ :=
      answers_next h hslot hwire hresults hrequests hp
    have hbehind : t.client.requests = front ++ r :: (back ++ [again]) := by
      rw [hreqs]
      exact List.append_assoc front (r :: back) [again]
    have hcomes := ih hinv hs hw hres (hchildren ▸ hlookup) hbehind
    rw [hname, ht] at hcomes
    refine .of_step (l := .serveWatch true) ⟨trivial, trivial, rfl⟩ (.of_step (l := .deliver ZOK) ⟨reliable_zok _, ?_, rfl⟩
      hcomes)
    intro _ _ _
    exact (serveWatch_frame s true).2.2.trans hresults

/-- a node that the client has found, and whose watch has gone, is asked for again -/
theorem comes_of_watched (h : Inv s) (hslot : s.serviceWatcher = some .client) (hwatched : path ∈ s.watched)
    (hnot : path ∉ s.armed) {children : List String} (hlookup : s.children.lookup path = some children) :
    Comes s s.serviceName path children := by
  refine (settles h hslot).trans fun t ht => ?_
  have hcovered : Covered t path := ht.inv.covered path (by rw [ht.same.watched]; exact hwatched)
  have hunread : ∃ r ∈ t.unread, r.topic = .children path := by
    rcases hcovered with harmed | hevent | ⟨r, hr, -⟩ | hget
    · rw [ht.same.armed] at harmed
      exact absurd harmed hnot
    · rw [ht.wire] at hevent
      cases hevent
    · rw [ht.wire] at hr
      cases hr
    · exact hget
  obtain ⟨r, hr, htopic⟩ := hunread
  obtain ⟨front, back, hrequests⟩ := List.append_of_mem (List.mem_of_mem_drop hr)
  rw [← ht.same.serviceName]
  exact comes_of_unread ht.inv (ht.same.serviceWatcher.trans hslot) ht.wire ht.results
    (by rw [ht.same.children]; exact hlookup) hrequests htopic

/-- **Following**: as long as its callback is in `m_serviceWatcher`, whatever the children become of a node that the client
has connected to, what is then under way can bring the client to this list, for whatever service it has connected to
last -/
theorem follows {ls : List Label} (hls : Machine.Along step Reliable start ls)
    (hwatched : path ∈ (Machine.run step start ls).watched)
    (hslot : (Machine.run step start ls).serviceWatcher = some .client) (children : List String) :
    Comes ((Machine.run step start ls).change path children) (Machine.run step start ls).serviceName path children :=
  comes_of_watched ((run_inv hls).change path children) hslot hwatched
    (fun hmem => Finset.ne_of_mem_erase hmem rfl) (Finmap.lookup_insert _)

/-- it connects to another one, where there is no node yet -/
abbrev otherRun : List Label :=
  [.change "/rpc/services/s" ["a:1"], .connectWithDiscovery "s", .serve 0 true, .deliver ZOK, .resume 0,
    .connectWithDiscovery "t", .serve 0 true, .deliver ZOK, .resume 0]

theorem otherRun_reliable : Machine.Along step Reliable start otherRun :=
  ⟨trivial, trivial, trivial, reliable_zok _, trivial, trivial, trivial, reliable_zok _, trivial, trivial⟩

/-- the client takes the instances of `s` for those of `t` -/
theorem follows_other : Comes ((Machine.run step start otherRun).change "/rpc/services/s" ["b:2"]) (some "t")
    "/rpc/services/s" ["b:2"] :=
  follows otherRun_reliable (by decide) rfl ["b:2"]

end Following

end MCoroRpc
