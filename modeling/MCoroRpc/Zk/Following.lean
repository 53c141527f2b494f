/-
How a client follows the instances of a service: ServiceDiscovery::setServiceWatcher and getInstances
(src/rpc_provider.cc), connectWithDiscovery (src/rpc_client_impl.cc) and the watchers of ZkClient, against a ZooKeeper
server.

The server keeps the children of each node, and whether a child watch of the session is armed there. A get that asks for a
watch arms it when it finds the node; the next change of the children sends one event and disarms it. A deletion of the
node disarms it too, and the event that it sends is none that processWatcher looks at. The server reads the gets of the
watchers in their order, and each getChildren at any time; answers and events reach the client in the order in which they
are sent. The answer to a get of a watcher is handed on as it comes, by the thread of the ZooKeeper client; the answer to a
getChildren waits until its coroutine goes on, in a later turn of the loop, which may be behind newer lists.
setServiceWatcher makes a Task of getChildren and does not await it, so that no get is sent.

- `never_notified`: the callback of setServiceWatcher is never called, unless an RpcClient connects through the same
  ServiceDiscovery.
- `Inv`, `Inv.step`: for which nodes something is under way; as long as no watch is lost (`Reliable`), no node that a get
  of connectWithDiscovery has found is lost sight of.
-/
import MCoroRpc.Core.Multimap
import MCoroRpc.Rpc.ServiceDiscovery

namespace MCoroRpc

namespace Following

open ServiceDiscovery (ZNONODE instancesOf servicePath)
open ZkClient (Answer ZOK ZCONNECTIONLOSS getChildrenCompletion)

/-! ## Model -/

/-- what `m_serviceWatcher` can be -/
inductive Watcher where
  /-- the lambda of connectWithDiscovery, which updates the instances -/
  | client
  | user (callback : ℕ)
deriving DecidableEq, Repr

/-- a getChildren that is awaited; those with a watch are made by connectWithDiscovery -/
structure Ask where
  path : String
  watch : Bool
deriving DecidableEq, Repr

/-- what is on its way to the client -/
inductive Message where
  /-- a child event -/
  | event (path : String)
  /-- the answer to a getChildren -/
  | asked (a : Ask) (r : Answer)
  /-- the answer to a get of a watcher, which is for the first of those that have not been answered -/
  | watch (path : String) (r : Answer)

def Message.watchPath : Message → Option String
  | .watch path _ => some path
  | _ => none

/-- the list that connectWithDiscovery makes of an answer -/
def listOf (a : Ask) (r : Answer) : Option (List String) :=
  if a.watch = true ∧ r.rc = ZOK then some (instancesOf (getChildrenCompletion r).data) else none

/-- the list that the message brings to the client -/
def Message.list : Message → Option (List String)
  | .event _ => none
  | .asked a r => listOf a r
  | .watch _ r => if r.rc = ZOK then some r.strings else none

/-- what the message leaves for a coroutine -/
def Message.result : Message → Option (Ask × Answer)
  | .asked a r => some (a, r)
  | _ => none

structure System where
  /-- the nodes of the server, and their children -/
  children : Finmap fun _ : String => List String
  /-- the nodes with a child watch of this session -/
  armed : Finset String
  wire : List Message
  /-- the getChildren that the server has not read -/
  asked : List Ask
  client : Watchers.Client
  /-- the getChildren that have been answered, and whose coroutines have not gone on -/
  results : List (Ask × Answer)
  serviceWatcher : Option Watcher
  serviceName : Option String
  instances : List String
  /-- the calls of `m_serviceWatcher` -/
  told : List (Watcher × List String)
  /-- the nodes that a get of connectWithDiscovery has found -/
  watched : Finset String

def start : System := ⟨∅, ∅, [], [], Watchers.init, [], none, none, [], [], ∅⟩

namespace System

/-- the gets of the watchers whose answers are on the wire; the server has not read those behind them -/
def answered (s : System) : ℕ := (s.wire.filterMap Message.watchPath).length

/-- the gets of the watchers that the server has not read -/
def unread (s : System) : List Watchers.Request := s.client.requests.drop s.answered

/-- the lists that are on their way, those that wait for connectWithDiscovery in front -/
def pending (s : System) : List (List String) :=
  s.results.filterMap (fun x => listOf x.1 x.2) ++ s.wire.filterMap Message.list

/-- the youngest list that the server has sent to the client, or the list that the client has -/
def latest (s : System) : List String := s.pending.getLastD s.instances

/-- the server answers a get of the children, or the connection is lost -/
def read (path : String) (ok : Bool) (s : System) : Answer :=
  if ok then
    match s.children.lookup path with
    | some children => ⟨ZOK, none, none, children⟩
    | none => ⟨ZNONODE, none, none, []⟩
  else ⟨ZCONNECTIONLOSS, none, none, []⟩

/-- the children of a node are others, or the node is created -/
def change (path : String) (children : List String) (s : System) : System :=
  { s with
    children := s.children.insert path children
    armed := s.armed.erase path
    wire := if path ∈ s.armed then s.wire ++ [.event path] else s.wire }

def remove (path : String) (s : System) : System :=
  { s with children := s.children.erase path, armed := s.armed.erase path }

/-- the callback in `m_childrenWatchers` is the lambda that calls `m_serviceWatcher` -/
def setServiceWatcher (serviceName : String) (callback : Option Watcher) (s : System) : System :=
  { s with
    serviceWatcher := callback
    client := Watchers.step s.client (.setChildrenWatcher (servicePath serviceName) (some 0)) }

/-- up to its first await -/
def connectWithDiscovery (serviceName : String) (s : System) : System :=
  let t := s.setServiceWatcher serviceName (some .client)
  { t with serviceName := some serviceName, asked := t.asked ++ [⟨servicePath serviceName, true⟩] }

/-- the server reads a getChildren -/
def serve (i : ℕ) (ok : Bool) (s : System) : System :=
  match s.asked[i]? with
  | none => s
  | some a =>
    let r := s.read a.path ok
    let t := { s with asked := s.asked.eraseIdx i, wire := s.wire ++ [.asked a r] }
    if a.watch = true ∧ r.rc = ZOK then
      { t with armed := insert a.path t.armed, watched := insert a.path t.watched }
    else t

/-- the server reads the next get of a watcher -/
def serveWatch (ok : Bool) (s : System) : System :=
  match s.client.requests[s.answered]? with
  | some ⟨.children path, _, _⟩ =>
    let r := s.read path ok
    let t := { s with wire := s.wire ++ [.watch path r] }
    if r.rc = ZOK then { t with armed := insert path t.armed } else t
  | _ => s

/-- the lambda of setServiceWatcher is called -/
def tell (children : List String) (s : System) : System :=
  match s.serviceWatcher with
  | none => s
  | some .client => { s with told := s.told ++ [(.client, children)], instances := children }
  | some (.user callback) => { s with told := s.told ++ [(.user callback, children)] }

/-- the next message reaches the client; the get of processWatcher or of watchChildrenCompletion returns `rc` -/
def deliver (rc : ℤ) (s : System) : System :=
  match s.wire with
  | [] => s
  | .event path :: rest => { s with wire := rest, client := s.client.globalWatcher .child (some path) rc }
  | .asked a r :: rest => { s with wire := rest, results := s.results ++ [(a, r)] }
  | .watch _ r :: rest =>
    let t := { s with wire := rest, client := s.client.answer 0 r.rc r.strings rc }
    if r.rc = ZOK ∧ (s.client.requests[0]?.bind (·.callback)).isSome then t.tell r.strings else t

/-- the coroutine of an answered getChildren goes on; connectWithDiscovery asks again when there is no node -/
def resume (i : ℕ) (s : System) : System :=
  match s.results[i]? with
  | none => s
  | some (a, r) =>
    let t := { s with results := s.results.eraseIdx i }
    match listOf a r with
    | some instances => { t with instances := instances }
    | none => if a.watch = true ∧ r.rc = ZNONODE then { t with asked := t.asked ++ [a] } else t

end System

inductive Label where
  | change (path : String) (children : List String)
  | remove (path : String)
  /-- setServiceWatcher, called by a user -/
  | setServiceWatcher (serviceName : String) (callback : Option ℕ)
  /-- getInstances asks for the children, without a watch -/
  | getInstances (serviceName : String)
  | connectWithDiscovery (serviceName : String)
  | serve (i : ℕ) (ok : Bool)
  | serveWatch (ok : Bool)
  | deliver (rc : ℤ)
  | resume (i : ℕ)
deriving DecidableEq, Repr

def step (s : System) : Label → System
  | .change path children => s.change path children
  | .remove path => s.remove path
  | .setServiceWatcher serviceName callback => s.setServiceWatcher serviceName (callback.map .user)
  | .getInstances serviceName => { s with asked := s.asked ++ [⟨servicePath serviceName, false⟩] }
  | .connectWithDiscovery serviceName => s.connectWithDiscovery serviceName
  | .serve i ok => s.serve i ok
  | .serveWatch ok => s.serveWatch ok
  | .deliver rc => s.deliver rc
  | .resume i => s.resume i

/-! ## Conditions -/

/-- the get that the message leads to is not refused by the client library, unless the get before it has armed the watch -/
def Message.Taken (rc : ℤ) : Message → Prop
  | .event _ => rc = ZOK
  | .asked .. => True
  | .watch _ r => r.rc = ZOK ∨ rc = ZOK

/-- no watch is lost by a get that is refused, and no node is deleted under a watch -/
def Reliable (s : System) : Label → Prop
  | .deliver rc => ∀ m ∈ s.wire.head?, m.Taken rc
  | .remove path => path ∉ s.armed
  | _ => True

/-- the client connects to one service, its callback is not replaced, and children have names without commas -/
def Single (name : String) : Label → Prop
  | .connectWithDiscovery serviceName => serviceName = name
  | .setServiceWatcher .. => False
  | .change _ children => ∀ child ∈ children, ',' ∉ child.toList ∧ child ≠ ""
  | _ => True

/-- the coroutines go on in the order of their answers, and before the next list of a watcher comes -/
def Prompt (s : System) : Label → Prop
  | .resume i => i = 0
  | .deliver _ => ∀ m ∈ s.wire.head?, m.watchPath ≠ none → s.results = []
  | _ => True

/-- what happens between the client and the server, and in the coroutines that are under way -/
def Label.transport : Label → Bool
  | .serve .. | .serveWatch _ | .deliver _ | .resume _ => true
  | _ => false

variable {s : System} {l : Label} {path name : String}

/-! ## setServiceWatcher alone -/

/-- no watch has been asked for -/
structure Unarmed (s : System) : Prop where
  armed : s.armed = ∅
  wire : ∀ m ∈ s.wire, ∃ a r, m = .asked a r ∧ a.watch = false
  requests : s.client.requests = []
  asked : ∀ a ∈ s.asked, a.watch = false
  results : ∀ x ∈ s.results, x.1.watch = false
  told : s.told = []

theorem start_unarmed : Unarmed start := ⟨rfl, by simp [start], rfl, by simp [start], by simp [start], rfl⟩

/-- a getChildren without a watch -/
theorem Unarmed.ask (h : Unarmed s) {a : Ask} (ha : a.watch = false) : Unarmed { s with asked := s.asked ++ [a] } where
  armed := h.armed
  wire := h.wire
  requests := h.requests
  asked := by
    intro b hb
    rcases List.mem_append.1 hb with hb | hb
    · exact h.asked b hb
    · rw [List.mem_singleton.1 hb, ha]
  results := h.results
  told := h.told

theorem Unarmed.serve (h : Unarmed s) (i : ℕ) (ok : Bool) : Unarmed (s.serve i ok) := by
  unfold System.serve
  split
  · exact h
  · next a hi =>
    have ha : a.watch = false := h.asked a (List.mem_of_getElem? hi)
    rw [if_neg (by simp [ha])]
    refine ⟨h.armed, ?_, h.requests, fun b hb => h.asked b (List.mem_of_mem_eraseIdx hb), h.results, h.told⟩
    intro m hm
    rcases List.mem_append.1 hm with hm | hm
    · exact h.wire m hm
    · exact ⟨a, _, List.mem_singleton.1 hm, ha⟩

theorem Unarmed.deliver (h : Unarmed s) (rc : ℤ) : Unarmed (s.deliver rc) := by
  have hwire := h.wire
  unfold System.deliver
  split
  · exact h
  · next path rest hw =>
    obtain ⟨a, r, heq, -⟩ := hwire (.event path) (by rw [hw]; exact List.mem_cons_self)
    cases heq
  · next a r rest hw =>
    obtain ⟨a', r', heq, ha⟩ := hwire (.asked a r) (by rw [hw]; exact List.mem_cons_self)
    obtain ⟨rfl, -⟩ := Message.asked.inj heq
    refine ⟨h.armed, fun m hm => hwire m (by rw [hw]; exact List.mem_cons_of_mem _ hm), h.requests, h.asked, ?_, h.told⟩
    intro x hx
    rcases List.mem_append.1 hx with hx | hx
    · exact h.results x hx
    · rw [List.mem_singleton.1 hx]
      exact ha
  · next path r rest hw =>
    obtain ⟨a, r', heq, -⟩ := hwire (.watch path r) (by rw [hw]; exact List.mem_cons_self)
    cases heq

theorem Unarmed.resume (h : Unarmed s) (i : ℕ) : Unarmed (s.resume i) := by
  unfold System.resume
  split
  · exact h
  · next a r hi =>
    have ha : a.watch = false := h.results _ (List.mem_of_getElem? hi)
    have hlist : listOf a r = none := if_neg (by simp [ha])
    rw [hlist]
    dsimp only
    rw [if_neg (by simp [ha])]
    exact ⟨h.armed, h.wire, h.requests, h.asked, fun x hx => h.results x (List.mem_of_mem_eraseIdx hx), h.told⟩

theorem Unarmed.step (h : Unarmed s) (hl : ∀ serviceName, l ≠ .connectWithDiscovery serviceName) :
    Unarmed (step s l) := by
  have herase : ∀ path, s.armed.erase path = ∅ := fun path => by rw [h.armed, Finset.erase_empty]
  cases l with
  | change path children =>
    refine ⟨herase path, ?_, h.requests, h.asked, h.results, h.told⟩
    have hnot : path ∉ s.armed := by
      rw [h.armed]
      exact Finset.notMem_empty path
    simp only [Following.step, System.change, if_neg hnot]
    exact h.wire
  | remove path => exact ⟨herase path, h.wire, h.requests, h.asked, h.results, h.told⟩
  | setServiceWatcher serviceName callback => exact ⟨h.armed, h.wire, h.requests, h.asked, h.results, h.told⟩
  | getInstances serviceName => exact h.ask rfl
  | connectWithDiscovery serviceName => exact absurd rfl (hl serviceName)
  | serve i ok => exact h.serve i ok
  | serveWatch ok =>
    simp only [Following.step, System.serveWatch, h.requests, List.getElem?_nil]
    exact h
  | deliver rc => exact h.deliver rc
  | resume i => exact h.resume i

/-- **Never notified**: as long as no client connects through the ServiceDiscovery, nobody calls the callback of
setServiceWatcher, whatever happens at the server -/
theorem never_notified {ls : List Label} (hls : ∀ l ∈ ls, ∀ serviceName, l ≠ .connectWithDiscovery serviceName) :
    (Machine.run step start ls).told = [] :=
  (Machine.inv_run (fun _ _ hl h => Unarmed.step h hl) (Machine.along_of_mem hls start) start_unarmed).told

theorem never_notified_alone : (Machine.run step start [.change "/rpc/services/s" [], .setServiceWatcher "s" (some 1),
    .getInstances "s", .serve 0 true, .change "/rpc/services/s" ["a:1"], .deliver ZOK, .resume 0]).told = [] :=
  never_notified (by simp)

/-! ## What is under way -/

/-- a child event for the node makes the client ask for its children -/
def Watches (s : System) (path : String) : Prop := s.client.childrenWatchers.lookup path = some (some 0)

/-- a get of the children of the node, for a watcher, has not been answered -/
def Requested (s : System) (path : String) : Prop := ∃ r ∈ s.client.requests, r.topic = .children path

/-- a getChildren is under way -/
def Asks (s : System) (a : Ask) : Prop := a ∈ s.asked ∨ (∃ r, .asked a r ∈ s.wire) ∨ ∃ r, (a, r) ∈ s.results

/-- the watch is there, or what is under way brings it there -/
def Covered (s : System) (path : String) : Prop :=
  path ∈ s.armed ∨ .event path ∈ s.wire ∨ (∃ r, .watch path r ∈ s.wire ∧ r.rc ≠ ZOK) ∨
    ∃ r ∈ s.unread, r.topic = .children path

/-! ## What a step does to what is under way -/

theorem watches_setServiceWatcher (callback : Option Watcher) (h : Watches s path) :
    Watches (s.setServiceWatcher name callback) path := by
  unfold Watches System.setServiceWatcher Watchers.step
  by_cases hpath : path = servicePath name
  · rw [hpath]
    exact Finmap.lookup_insert _
  · exact (Finmap.lookup_insert_of_ne _ hpath).trans h

theorem watches_self (callback : Option Watcher) : Watches (s.setServiceWatcher name callback) (servicePath name) :=
  Finmap.lookup_insert _

/-- what the server does with a getChildren: the answer is sent, and the watch armed if the node has been found -/
theorem serve_cases (s : System) (i : ℕ) (ok : Bool) : s.serve i ok = s ∨ ∃ a, s.asked[i]? = some a ∧
    s.serve i ok = { s with
      asked := s.asked.eraseIdx i
      wire := s.wire ++ [.asked a (s.read a.path ok)]
      armed := if a.watch = true ∧ (s.read a.path ok).rc = ZOK then insert a.path s.armed else s.armed
      watched := if a.watch = true ∧ (s.read a.path ok).rc = ZOK then insert a.path s.watched else s.watched } := by
  unfold System.serve
  split
  · exact .inl rfl
  · next a hi =>
    refine .inr ⟨a, hi, ?_⟩
    dsimp only
    split_ifs
    · rfl
    · rfl

theorem asks_serve {i : ℕ} {ok : Bool} {a : Ask} (ha : Asks (s.serve i ok) a) : Asks s a := by
  rcases serve_cases s i ok with hserve | ⟨b, hi, hserve⟩
  · rwa [hserve] at ha
  · have hmem : b ∈ s.asked := List.mem_of_getElem? hi
    rw [hserve] at ha
    rcases ha with ha | ⟨r, hr⟩ | ha
    · exact .inl (List.mem_of_mem_eraseIdx ha)
    · rcases List.mem_append.1 hr with hr | hr
      · exact .inr (.inl ⟨r, hr⟩)
      · obtain ⟨rfl, -⟩ := Message.asked.inj (List.mem_singleton.1 hr)
        exact .inl hmem
    · exact .inr (.inr ha)

/-- what the server does with a get of a watcher -/
theorem serveWatch_cases (s : System) (ok : Bool) : s.serveWatch ok = s ∨ ∃ path, s.serveWatch ok = { s with
    wire := s.wire ++ [.watch path (s.read path ok)]
    armed := if (s.read path ok).rc = ZOK then insert path s.armed else s.armed } := by
  unfold System.serveWatch
  split
  · next path _ _ _ =>
    refine .inr ⟨path, ?_⟩
    dsimp only
    split_ifs
    · rfl
    · rfl
  · exact .inl rfl

theorem asks_serveWatch {ok : Bool} {a : Ask} (ha : Asks (s.serveWatch ok) a) : Asks s a := by
  rcases serveWatch_cases s ok with hserve | ⟨path, hserve⟩
  · rwa [hserve] at ha
  · rw [hserve] at ha
    rcases ha with ha | ⟨r, hr⟩ | ha
    · exact .inl ha
    · rcases List.mem_append.1 hr with hr | hr
      · exact .inr (.inl ⟨r, hr⟩)
      · cases List.mem_singleton.1 hr
    · exact .inr (.inr ha)

theorem serveWatch_frame (s : System) (ok : Bool) : (s.serveWatch ok).children = s.children ∧
    (s.serveWatch ok).watched = s.watched ∧ (s.serveWatch ok).results = s.results := by
  rcases serveWatch_cases s ok with hserve | ⟨path, hserve⟩
  · rw [hserve]
    exact ⟨rfl, rfl, rfl⟩
  · rw [hserve]
    exact ⟨rfl, rfl, rfl⟩

theorem take_succ_of_drop {α : Type} {as as' : List α} {a : α} {n : ℕ} (h : as.drop n = a :: as') :
    as.take (n + 1) = as.take n ++ [a] ∧ as.drop (n + 1) = as' := by
  have hlt : n < as.length := by
    by_contra hge
    rw [List.drop_eq_nil_iff.2 (not_lt.1 hge)] at h
    cases h
  rw [List.drop_eq_getElem_cons hlt] at h
  obtain ⟨rfl, hrest⟩ := List.cons.inj h
  exact ⟨List.take_succ_eq_append_getElem hlt, hrest⟩

theorem mem_of_unread {r : Watchers.Request} {rest : List Watchers.Request} (h : s.unread = r :: rest) :
    r ∈ s.client.requests := by
  have hmem : r ∈ s.unread := by
    rw [h]
    exact List.mem_cons_self
  exact List.mem_of_mem_drop hmem

/-- without a get the server reads none -/
theorem serveWatch_nil {ok : Bool} (h : s.unread = []) : s.serveWatch ok = s := by
  have hget : s.client.requests[s.answered]? = none := by
    rw [List.getElem?_eq_none_iff]
    exact List.drop_eq_nil_iff.1 h
  simp only [System.serveWatch, hget]

/-- the get is the first of those that it has not read -/
theorem serveWatch_eq {r : Watchers.Request} {rest : List Watchers.Request} (hunread : s.unread = r :: rest)
    (htopic : r.topic = .children path) (ok : Bool) : s.serveWatch ok = { s with
      wire := s.wire ++ [.watch path (s.read path ok)]
      armed := if (s.read path ok).rc = ZOK then insert path s.armed else s.armed } := by
  have hget : s.client.requests[s.answered]? = some r := by
    have hhead : s.unread[0]? = some r := by
      rw [hunread]
      rfl
    rwa [System.unread, List.getElem?_drop, Nat.add_zero] at hhead
  obtain ⟨topic, callback, event⟩ := r
  obtain rfl : topic = .children path := htopic
  simp only [System.serveWatch, hget]
  split_ifs
  · rfl
  · rfl

theorem serveWatch_unread {r : Watchers.Request} {rest : List Watchers.Request} (hunread : s.unread = r :: rest)
    (htopic : r.topic = .children path) (ok : Bool) :
    (s.serveWatch ok).answered = s.answered + 1 ∧ (s.serveWatch ok).unread = rest := by
  have hanswered : (s.serveWatch ok).answered = s.answered + 1 := by
    rw [serveWatch_eq hunread htopic ok, System.answered, List.filterMap_append, List.length_append]
    rfl
  refine ⟨hanswered, ?_⟩
  rw [System.unread, hanswered, serveWatch_eq hunread htopic ok]
  exact (take_succ_of_drop hunread).2

/-- what the server has, and the members of the client beside the list -/
structure Same (s t : System) : Prop where
  children : t.children = s.children
  armed : t.armed = s.armed
  watched : t.watched = s.watched
  serviceName : t.serviceName = s.serviceName
  serviceWatcher : t.serviceWatcher = s.serviceWatcher

theorem Same.refl (s : System) : Same s s := ⟨rfl, rfl, rfl, rfl, rfl⟩

theorem Same.trans {t u : System} (h : Same s t) (h' : Same t u) : Same s u :=
  ⟨h'.children.trans h.children, h'.armed.trans h.armed, h'.watched.trans h.watched,
    h'.serviceName.trans h.serviceName, h'.serviceWatcher.trans h.serviceWatcher⟩

theorem tell_frame (s : System) (children : List String) : Same s (s.tell children) ∧
    (s.tell children).wire = s.wire ∧ (s.tell children).asked = s.asked ∧ (s.tell children).results = s.results ∧
      (s.tell children).client = s.client := by
  unfold System.tell
  split
  · exact ⟨.refl s, rfl, rfl, rfl, rfl⟩
  · exact ⟨⟨rfl, rfl, rfl, rfl, rfl⟩, rfl, rfl, rfl, rfl⟩
  · exact ⟨⟨rfl, rfl, rfl, rfl, rfl⟩, rfl, rfl, rfl, rfl⟩

/-- what the next message does beside the list and the gets of the watchers -/
theorem deliver_frame (s : System) (rc : ℤ) : Same s (s.deliver rc) ∧ (s.deliver rc).wire = s.wire.tail ∧
    (s.deliver rc).asked = s.asked ∧
      (s.deliver rc).results = s.results ++ (s.wire.head?.bind Message.result).toList := by
  cases hwire : s.wire with
  | nil =>
    have hdeliver : s.deliver rc = s := by simp only [System.deliver, hwire]
    rw [hdeliver]
    exact ⟨.refl s, hwire, rfl, (List.append_nil _).symm⟩
  | cons m rest =>
    cases m with
    | event path =>
      have hdeliver : s.deliver rc = { s with
          wire := rest, client := s.client.globalWatcher .child (some path) rc } := by
        simp only [System.deliver, hwire]
      rw [hdeliver]
      exact ⟨⟨rfl, rfl, rfl, rfl, rfl⟩, rfl, rfl, (List.append_nil _).symm⟩
    | asked a r =>
      have hdeliver : s.deliver rc = { s with wire := rest, results := s.results ++ [(a, r)] } := by
        simp only [System.deliver, hwire]
      rw [hdeliver]
      exact ⟨⟨rfl, rfl, rfl, rfl, rfl⟩, rfl, rfl, rfl⟩
    | watch path r =>
      simp only [System.deliver, hwire]
      split_ifs
      · obtain ⟨hsame, hw, hasked, hresults, -⟩ := tell_frame
          { s with wire := rest, client := s.client.answer 0 r.rc r.strings rc } r.strings
        exact ⟨⟨hsame.children, hsame.armed, hsame.watched, hsame.serviceName, hsame.serviceWatcher⟩, hw, hasked,
          hresults.trans (List.append_nil _).symm⟩
      · exact ⟨⟨rfl, rfl, rfl, rfl, rfl⟩, rfl, rfl, (List.append_nil _).symm⟩

theorem asks_deliver {rc : ℤ} {a : Ask} (ha : Asks (s.deliver rc) a) : Asks s a := by
  obtain ⟨-, hwire, hasked, hresults⟩ := deliver_frame s rc
  unfold Asks at ha
  rw [hwire, hasked, hresults] at ha
  rcases ha with ha | ⟨r, hr⟩ | ⟨r, hr⟩
  · exact .inl ha
  · exact .inr (.inl ⟨r, List.mem_of_mem_tail hr⟩)
  · rcases List.mem_append.1 hr with hr | hr
    · exact .inr (.inr ⟨r, hr⟩)
    · cases hhead : s.wire with
      | nil =>
        rw [hhead] at hr
        cases hr
      | cons m rest =>
        rw [hhead] at hr
        cases m with
        | asked b r' =>
          obtain ⟨rfl, rfl⟩ := Prod.mk.inj (List.mem_singleton.1 hr)
          exact .inr (.inl ⟨r, by rw [hhead]; exact List.mem_cons_self⟩)
        | event path => cases hr
        | watch path r' => cases hr

/-- what becomes of the coroutine of an answered getChildren -/
theorem resume_cases (s : System) (i : ℕ) : (s.results[i]? = none ∧ s.resume i = s) ∨
    ∃ a r, s.results[i]? = some (a, r) ∧ ((∃ instances, listOf a r = some instances ∧
        s.resume i = { s with results := s.results.eraseIdx i, instances := instances }) ∨
      (listOf a r = none ∧ (a.watch = true ∧ r.rc = ZNONODE) ∧
        s.resume i = { s with results := s.results.eraseIdx i, asked := s.asked ++ [a] }) ∨
      listOf a r = none ∧ s.resume i = { s with results := s.results.eraseIdx i }) := by
  unfold System.resume
  split
  · next hnone => exact .inl ⟨hnone, rfl⟩
  · next a r hi =>
    refine .inr ⟨a, r, hi, ?_⟩
    cases hlist : listOf a r with
    | some instances => exact .inl ⟨instances, rfl, rfl⟩
    | none =>
      dsimp only
      split_ifs with hnone
      · exact .inr (.inl ⟨rfl, hnone, rfl⟩)
      · exact .inr (.inr ⟨rfl, rfl⟩)

theorem resume_frame (s : System) (i : ℕ) : Same s (s.resume i) ∧ (s.resume i).wire = s.wire ∧
    (s.resume i).client = s.client ∧ (s.resume i).results = s.results.eraseIdx i := by
  rcases resume_cases s i with ⟨hnone, hresume⟩ | ⟨a, r, -, ⟨_, -, hresume⟩ | ⟨-, -, hresume⟩ | ⟨-, hresume⟩⟩
  · rw [hresume, List.eraseIdx_of_length_le (List.getElem?_eq_none_iff.1 hnone)]
    exact ⟨.refl s, rfl, rfl, rfl⟩
  · rw [hresume]
    exact ⟨⟨rfl, rfl, rfl, rfl, rfl⟩, rfl, rfl, rfl⟩
  · rw [hresume]
    exact ⟨⟨rfl, rfl, rfl, rfl, rfl⟩, rfl, rfl, rfl⟩
  · rw [hresume]
    exact ⟨⟨rfl, rfl, rfl, rfl, rfl⟩, rfl, rfl, rfl⟩

theorem asks_resume {i : ℕ} {a : Ask} (ha : Asks (s.resume i) a) : Asks s a := by
  have hleft : ∀ {r}, (a, r) ∈ s.results.eraseIdx i → Asks s a := fun hr => .inr (.inr ⟨_, List.mem_of_mem_eraseIdx hr⟩)
  rcases resume_cases s i with ⟨-, hresume⟩ | ⟨b, r, hi, ⟨_, -, hresume⟩ | ⟨-, -, hresume⟩ | ⟨-, hresume⟩⟩
  · rwa [hresume] at ha
  · rw [hresume] at ha
    exact ha.imp_right fun ha => ha.elim .inl fun ⟨r, hr⟩ => .inr ⟨r, List.mem_of_mem_eraseIdx hr⟩
  · rw [hresume] at ha
    rcases ha with ha | ha | ⟨r', hr'⟩
    · rcases List.mem_append.1 ha with ha | ha
      · exact .inl ha
      · obtain rfl := List.mem_singleton.1 ha
        exact .inr (.inr ⟨r, List.mem_of_getElem? hi⟩)
    · exact .inr (.inl ha)
    · exact hleft hr'
  · rw [hresume] at ha
    exact ha.imp_right fun ha => ha.elim .inl fun ⟨r, hr⟩ => .inr ⟨r, List.mem_of_mem_eraseIdx hr⟩

/-! ## The invariant -/

structure Inv (s : System) : Prop where
  handle : s.client.handle = true
  armed : ∀ path ∈ s.armed, Watches s path
  events : ∀ path, .event path ∈ s.wire → Watches s path
  asked : ∀ a, Asks s a → a.watch = true → Watches s a.path
  requests : ∀ r ∈ s.client.requests, r.callback = some 0 ∧ ∃ path, r.topic = .children path ∧ Watches s path
  /-- the answers on the wire are those to the first gets -/
  order : (s.client.requests.take s.answered).map (·.topic) = (s.wire.filterMap Message.watchPath).map .children
  /-- no node that the client follows is lost sight of -/
  covered : ∀ path ∈ s.watched, Covered s path

theorem not_asks_start (a : Ask) : ¬ Asks start a := by
  rintro (ha | ⟨r, hr⟩ | ⟨r, hr⟩)
  · exact List.not_mem_nil ha
  · exact List.not_mem_nil hr
  · exact List.not_mem_nil hr

theorem start_inv : Inv start where
  handle := rfl
  armed := fun _ h => absurd h (Finset.notMem_empty _)
  events := fun _ h => absurd h List.not_mem_nil
  asked := fun a ha => absurd ha (not_asks_start a)
  requests := fun _ h => absurd h List.not_mem_nil
  order := rfl
  covered := fun _ h => absurd h (Finset.notMem_empty _)

theorem Inv.answered_le (h : Inv s) : s.answered ≤ s.client.requests.length := by
  have hlen := congrArg List.length h.order
  rw [List.length_map, List.length_map, List.length_take] at hlen
  exact min_eq_left_iff.1 hlen

theorem Covered.requested (h : Covered s path) (hinv : Inv s) :
    path ∈ s.armed ∨ .event path ∈ s.wire ∨ Requested s path := by
  rcases h with harmed | hevent | ⟨r, hr, -⟩ | ⟨r, hr, htopic⟩
  · exact .inl harmed
  · exact .inr (.inl hevent)
  · have hpath : path ∈ s.wire.filterMap Message.watchPath := List.mem_filterMap.2 ⟨_, hr, rfl⟩
    have htopic : Watchers.Topic.children path ∈ (s.client.requests.take s.answered).map (·.topic) := by
      rw [hinv.order]
      exact List.mem_map_of_mem hpath
    obtain ⟨req, hreq, htopic⟩ := List.mem_map.1 htopic
    exact .inr (.inr ⟨req, List.mem_of_mem_take hreq, htopic⟩)
  · exact .inr (.inr ⟨r, List.mem_of_mem_drop hr, htopic⟩)

/-- a message that is no answer to a watcher, at the end of the wire -/
theorem filterMap_snoc {m : Message} (hm : m.watchPath = none) :
    (s.wire ++ [m]).filterMap Message.watchPath = s.wire.filterMap Message.watchPath := by
  rw [List.filterMap_append, List.filterMap_cons_none hm, List.filterMap_nil, List.append_nil]

theorem Inv.change (h : Inv s) (path : String) (children : List String) : Inv (s.change path children) := by
  by_cases harmed : path ∈ s.armed
  · have hsame : (s.wire ++ [Message.event path]).filterMap Message.watchPath = s.wire.filterMap Message.watchPath :=
      filterMap_snoc rfl
    have hchange : s.change path children = { s with
        children := s.children.insert path children, armed := s.armed.erase path, wire := s.wire ++ [.event path] } := by
      simp only [System.change, if_pos harmed]
    have hanswered : (s.change path children).answered = s.answered := by
      rw [hchange]
      exact congrArg List.length hsame
    have hunread : (s.change path children).unread = s.unread := by
      unfold System.unread
      rw [hanswered, hchange]
    refine ⟨h.handle, fun q hq => h.armed q (Finset.mem_of_mem_erase hq), ?_, ?_, h.requests, ?_, ?_⟩
    · intro q hq
      rw [hchange] at hq
      rcases List.mem_append.1 hq with hq | hq
      · exact h.events q hq
      · rw [Message.event.inj (List.mem_singleton.1 hq)]
        exact h.armed path harmed
    · intro a ha hw
      rw [hchange] at ha
      refine h.asked a ?_ hw
      rcases ha with ha | ⟨r, hr⟩ | ha
      · exact .inl ha
      · rcases List.mem_append.1 hr with hr | hr
        · exact .inr (.inl ⟨r, hr⟩)
        · cases List.mem_singleton.1 hr
      · exact .inr (.inr ha)
    · rw [hanswered, hchange]
      exact h.order.trans (congrArg _ hsame.symm)
    · intro q hq
      unfold Covered
      rw [hunread, hchange]
      rcases h.covered q hq with hq | hevent | ⟨r, hr, hrc⟩ | hget
      · by_cases hqp : q = path
        · exact .inr (.inl (hqp ▸ List.mem_append_right _ (List.mem_singleton_self _)))
        · exact .inl (Finset.mem_erase.2 ⟨hqp, hq⟩)
      · exact .inr (.inl (List.mem_append_left _ hevent))
      · exact .inr (.inr (.inl ⟨r, List.mem_append_left _ hr, hrc⟩))
      · exact .inr (.inr (.inr hget))
  · have hchange : s.change path children = { s with children := s.children.insert path children } := by
      simp only [System.change, if_neg harmed, Finset.erase_eq_of_notMem harmed]
    rw [hchange]
    exact ⟨h.handle, h.armed, h.events, h.asked, h.requests, h.order, h.covered⟩

theorem Inv.remove (h : Inv s) (hl : path ∉ s.armed) : Inv (s.remove path) := by
  unfold System.remove
  rw [Finset.erase_eq_of_notMem hl]
  exact ⟨h.handle, h.armed, h.events, h.asked, h.requests, h.order, h.covered⟩

theorem Inv.setServiceWatcher (h : Inv s) (name : String) (callback : Option Watcher) :
    Inv (s.setServiceWatcher name callback) where
  handle := h.handle
  armed := fun q hq => watches_setServiceWatcher callback (h.armed q hq)
  events := fun q hq => watches_setServiceWatcher callback (h.events q hq)
  asked := fun a ha hw => watches_setServiceWatcher callback (h.asked a ha hw)
  requests := by
    intro r hr
    obtain ⟨hcallback, q, htopic, hq⟩ := h.requests r hr
    exact ⟨hcallback, q, htopic, watches_setServiceWatcher callback hq⟩
  order := h.order
  covered := h.covered

/-- a getChildren is sent -/
theorem Inv.ask (h : Inv s) {a : Ask} (ha : a.watch = true → Watches s a.path) :
    Inv { s with asked := s.asked ++ [a] } where
  handle := h.handle
  armed := h.armed
  events := h.events
  asked := by
    rintro b (hb | hb) hw
    · rcases List.mem_append.1 hb with hb | hb
      · exact h.asked b (.inl hb) hw
      · obtain rfl := List.mem_singleton.1 hb
        exact ha hw
    · exact h.asked b (.inr hb) hw
  requests := h.requests
  order := h.order
  covered := h.covered

theorem Inv.serve (h : Inv s) (i : ℕ) (ok : Bool) : Inv (s.serve i ok) := by
  rcases serve_cases s i ok with hserve | ⟨a, hi, hserve⟩
  · rw [hserve]
    exact h
  · have hmem : a ∈ s.asked := List.mem_of_getElem? hi
    have hsame : (s.wire ++ [Message.asked a (s.read a.path ok)]).filterMap Message.watchPath =
        s.wire.filterMap Message.watchPath := filterMap_snoc rfl
    have hanswered : (s.serve i ok).answered = s.answered := by
      rw [hserve]
      exact congrArg List.length hsame
    have hunread : (s.serve i ok).unread = s.unread := by
      unfold System.unread
      rw [hanswered, hserve]
    have horder := h.order.trans (congrArg _ hsame.symm)
    rw [← hanswered] at horder
    have hkept : ∀ q, Covered s q → Covered (s.serve i ok) q := by
      intro q hq
      unfold Covered
      rw [hunread, hserve]
      rcases hq with hq | hevent | ⟨r, hr, hrc⟩ | hget
      · left
        dsimp only
        split_ifs
        · exact Finset.mem_insert_of_mem hq
        · exact hq
      · exact .inr (.inl (List.mem_append_left _ hevent))
      · exact .inr (.inr (.inl ⟨r, List.mem_append_left _ hr, hrc⟩))
      · exact .inr (.inr (.inr hget))
    have hasked : ∀ b, Asks (s.serve i ok) b → b.watch = true → Watches s b.path := fun b hb => h.asked b (asks_serve hb)
    rw [hserve] at hkept horder hasked ⊢
    refine ⟨h.handle, ?_, ?_, hasked, h.requests, horder, ?_⟩
    · intro q hq
      dsimp only at hq
      split_ifs at hq with hfound
      · rcases Finset.mem_insert.1 hq with rfl | hq
        · exact h.asked a (.inl hmem) hfound.1
        · exact h.armed q hq
      · exact h.armed q hq
    · intro q hq
      rcases List.mem_append.1 hq with hq | hq
      · exact h.events q hq
      · cases List.mem_singleton.1 hq
    · intro q hq
      dsimp only at hq
      split_ifs at hq with hfound
      · rcases Finset.mem_insert.1 hq with rfl | hq
        · left
          dsimp only
          rw [if_pos hfound]
          exact Finset.mem_insert_self _ _
        · exact hkept q (h.covered q hq)
      · exact hkept q (h.covered q hq)

/-- the get that the server has read: the watch is there now, or the answer brings it there -/
theorem Covered.serveWatch {r : Watchers.Request} {rest : List Watchers.Request} (hunread : s.unread = r :: rest)
    (htopic : r.topic = .children path) {q : String} (h : Covered s q) (ok : Bool) : Covered (s.serveWatch ok) q := by
  unfold Covered
  rw [(serveWatch_unread hunread htopic ok).2, serveWatch_eq hunread htopic ok]
  dsimp only
  rcases h with harmed | hevent | ⟨r', hr', hrc⟩ | ⟨r', hr', ht⟩
  · left
    split_ifs
    · exact Finset.mem_insert_of_mem harmed
    · exact harmed
  · exact .inr (.inl (List.mem_append_left _ hevent))
  · exact .inr (.inr (.inl ⟨r', List.mem_append_left _ hr', hrc⟩))
  · rw [hunread] at hr'
    rcases List.mem_cons.1 hr' with rfl | hr'
    · obtain rfl : path = q := Watchers.Topic.children.inj (htopic.symm.trans ht)
      by_cases hok : (s.read path ok).rc = ZOK
      · left
        rw [if_pos hok]
        exact Finset.mem_insert_self _ _
      · exact .inr (.inr (.inl ⟨_, List.mem_append_right _ (List.mem_singleton_self _), hok⟩))
    · exact .inr (.inr (.inr ⟨r', hr', ht⟩))

theorem Inv.serveWatch (h : Inv s) (ok : Bool) : Inv (s.serveWatch ok) := by
  cases hunread : s.unread with
  | nil =>
    rw [serveWatch_nil hunread]
    exact h
  | cons r rest =>
    obtain ⟨-, path, htopic, hw⟩ := h.requests r (mem_of_unread hunread)
    have hserve := serveWatch_eq hunread htopic ok
    have hclient : (s.serveWatch ok).client = s.client := by rw [hserve]
    have hanswered := (serveWatch_unread hunread htopic ok).1
    have hpaths : (s.serveWatch ok).wire.filterMap Message.watchPath = s.wire.filterMap Message.watchPath ++ [path] := by
      rw [hserve]
      exact List.filterMap_append
    have hwatches : ∀ {q}, Watches s q → Watches (s.serveWatch ok) q := fun hq => by rwa [Watches, hclient]
    refine ⟨by rw [hclient]; exact h.handle, ?_, ?_, fun a ha hwatch => hwatches (h.asked a (asks_serveWatch ha) hwatch), ?_,
      ?_, ?_⟩
    · intro q hq
      rw [hserve] at hq
      dsimp only at hq
      split_ifs at hq
      · rcases Finset.mem_insert.1 hq with rfl | hq
        · exact hwatches hw
        · exact hwatches (h.armed q hq)
      · exact hwatches (h.armed q hq)
    · intro q hq
      rw [hserve] at hq
      rcases List.mem_append.1 hq with hq | hq
      · exact hwatches (h.events q hq)
      · cases List.mem_singleton.1 hq
    · rw [hclient]
      intro r' hr'
      obtain ⟨hcallback, q, ht, hq⟩ := h.requests r' hr'
      exact ⟨hcallback, q, ht, hwatches hq⟩
    · rw [hanswered, hpaths, hclient, (take_succ_of_drop hunread).1, List.map_append, List.map_append, h.order,
        List.map_singleton, List.map_singleton, htopic]
    · intro q hq
      rw [(serveWatch_frame s ok).2.1] at hq
      exact (h.covered q hq).serveWatch hunread htopic ok

/-! ## What the client does with a message -/

/-- the get of processWatcher is sent -/
theorem globalWatcher_child (h : Inv s) (hw : Watches s path) : s.client.globalWatcher .child (some path) ZOK =
    { s.client with
      delivered := s.client.delivered ++ [.children path]
      requests := s.client.requests ++ [⟨.children path, some 0, true⟩] } := by
  have hlookup : s.client.childrenWatchers.lookup path = some (some 0) := hw
  simp [Watchers.Client.globalWatcher, Watchers.Client.processWatcher, Watchers.EventType.topic,
    Watchers.Client.watcher, Watchers.Client.get, hlookup, h.handle]

theorem answer_frame {c : Watchers.Client} {r : Watchers.Request} {i : ℕ} (hi : c.requests[i]? = some r) (rc : ℤ)
    (strings : List String) (ret : ℤ) : (c.answer i rc strings ret).childrenWatchers = c.childrenWatchers ∧
      (c.answer i rc strings ret).handle = c.handle ∧ (c.answer i rc strings ret).requests =
        c.requests.eraseIdx i ++ if c.handle ∧ ret = ZOK then [{ r with event := false }] else [] := by
  have hnotify : (Watchers.Client.notify r rc strings { c with requests := c.requests.eraseIdx i }).childrenWatchers =
      c.childrenWatchers := by
    unfold Watchers.Client.notify
    split
    · split_ifs <;> rfl
    · rfl
  obtain ⟨hrequests, -, hhandle⟩ := Watchers.notify_frame r rc strings { c with requests := c.requests.eraseIdx i }
  simp only [Watchers.Client.answer, hi, Watchers.Client.watchCompletion, Watchers.Client.get, hhandle, hrequests]
  split_ifs
  · exact ⟨hnotify, rfl, rfl⟩
  · exact ⟨hnotify, hhandle, by simp [hrequests]⟩

/-- the answer to a watcher's get: it is the first of the gets that ends, and if the library takes the next one, this is
for the same node -/
theorem deliver_watch (h : Inv s) {r : Answer} {rest : List Message} (hwire : s.wire = .watch path r :: rest) (rc : ℤ) :
    ∃ (req again : Watchers.Request) (tail : List Watchers.Request) (c : Watchers.Client),
      s.client.requests = req :: tail ∧ req.topic = .children path ∧ again.topic = .children path ∧
        again.callback = some 0 ∧ c.childrenWatchers = s.client.childrenWatchers ∧ c.handle = true ∧
        c.requests = tail ++ (if rc = ZOK then [again] else []) ∧
        s.deliver rc = if r.rc = ZOK then System.tell r.strings { s with wire := rest, client := c }
          else { s with wire := rest, client := c } := by
  have hpaths : s.wire.filterMap Message.watchPath = path :: rest.filterMap Message.watchPath := by
    rw [hwire]
    rfl
  have horder := h.order
  rw [System.answered, hpaths, List.length_cons, List.map_cons] at horder
  cases hrequests : s.client.requests with
  | nil =>
    rw [hrequests] at horder
    cases horder
  | cons req tail =>
    rw [hrequests, List.take_succ_cons, List.map_cons] at horder
    obtain ⟨htopic, -⟩ := List.cons.inj horder
    obtain ⟨hcallback, -⟩ := h.requests req (hrequests ▸ List.mem_cons_self)
    obtain ⟨hwatchers, hhandle, hreqs⟩ := answer_frame (c := s.client) (i := 0) (r := req) (by rw [hrequests]; rfl)
      r.rc r.strings rc
    refine ⟨req, { req with event := false }, tail, _, rfl, htopic, htopic, hcallback, hwatchers, hhandle.trans h.handle,
      ?_, ?_⟩
    · rw [hreqs, hrequests]
      simp only [List.eraseIdx_cons_zero, h.handle, true_and]
    · have hsome : (s.client.requests[0]?.bind (·.callback)).isSome = true := by
        rw [hrequests]
        simp [hcallback]
      simp only [System.deliver, hwire, hsome, and_true]

/-- what goes on in the client alone -/
theorem Inv.of_same (h : Inv s) {t : System} (hsame : Same s t) (hwire : t.wire = s.wire) (hclient : t.client = s.client)
    (hasks : ∀ a, Asks t a → Asks s a) : Inv t := by
  have hwatches : ∀ {path}, Watches s path → Watches t path := fun hw => by rwa [Watches, hclient]
  have hanswered : t.answered = s.answered := by rw [System.answered, hwire, System.answered]
  refine ⟨by rw [hclient]; exact h.handle, ?_, ?_, fun a ha hw => hwatches (h.asked a (hasks a ha) hw), ?_, ?_, ?_⟩
  · rw [hsame.armed]
    exact fun path hpath => hwatches (h.armed path hpath)
  · rw [hwire]
    exact fun path hpath => hwatches (h.events path hpath)
  · rw [hclient]
    intro r hr
    obtain ⟨hcallback, path, htopic, hw⟩ := h.requests r hr
    exact ⟨hcallback, path, htopic, hwatches hw⟩
  · rw [hanswered, hclient, hwire]
    exact h.order
  · rw [hsame.watched]
    unfold Covered System.unread
    rw [hanswered, hclient, hwire, hsame.armed]
    exact h.covered

theorem Inv.tell (h : Inv s) (children : List String) : Inv (s.tell children) := by
  obtain ⟨hsame, hwire, hasked, hresults, hclient⟩ := tell_frame s children
  refine h.of_same hsame hwire hclient fun a ha => ?_
  unfold Asks at ha
  rwa [hwire, hasked, hresults] at ha

/-- what has brought the watch back as a message brings it back as a get -/
theorem Covered.tail {t : System} {m : Message} {rest : List Message} (h : Covered s path) (hwire : s.wire = m :: rest)
    (harmed : t.armed = s.armed) (hrest : t.wire = rest) (hunread : ∀ r ∈ s.unread, r ∈ t.unread)
    (hhead : (m = .event path ∨ ∃ r, m = .watch path r ∧ r.rc ≠ ZOK) → ∃ r ∈ t.unread, r.topic = .children path) :
    Covered t path := by
  unfold Covered
  rw [harmed, hrest]
  rcases h with h | hevent | ⟨r, hr, hrc⟩ | ⟨r, hr, htopic⟩
  · exact .inl h
  · rw [hwire] at hevent
    rcases List.mem_cons.1 hevent with heq | hevent
    · exact .inr (.inr (.inr (hhead (.inl heq.symm))))
    · exact .inr (.inl hevent)
  · rw [hwire] at hr
    rcases List.mem_cons.1 hr with heq | hr
    · exact .inr (.inr (.inr (hhead (.inr ⟨r, heq.symm, hrc⟩))))
    · exact .inr (.inr (.inl ⟨r, hr, hrc⟩))
  · exact .inr (.inr (.inr ⟨r, hunread r hr, htopic⟩))

theorem Inv.deliver_event (h : Inv s) {rest : List Message} (hwire : s.wire = .event path :: rest) :
    Inv (s.deliver ZOK) := by
  have hw : Watches s path := h.events path (by rw [hwire]; exact List.mem_cons_self)
  have hpaths : s.wire.filterMap Message.watchPath = rest.filterMap Message.watchPath := by
    rw [hwire]
    rfl
  have hdeliver : s.deliver ZOK = { s with
      wire := rest, client := s.client.globalWatcher .child (some path) ZOK } := by
    simp only [System.deliver, hwire]
  rw [globalWatcher_child h hw] at hdeliver
  have hanswered : (s.deliver ZOK).answered = s.answered := by
    rw [hdeliver, System.answered, System.answered, hpaths]
  have hle := h.answered_le
  have hunread : (s.deliver ZOK).unread = s.unread ++ [⟨.children path, some 0, true⟩] := by
    rw [System.unread, hanswered, hdeliver]
    exact List.drop_append_of_le_length hle
  have hmem : ∀ {m}, m ∈ rest → m ∈ s.wire := fun hm => by rw [hwire]; exact List.mem_cons_of_mem _ hm
  have horder : ((s.deliver ZOK).client.requests.take s.answered).map (·.topic) =
      ((s.deliver ZOK).wire.filterMap Message.watchPath).map .children := by
    rw [hdeliver]
    dsimp only
    rw [List.take_append_of_le_length hle, h.order, hpaths]
  have hcovered : ∀ q ∈ s.watched, Covered (s.deliver ZOK) q := by
    intro q hq
    refine (h.covered q hq).tail hwire (by rw [hdeliver]) (by rw [hdeliver]) ?_ ?_
    · rw [hunread]
      exact fun r hr => List.mem_append_left _ hr
    · rintro (heq | ⟨r, heq, -⟩)
      · obtain rfl := Message.event.inj heq
        rw [hunread]
        exact ⟨_, List.mem_append_right _ (List.mem_singleton_self _), rfl⟩
      · cases heq
  have hasked : ∀ a, Asks (s.deliver ZOK) a → a.watch = true → Watches s a.path := fun a ha => h.asked a (asks_deliver ha)
  rw [← hanswered] at horder
  rw [hdeliver] at horder hcovered hasked ⊢
  refine ⟨h.handle, h.armed, fun q hq => h.events q (hmem hq), hasked, ?_, horder, hcovered⟩
  intro r hr
  rcases List.mem_append.1 hr with hr | hr
  · exact h.requests r hr
  · rw [List.mem_singleton.1 hr]
    exact ⟨rfl, path, rfl, hw⟩

theorem Inv.deliver_asked (h : Inv s) {a : Ask} {r : Answer} {rest : List Message} (hwire : s.wire = .asked a r :: rest)
    (rc : ℤ) : Inv (s.deliver rc) := by
  have hpaths : s.wire.filterMap Message.watchPath = rest.filterMap Message.watchPath := by
    rw [hwire]
    rfl
  have hdeliver : s.deliver rc = { s with wire := rest, results := s.results ++ [(a, r)] } := by
    simp only [System.deliver, hwire]
  have hanswered : (s.deliver rc).answered = s.answered := by
    rw [hdeliver, System.answered, System.answered, hpaths]
  have hunread : (s.deliver rc).unread = s.unread := by
    rw [System.unread, hanswered, hdeliver]
    rfl
  have hmem : ∀ {m}, m ∈ rest → m ∈ s.wire := fun hm => by rw [hwire]; exact List.mem_cons_of_mem _ hm
  have hcovered : ∀ q ∈ s.watched, Covered (s.deliver rc) q := by
    intro q hq
    refine (h.covered q hq).tail hwire (by rw [hdeliver]) (by rw [hdeliver]) (by rw [hunread]; exact fun _ hr => hr) ?_
    rintro (heq | ⟨r', heq, -⟩)
    · cases heq
    · cases heq
  have hasked : ∀ b, Asks (s.deliver rc) b → b.watch = true → Watches s b.path := fun b hb => h.asked b (asks_deliver hb)
  have horder := h.order
  rw [← hanswered, hpaths] at horder
  rw [hdeliver] at horder hcovered hasked ⊢
  exact ⟨h.handle, h.armed, fun q hq => h.events q (hmem hq), hasked, h.requests, horder, hcovered⟩

theorem Inv.deliver_watch (h : Inv s) {r : Answer} {rest : List Message} (hwire : s.wire = .watch path r :: rest) {rc : ℤ}
    (htaken : r.rc = ZOK ∨ rc = ZOK) : Inv (s.deliver rc) := by
  obtain ⟨req, again, tail, c, hrequests, htopic, hagain, hcallback, hwatchers, hhandle, hreqs, hdeliver⟩ :=
    Following.deliver_watch h hwire rc
  have hw : Watches s path := by
    obtain ⟨-, q, ht, hq⟩ := h.requests req (hrequests ▸ List.mem_cons_self)
    obtain rfl : path = q := Watchers.Topic.children.inj (htopic.symm.trans ht)
    exact hq
  have hwatches : ∀ q, Watches s q → c.childrenWatchers.lookup q = some (some 0) := by
    intro q hq
    rw [hwatchers]
    exact hq
  have hpaths : s.wire.filterMap Message.watchPath = path :: rest.filterMap Message.watchPath := by
    rw [hwire]
    rfl
  have hanswered : s.answered = (rest.filterMap Message.watchPath).length + 1 := by
    rw [System.answered, hpaths, List.length_cons]
  have hle : (rest.filterMap Message.watchPath).length ≤ tail.length := by
    have hle := h.answered_le
    rw [hanswered, hrequests, List.length_cons] at hle
    exact Nat.le_of_succ_le_succ hle
  have hunread : c.requests.drop (rest.filterMap Message.watchPath).length =
      s.unread ++ if rc = ZOK then [again] else [] := by
    rw [System.unread, hanswered, hreqs, hrequests, List.drop_succ_cons]
    exact List.drop_append_of_le_length hle
  have horder : (c.requests.take (rest.filterMap Message.watchPath).length).map (·.topic) =
      (rest.filterMap Message.watchPath).map .children := by
    have horder := h.order
    rw [hanswered, hrequests, hpaths, List.take_succ_cons, List.map_cons, List.map_cons] at horder
    rw [hreqs, List.take_append_of_le_length hle]
    exact (List.cons.inj horder).2
  have hmem : ∀ {m}, m ∈ rest → m ∈ s.wire := fun hm => by rw [hwire]; exact List.mem_cons_of_mem _ hm
  have hnext : Inv { s with wire := rest, client := c } := by
    refine ⟨hhandle, fun q hq => hwatches q (h.armed q hq), fun q hq => hwatches q (h.events q (hmem hq)), ?_, ?_, horder,
      ?_⟩
    · rintro a (ha | ⟨r', hr'⟩ | ha) hwatch
      · exact hwatches _ (h.asked a (.inl ha) hwatch)
      · exact hwatches _ (h.asked a (.inr (.inl ⟨r', hmem hr'⟩)) hwatch)
      · exact hwatches _ (h.asked a (.inr (.inr ha)) hwatch)
    · intro r' hr'
      change r' ∈ c.requests at hr'
      rw [hreqs] at hr'
      rcases List.mem_append.1 hr' with hr' | hr'
      · obtain ⟨hc, q, ht, hq⟩ := h.requests r' (hrequests ▸ List.mem_cons_of_mem _ hr')
        exact ⟨hc, q, ht, hwatches q hq⟩
      · split_ifs at hr'
        · rw [List.mem_singleton.1 hr']
          exact ⟨hcallback, path, hagain, hwatches path hw⟩
        · cases hr'
    · intro q hq
      have hbehind : System.unread { s with wire := rest, client := c } = s.unread ++ if rc = ZOK then [again] else [] :=
        hunread
      refine (h.covered q hq).tail hwire rfl rfl ?_ ?_
      · rw [hbehind]
        exact fun x hx => List.mem_append_left _ hx
      · -- the get that has failed is made again
        rintro (heq | ⟨r', heq, hrc⟩)
        · cases heq
        · obtain ⟨rfl, rfl⟩ := Message.watch.inj heq
          rw [hbehind, if_pos (htaken.resolve_left hrc)]
          exact ⟨again, List.mem_append_right _ (List.mem_singleton_self _), hagain⟩
  rw [hdeliver]
  split_ifs
  · exact hnext.tell _
  · exact hnext

theorem Inv.deliver (h : Inv s) {rc : ℤ} (hl : Reliable s (.deliver rc)) : Inv (s.deliver rc) := by
  cases hwire : s.wire with
  | nil =>
    simp only [System.deliver, hwire]
    exact h
  | cons m rest =>
    have htaken : m.Taken rc := hl m (by rw [hwire]; rfl)
    cases m with
    | event path =>
      obtain rfl : rc = ZOK := htaken
      exact h.deliver_event hwire
    | asked a r => exact h.deliver_asked hwire rc
    | watch path r => exact h.deliver_watch hwire htaken

theorem Inv.resume (h : Inv s) (i : ℕ) : Inv (s.resume i) := by
  obtain ⟨hsame, hwire, hclient, -⟩ := resume_frame s i
  exact h.of_same hsame hwire hclient fun a => asks_resume

/-- **One step** -/
theorem Inv.step (h : Inv s) (hl : Reliable s l) : Inv (step s l) := by
  cases l with
  | change path children => exact h.change path children
  | remove path => exact h.remove hl
  | setServiceWatcher serviceName callback => exact h.setServiceWatcher serviceName _
  | getInstances serviceName => exact h.ask (by simp)
  | connectWithDiscovery serviceName =>
    have hask := (h.setServiceWatcher serviceName (some .client)).ask (a := ⟨servicePath serviceName, true⟩)
      fun _ => watches_self _
    exact ⟨hask.handle, hask.armed, hask.events, hask.asked, hask.requests, hask.order, hask.covered⟩
  | serve i ok => exact h.serve i ok
  | serveWatch ok => exact h.serveWatch ok
  | deliver rc => exact h.deliver hl
  | resume i => exact h.resume i

theorem run_inv {ls : List Label} (hls : Machine.Along step Reliable start ls) : Inv (Machine.run step start ls) :=
  Machine.inv_run (fun _ _ hl h => Inv.step h hl) hls start_inv

end Following

end MCoroRpc
