/-
The instances of a service, from ZooKeeper's answer to a list (getInstances in src/rpc_provider.cc, connectWithDiscovery
in src/rpc_client_impl.cc).

The children of the node of a service come through a string: getChildrenCompletion joins them with commas, and each of the
two readers splits the string again and drops what is empty. To the callback of a watcher they come as they are.

- `instancesOf_intercalate`: the readers get the children back, in their order and number, less the empty ones; a child
  with a comma is read as several.
- `instances_same`: without empty names and commas all three paths give the same list.
-/
import MCoroRpc.Core.Getline
import MCoroRpc.Rpc.Instances
import MCoroRpc.Zk.Watchers

namespace MCoroRpc

open TcpStream (Bytes)

namespace ServiceDiscovery

open ZkClient (Answer ZOK getChildrenCompletion)

/-! ## Model -/

def ZNONODE : ℤ := -101

/-- the loop over `std::getline(ss, instance, ',')` -/
def instancesOf (data : String) : List String :=
  ((Getline.getlines ',' data.toList).filter (· ≠ [])).map String.ofList

/-- `"/rpc/services/" + service_name` -/
def servicePath (serviceName : String) : String := "/rpc/services/" ++ serviceName

/-- getInstances, when getChildren gives the result `getChildren path` -/
def getInstances (connected : Bool) (getChildren : String → ZkResult) (serviceName : String) : List String :=
  if !connected then []
  else
    let result := getChildren (servicePath serviceName)
    if result.rc = ZOK then instancesOf result.data else []

/-- the bytes of a `std::string` -/
def bytes (text : String) : Bytes := text.toUTF8.toList

/-- connectWithDiscovery of an RpcClient, when its calls of getChildren give `results` one after another; as long as there
is no node it asks again -/
def connectWithDiscovery (serviceName : String) (results : List ZkResult) (c : Instances.Client) : Instances.Client :=
  let c := { c with serviceName := bytes serviceName }
  match results.find? (·.rc ≠ ZNONODE) with
  | none => c
  | some result =>
    let c := if result.rc = ZOK then Instances.updateInstances ((instancesOf result.data).map bytes) c else c
    { c with connected := !c.instances.isEmpty }

/-! ## The string form -/

/-- **The string form**: what is joined and split again is the list less its empty names -/
theorem instancesOf_intercalate {names : List String} (hcomma : ∀ name ∈ names, ',' ∉ name.toList) :
    instancesOf (String.intercalate "," names) = names.filter (· ≠ "") := by
  have hsplit : (Getline.getlines ',' ([','].intercalate (names.map String.toList))).filter (· ≠ []) =
      (names.map String.toList).filter (· ≠ []) := by
    apply Getline.filter_getlines_intercalate
    intro piece hpiece
    obtain ⟨name, hname, rfl⟩ := List.mem_map.1 hpiece
    exact hcomma name hname
  unfold instancesOf
  rw [String.toList_intercalate, show ",".toList = [','] from rfl, hsplit, List.filter_map, List.map_map]
  have hback : String.ofList ∘ String.toList = id := funext fun name => String.ofList_toList
  rw [hback, List.map_id]
  apply List.filter_congr
  intro name _
  simp only [Function.comp_apply, ne_eq, String.toList_eq_nil_iff]

/-- a list that comes back as it is -/
theorem instancesOf_completion {a : Answer} (hcomma : ∀ name ∈ a.strings, ',' ∉ name.toList)
    (hempty : ∀ name ∈ a.strings, name ≠ "") : instancesOf (getChildrenCompletion a).data = a.strings := by
  calc instancesOf (getChildrenCompletion a).data
      = a.strings.filter (· ≠ "") := instancesOf_intercalate hcomma
    _ = a.strings := List.filter_eq_self.2 fun name hname => decide_eq_true (hempty name hname)

/-! ## Three paths -/

/-- what polling comes to, once there is a node -/
theorem connectWithDiscovery_found {retries : List ZkResult} {result : ZkResult} (serviceName : String)
    (c : Instances.Client) (hretries : ∀ r ∈ retries, r.rc = ZNONODE) (hok : result.rc = ZOK) :
    connectWithDiscovery serviceName (retries ++ [result]) c =
      Instances.connectWithDiscovery (bytes serviceName) ((instancesOf result.data).map bytes) c := by
  have hnone : retries.find? (·.rc ≠ ZNONODE) = none :=
    List.find?_eq_none.2 fun r hr => by simp only [hretries r hr, ne_eq, not_true_eq_false, decide_false,
      Bool.false_eq_true, not_false_eq_true]
  have hfind : (retries ++ [result]).find? (·.rc ≠ ZNONODE) = some result := by
    have hne : decide (result.rc ≠ ZNONODE) = true := decide_eq_true (by rw [hok]; decide)
    rw [List.find?_append, hnone, Option.none_or]
    exact List.find?_cons_of_pos hne
  simp only [connectWithDiscovery, hfind, if_pos hok, Instances.connectWithDiscovery]

/-- **Instances**: for every list of children whose names are not empty and have no comma, getInstances, the list that
connectWithDiscovery sets and the call of a children watcher's callback are the same list -/
theorem instances_same {names : List String} (hempty : ∀ name ∈ names, name ≠ "")
    (hcomma : ∀ name ∈ names, ',' ∉ name.toList) (path value : Option String) :
    -- getInstances
    (∀ (getChildren : String → ZkResult) (serviceName : String),
      getChildren (servicePath serviceName) = getChildrenCompletion ⟨ZOK, path, value, names⟩ →
      getInstances true getChildren serviceName = names) ∧
    -- connectWithDiscovery, behind any number of retries
    (∀ (retries : List ZkResult) (serviceName : String) (c : Instances.Client), (∀ r ∈ retries, r.rc = ZNONODE) →
      instancesOf (getChildrenCompletion ⟨ZOK, path, value, names⟩).data = names ∧
      (connectWithDiscovery serviceName (retries ++ [getChildrenCompletion ⟨ZOK, path, value, names⟩]) c).instances =
        names.map bytes) ∧
    -- the watcher
    ∀ (r : Watchers.Request) (callback : ℕ) (ret : ℤ) (c : Watchers.Client), r.callback = some callback →
      (c.watchCompletion r ZOK names ret).invoked = c.invoked ++ [⟨r.topic, callback, names⟩] := by
  have hparse : instancesOf (getChildrenCompletion ⟨ZOK, path, value, names⟩).data = names :=
    instancesOf_completion (a := ⟨ZOK, path, value, names⟩) hcomma hempty
  refine ⟨?_, ?_, ?_⟩
  · intro getChildren serviceName hresult
    unfold getInstances
    rw [hresult]
    exact hparse
  · intro retries serviceName c hretries
    refine ⟨hparse, ?_⟩
    rw [connectWithDiscovery_found serviceName c hretries rfl, hparse]
    exact (Instances.updateInstances_effect (names.map bytes) { c with serviceName := bytes serviceName }).listed
  · intro r callback ret c hcallback
    have hnotify : (c.notify r ZOK names).invoked = c.invoked ++ [⟨r.topic, callback, names⟩] := by
      simp only [Watchers.Client.notify, hcallback, if_true]
    rw [← hnotify]
    unfold Watchers.Client.watchCompletion Watchers.Client.get
    split_ifs <;> rfl

/-- an instance that is listed twice -/
theorem instances_same_twice :
    getInstances true (fun _ => getChildrenCompletion ⟨ZOK, none, none, ["b:2", "a:1", "b:2"]⟩) "s" =
      ["b:2", "a:1", "b:2"] :=
  (@instances_same ["b:2", "a:1", "b:2"] (by decide) (by decide) none none).1 _ _ rfl

end ServiceDiscovery

end MCoroRpc
