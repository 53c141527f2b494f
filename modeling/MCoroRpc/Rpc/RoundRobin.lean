/-
The choice of an instance by ServiceDiscovery::discover (src/rpc_provider.cc).

discover takes the instance at `roundRobin.fetch_add(1) % instances.size()`. `roundRobin` is a static variable: one counter
for all services, where a RoundRobinLoadBalancer has one of its own.

- `State`: the counter, and what has been returned so far. A run is a list of calls, in the order of their fetch_add.
- `Evenly`: two instances of one service have been returned equally often, up to one.
- `Apart`: of the calls for a service with `m` instances, taken in rounds of `m`, no two of a round are a multiple of `m`
  calls of all services apart.
- `discover_evenly_iff`: the load is even at every time of a run exactly if the calls of each round are apart.
- `apart_of_alone`: the calls for one service alone are.
-/
import MCoroRpc.Core.Balance
import MCoroRpc.Core.Machine
import MCoroRpc.Rpc.ServiceDiscovery

namespace MCoroRpc

namespace RoundRobin

open Balance (Rounds)
open ServiceDiscovery (getInstances)

/-! ## Model -/

/-- discover: the string that it returns, the place of this in the list of instances if there is one, and `roundRobin` -/
def discover (connected : Bool) (getChildren : String → ZkResult) (serviceName : String) (roundRobin : ℕ) :
    String × Option ℕ × ℕ :=
  if !connected then ("", none, roundRobin)
  else
    let instances := getInstances connected getChildren serviceName
    if instances = [] then ("", none, roundRobin)
    else
      let index := roundRobin % instances.length
      (instances.getD index "", some index, (roundRobin + 1) % 18446744073709551616)

/-- what a call for the service has returned -/
structure Returned where
  service : String
  address : String
  index : Option ℕ
deriving DecidableEq, Repr

structure State where
  roundRobin : ℕ
  returned : List Returned
deriving DecidableEq, Repr

def init : State := ⟨0, []⟩

variable (getChildren : String → ZkResult)

def step (st : State) (service : String) : State :=
  let r := discover true getChildren service st.roundRobin
  ⟨r.2.2, st.returned ++ [⟨service, r.1, r.2.1⟩]⟩

/-- behind calls for these services -/
def run (calls : List String) : State := Machine.run (step getChildren) init calls

/-- how many instances a service has -/
def size (service : String) : ℕ := (getInstances true getChildren service).length

/-- how often instance `i` of the service has been returned -/
def timesReturned (service : String) (i : ℕ) (st : State) : ℕ :=
  st.returned.countP fun r => r.service = service ∧ r.index = some i

/-- two instances of one service have been returned equally often, up to one -/
def Evenly (st : State) : Prop :=
  ∀ service i j, i < size getChildren service → j < size getChildren service →
    timesReturned service i st ≤ timesReturned service j st + 1

/-- two calls of one round of a service are not a multiple of its number of instances apart -/
def Apart (calls : List String) : Prop :=
  ∀ service p q, p < q → calls[p]? = some service → calls[q]? = some service →
    (calls.take p).count service / size getChildren service = (calls.take q).count service / size getChildren service →
    ¬ size getChildren service ∣ q - p

/-! ## The instances that a service has been given -/

/-- the places that the calls for the service have returned, in order -/
def indices (service : String) (st : State) : List ℕ :=
  st.returned.filterMap fun r => if r.service = service then r.index else none

theorem count_indices (service : String) (i : ℕ) (st : State) :
    (indices service st).count i = timesReturned service i st := by
  unfold indices timesReturned
  induction st.returned with
  | nil => rfl
  | cons r rest ih =>
    by_cases hs : r.service = service
    · cases hi : r.index with
      | none => simp [hs, hi, ih]
      | some j => simp [hs, hi, ih, List.count_cons, List.countP_cons]
    · simp [hs, ih]

variable {getChildren} {calls : List String} {service : String}

theorem run_snoc (calls : List String) (service : String) :
    run getChildren (calls ++ [service]) = step getChildren (run getChildren calls) service :=
  List.foldl_append

theorem run_roundRobin (hlen : calls.length < 18446744073709551616) (hne : ∀ s ∈ calls, getInstances true getChildren s ≠ []) :
    (run getChildren calls).roundRobin = calls.length := by
  induction calls using List.reverseRecOn with
  | nil => rfl
  | append_singleton calls s ih =>
    rw [List.length_append, List.length_singleton] at hlen ⊢
    have ih := ih (by omega) fun s' hs' => hne s' (List.mem_append_left _ hs')
    have hs := hne s (List.mem_append_right _ (List.mem_singleton_self s))
    rw [run_snoc]
    simp only [step, discover, Bool.not_true, Bool.false_eq_true, if_false, hs, ih]
    omega

/-- a call for the service takes the instance that the number of all calls before it points at -/
theorem indices_snoc {s : String} (hlen : (calls ++ [s]).length < 18446744073709551616)
    (hne : ∀ s' ∈ calls ++ [s], getInstances true getChildren s' ≠ []) (service : String) :
    indices service (run getChildren (calls ++ [s])) = indices service (run getChildren calls) ++
      if s = service then [calls.length % size getChildren service] else [] := by
  rw [List.length_append, List.length_singleton] at hlen
  have hcounter : (run getChildren calls).roundRobin = calls.length :=
    run_roundRobin (by omega) fun s' hs' => hne s' (List.mem_append_left _ hs')
  have hs := hne s (List.mem_append_right _ (List.mem_singleton_self s))
  rw [run_snoc]
  simp only [indices, step, discover, Bool.not_true, Bool.false_eq_true, if_false, hs, hcounter, List.filterMap_append]
  congr 1
  by_cases h : s = service
  · simp [h, size]
  · simp [h]

theorem indices_length (hlen : calls.length < 18446744073709551616)
    (hne : ∀ s ∈ calls, getInstances true getChildren s ≠ []) (service : String) :
    (indices service (run getChildren calls)).length = calls.count service := by
  induction calls using List.reverseRecOn with
  | nil => rfl
  | append_singleton calls s ih =>
    have hlen' : calls.length < 18446744073709551616 := by
      rw [List.length_append] at hlen
      omega
    rw [indices_snoc hlen hne, List.length_append, ih hlen' fun s' hs' => hne s' (List.mem_append_left _ hs'),
      List.count_append]
    by_cases h : s = service <;> simp [h]

theorem returned_prefix (calls more : List String) :
    (run getChildren calls).returned <+: (run getChildren (calls ++ more)).returned := by
  induction more using List.reverseRecOn with
  | nil => rw [List.append_nil]
  | append_singleton more s ih =>
    rw [← List.append_assoc, run_snoc]
    exact ih.trans (List.prefix_append _ _)

/-- what the service had been given behind the first calls -/
theorem indices_take (hlen : calls.length < 18446744073709551616)
    (hne : ∀ s ∈ calls, getInstances true getChildren s ≠ []) (service : String) (n : ℕ) :
    indices service (run getChildren (calls.take n)) =
      (indices service (run getChildren calls)).take ((calls.take n).count service) := by
  have hprefix : indices service (run getChildren (calls.take n)) <+: indices service (run getChildren calls) := by
    have h : (run getChildren (calls.take n)).returned <+: (run getChildren (calls.take n ++ calls.drop n)).returned :=
      returned_prefix _ _
    rw [List.take_append_drop] at h
    exact h.filterMap _
  have hlen' : (calls.take n).length < 18446744073709551616 := (List.length_take_le' n calls).trans_lt hlen
  rw [← indices_length hlen' (fun s hs => hne s (List.mem_of_mem_take hs)) service]
  exact List.prefix_iff_eq_take.1 hprefix

/-- the place that a call at `p` gets -/
theorem indices_getElem? (hlen : calls.length < 18446744073709551616)
    (hne : ∀ s ∈ calls, getInstances true getChildren s ≠ []) {p : ℕ} (hp : calls[p]? = some service) :
    (indices service (run getChildren calls))[(calls.take p).count service]? =
      some (p % size getChildren service) := by
  have hlt : p < calls.length := (List.getElem?_eq_some_iff.1 hp).1
  have htake : calls.take (p + 1) = calls.take p ++ [service] := by
    rw [List.take_add_one, hp]
    rfl
  have hlen' : (calls.take p ++ [service]).length < 18446744073709551616 := by
    rw [← htake]
    exact (List.length_take_le' _ _).trans_lt hlen
  have hne' : ∀ s ∈ calls.take p ++ [service], getInstances true getChildren s ≠ [] := by
    rw [← htake]
    exact fun s hs => hne s (List.mem_of_mem_take hs)
  have hsnoc := indices_snoc hlen' hne' service
  have hcount : (indices service (run getChildren (calls.take p))).length = (calls.take p).count service :=
    indices_length ((List.length_take_le' _ _).trans_lt hlen) (fun s hs => hne s (List.mem_of_mem_take hs)) service
  rw [← htake, indices_take hlen hne, if_pos rfl, List.length_take, Nat.min_eq_left hlt.le] at hsnoc
  have hget := congrArg (·[(calls.take p).count service]?) hsnoc
  simp only [← hcount, List.getElem?_concat_length] at hget
  rw [hcount, List.getElem?_take_of_lt (by rw [Balance.count_take_succ hp]; omega)] at hget
  exact hget

/-- each count up to the last is met on the way -/
theorem exists_call {k : ℕ} (hk : k < calls.count service) :
    ∃ p, calls[p]? = some service ∧ (calls.take p).count service = k := by
  induction calls using List.reverseRecOn with
  | nil => simp at hk
  | append_singleton calls s ih =>
    rcases Nat.lt_or_ge k (calls.count service) with hlt | hge
    · obtain ⟨p, hp, hcount⟩ := ih hlt
      have hpl : p < calls.length := (List.getElem?_eq_some_iff.1 hp).1
      exact ⟨p, by rw [List.getElem?_append_left hpl, hp], by rw [List.take_append_of_le_length hpl.le, hcount]⟩
    · rw [List.count_append] at hk
      obtain rfl : s = service := by
        by_contra hs
        rw [List.count_singleton, if_neg (by simpa using hs)] at hk
        omega
      rw [List.count_singleton_self] at hk
      refine ⟨calls.length, List.getElem?_concat_length, ?_⟩
      rw [List.take_left]
      omega

/-! ## Rounds -/

theorem rounds_iff_apart (hlen : calls.length < 18446744073709551616)
    (hne : ∀ s ∈ calls, getInstances true getChildren s ≠ []) :
    (∀ service, Rounds (size getChildren service) (indices service (run getChildren calls))) ↔
      Apart getChildren calls := by
  constructor
  · intro h service p q hpq hp hq hround hdvd
    have hlt : (calls.take p).count service < (calls.take q).count service := by
      have hle : (calls.take (p + 1)).count service ≤ (calls.take q).count service := Balance.count_take_le hpq service
      rw [Balance.count_take_succ hp] at hle
      omega
    have hin : (calls.take q).count service < (indices service (run getChildren calls)).length :=
      (List.getElem?_eq_some_iff.1 (indices_getElem? hlen hne hq)).1
    apply h service _ _ hlt hin hround
    rw [indices_getElem? hlen hne hp, indices_getElem? hlen hne hq]
    exact congrArg some ((Nat.modEq_iff_dvd' hpq.le).2 hdvd)
  · intro h service a b hab hb hround heq
    rw [indices_length hlen hne] at hb
    obtain ⟨p, hp, rfl⟩ := exists_call (hab.trans hb)
    obtain ⟨q, hq, rfl⟩ := exists_call hb
    have hpq : p < q := by
      by_contra hle
      have hcount : (calls.take q).count service ≤ (calls.take p).count service :=
        Balance.count_take_le (Nat.le_of_not_lt hle) service
      omega
    rw [indices_getElem? hlen hne hp, indices_getElem? hlen hne hq, Option.some.injEq] at heq
    exact h service p q hpq hp hq hround ((Nat.modEq_iff_dvd' hpq.le).1 heq)

/-- an instance of the service is one of its list -/
theorem indices_lt (hlen : calls.length < 18446744073709551616)
    (hne : ∀ s ∈ calls, getInstances true getChildren s ≠ []) :
    ∀ x ∈ indices service (run getChildren calls), x ∈ Finset.range (size getChildren service) := by
  intro x hx
  obtain ⟨a, ha⟩ := List.mem_iff_getElem?.1 hx
  have hlt : a < calls.count service := indices_length hlen hne service ▸ (List.getElem?_eq_some_iff.1 ha).1
  obtain ⟨p, hp, rfl⟩ := exists_call hlt
  rw [indices_getElem? hlen hne hp, Option.some.injEq] at ha
  have hpos : 0 < size getChildren service := List.length_pos_of_ne_nil (hne service (List.mem_of_getElem? hp))
  exact Finset.mem_range.2 (ha ▸ Nat.mod_lt p hpos)

/-- the load behind some calls, in terms of the places returned -/
theorem evenly_iff {st : State} : Evenly getChildren st ↔
    ∀ service, Balance.Balanced (Finset.range (size getChildren service)) (indices service st) := by
  simp only [Evenly, Balance.Balanced, Finset.mem_range, count_indices]
  exact ⟨fun h service i hi j hj => h service i j hi hj, fun h service i j hi hj => h service i hi j hj⟩

/-- **Even load**: over every interleaving of fewer than 2^64 calls for any services with constant, non-empty lists, the
load of every service is even at every time exactly if no two calls of a round of a service are a multiple of the number
of its instances apart -/
theorem discover_evenly_iff (hlen : calls.length < 18446744073709551616)
    (hne : ∀ s ∈ calls, getInstances true getChildren s ≠ []) :
    (∀ n, Evenly getChildren (run getChildren (calls.take n))) ↔ Apart getChildren calls := by
  rw [← rounds_iff_apart hlen hne]
  have hcard : ∀ service, (Finset.range (size getChildren service)).card = size getChildren service := fun service =>
    Finset.card_range _
  constructor
  · intro h service
    rw [← hcard service]
    refine (Balance.balanced_take_iff (indices_lt hlen hne)).1 fun k => ?_
    rcases Nat.lt_or_ge k (calls.count service) with hk | hk
    · obtain ⟨n, -, hn⟩ := exists_call hk
      rw [← hn, ← indices_take hlen hne]
      exact evenly_iff.1 (h n) service
    · have hall := evenly_iff.1 (h calls.length) service
      rw [List.take_length] at hall
      rwa [List.take_of_length_le (by rw [indices_length hlen hne]; exact hk)]
  · intro h n
    rw [evenly_iff]
    intro service
    rw [indices_take hlen hne]
    refine (Balance.balanced_take_iff (indices_lt hlen hne)).2 ?_ _
    rw [hcard]
    exact h service

/-! ## Two services -/

/-- two instances for every service -/
def pair (_path : String) : ZkResult := ZkClient.getChildrenCompletion ⟨ZkClient.ZOK, none, none, ["h:1", "h:2"]⟩

theorem pair_instances (service : String) : getInstances true pair service = ["h:1", "h:2"] :=
  ServiceDiscovery.instancesOf_completion (a := ⟨ZkClient.ZOK, none, none, ["h:1", "h:2"]⟩) (by decide) (by decide)

theorem pair_size (service : String) : size pair service = 2 := congrArg List.length (pair_instances service)

/-- two services that are called in turn: each gets the same instance over and over -/
theorem discover_uneven : timesReturned "a" 0 (run pair ["a", "b", "a", "b"]) = 2 ∧
    timesReturned "a" 1 (run pair ["a", "b", "a", "b"]) = 0 ∧ ¬ Evenly pair (run pair ["a", "b", "a", "b"]) := by
  have hrun : run pair ["a", "b", "a", "b"] =
      ⟨4, [⟨"a", "h:1", some 0⟩, ⟨"b", "h:2", some 1⟩, ⟨"a", "h:1", some 0⟩, ⟨"b", "h:2", some 1⟩]⟩ := by
    simp [run, init, step, discover, pair_instances]
  rw [hrun]
  refine ⟨by decide, by decide, fun h => ?_⟩
  have hab := h "a" 0 1 (by rw [pair_size]; decide) (by rw [pair_size]; decide)
  revert hab
  decide

/-- two calls for one service, and one for another -/
theorem discover_evenly_pair : Evenly pair (run pair ["a", "a", "b"]) := by
  have hapart : Apart pair ["a", "a", "b"] := by
    intro s p q hpq hp hq _ hdvd
    rw [pair_size] at hdvd
    have hlt : q < 3 := (List.getElem?_eq_some_iff.1 hq).1
    obtain ⟨rfl, rfl⟩ : p = 0 ∧ q = 2 := by omega
    obtain rfl : "a" = s := Option.some.inj hp
    exact absurd (Option.some.inj hq) (by decide)
  exact (discover_evenly_iff (by decide) fun s _ => by rw [pair_instances]; decide).2 hapart 3

/-- the calls for one service alone -/
theorem apart_of_alone (n : ℕ) (hpos : 0 < size getChildren service) :
    Apart getChildren (List.replicate n service) := by
  intro s p q hpq hp hq hround hdvd
  obtain rfl : s = service := List.eq_of_mem_replicate (List.mem_of_getElem? hp)
  have hp' : p < n := by simpa using (List.getElem?_eq_some_iff.1 hp).1
  have hq' : q < n := by simpa using (List.getElem?_eq_some_iff.1 hq).1
  rw [List.take_replicate, List.take_replicate, List.count_replicate_self, List.count_replicate_self,
    Nat.min_eq_left hp'.le, Nat.min_eq_left hq'.le] at hround
  -- `p` and `q` are in one round and so less than its length apart
  have hle := Nat.le_of_dvd (by omega) hdvd
  have hlt := Nat.lt_mul_div_succ q hpos
  have hbegin := Nat.mul_div_le p (size getChildren s)
  rw [← hround, Nat.mul_add, mul_one] at hlt
  omega

end RoundRobin

end MCoroRpc
