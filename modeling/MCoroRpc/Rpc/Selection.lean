/-
The calls of one client and their targets (RpcClient::callMethodAsync and updateInstances in src/rpc_client_impl.cc,
RoundRobinLoadBalancer in include/rpc/rpc_provider.hpp).

A call chooses its target under the locks and goes on to use it; any number of calls are under way. A target on which a
call fails is marked, and updateInstances takes all marks away, those too that calls from before it make behind it.

- `step`: the client with its balancer; `ends` carries how the lookups and the attempts of a call end.
- `sequential`: a call alone is callMethodAsync of the client.
- `calls_lost_le`: in every run with at most `k` calls under way, however long, a bad instance costs at most `k` calls for
  each list that it is in, beside the `k` that are under way when the list comes, and no call is refused.
- `chosen_evenly`: while no instance is marked, any two have been chosen equally often, up to one.
-/
import Mathlib.Data.Finset.Card
import MCoroRpc.Core.Balance
import MCoroRpc.Core.Machine
import MCoroRpc.Rpc.Failover

namespace MCoroRpc

namespace Selection

open RpcClient (Script Outcome World callTarget markUnavailable)
open TcpStream (Bytes)
open Machine

/-! ## Model -/

/-- `RoundRobinLoadBalancer::select`, with the next `m_index` -/
def select (index : ℕ) (instances : List Bytes) : Bytes × ℕ :=
  if instances = [] then ([], index)
  else (instances.getD (index % instances.length) [], (index + 1) % 18446744073709551616)

structure State where
  client : RpcClient
  /-- `m_index` -/
  index : ℕ
  /-- the targets of the calls under way -/
  targets : List Bytes
  /-- all targets so far -/
  chosen : List Bytes

inductive Label where
  /-- a call reads the lists and chooses its target -/
  | start
  /-- the `i`-th of the calls under way comes to its end -/
  | ends (i : ℕ) (s : Script) (ctrl : RpcController)
  | updateInstances (instances : List Bytes)

/-- the instances that a call may choose from -/
def State.available (st : State) : List Bytes := st.client.available

def start (st : State) : State :=
  if st.client.instances = [] then st
  else if st.available = [] then st
  else
    let (targetAddr, index) := select st.index st.available
    ⟨st.client, index, st.targets ++ [targetAddr], st.chosen ++ [targetAddr]⟩

def finish (i : ℕ) (s : Script) (ctrl : RpcController) (st : State) : State :=
  match st.targets[i]? with
  | none => st
  | some targetAddr =>
    let o := callTarget st.client.maxRetries targetAddr s ctrl
    { st with
      client := if o.marked then markUnavailable targetAddr st.client else st.client
      targets := st.targets.eraseIdx i }

/-- updateInstances swaps the list and clears the marks under two locks; here it is one step -/
def step (st : State) : Label → State
  | .start => start st
  | .ends i s ctrl => finish i s ctrl st
  | .updateInstances instances => { st with client := RpcClient.updateInstances instances st.client }

/-- the label ends a call that has had a target, and the call returns false -/
def lost (st : State) : Label → ℕ
  | .ends i s ctrl =>
    match st.targets[i]? with
    | none => 0
    | some targetAddr => if (callTarget st.client.maxRetries targetAddr s ctrl).returns = .value false then 1 else 0
  | _ => 0

/-- the label is a call that gets no target -/
def refused (st : State) : Label → ℕ
  | .start => if st.available = [] then 1 else 0
  | _ => 0

/-- at most `k` calls are under way; a call on a good instance returns true, and every list has a good instance -/
def Allowed (good : Bytes → Bool) (k : ℕ) (st : State) (l : Label) : Prop :=
  st.targets.length ≤ k ∧
    match l with
    | .start => True
    | .ends i s ctrl => ∀ targetAddr, st.targets[i]? = some targetAddr → good targetAddr = true →
        (callTarget st.client.maxRetries targetAddr s ctrl).returns = .value true
    | .updateInstances instances => ∃ addr ∈ instances, good addr = true

/-- how many instances of the list are not good -/
def bad (good : Bytes → Bool) (instances : List Bytes) : ℕ := (instances.toFinset.filter fun addr => good addr = false).card

/-- the calls that a list may cost -/
def given (good : Bytes → Bool) (k : ℕ) : Label → ℕ
  | .updateInstances instances => k * (bad good instances + 1)
  | _ => 0

/-! ## Calls -/

section
variable {s : Script} {ctrl : RpcController} {conn : RpcClient.Conn} {maxRetries : ℤ} {target : Bytes}

/-- a call that returns false marks its target, and one that returns true does not -/
def MarksRight (o : Outcome) : Prop :=
  (o.returns = .value false → o.marked = true) ∧ (o.returns = .value true → o.marked = false)

theorem retryLoop_marksRight (n k : ℕ) (lookup : RpcClient.Lookup) (ctrl : RpcController) (attempts : List Attempt) :
    MarksRight (RpcClient.retryLoop s n k lookup ctrl attempts) := by
  induction n generalizing k lookup ctrl attempts with
  | zero => simp [RpcClient.retryLoop, MarksRight]
  | succ n ih =>
    cases lookup with
    | null => simp [RpcClient.retryLoop, MarksRight]
    | raised what => simp [RpcClient.retryLoop, MarksRight]
    | channel conn =>
      unfold RpcClient.retryLoop
      split
      · simp [RpcClient.caught, MarksRight]
      · split_ifs
        · exact ih _ _ _ _
        · split
          · simp [RpcClient.caught, MarksRight]
          · exact ih _ _ _ _
        · simp [MarksRight]

theorem callTarget_marksRight (maxRetries : ℤ) (target : Bytes) (s : Script) (ctrl : RpcController) :
    MarksRight (callTarget maxRetries target s ctrl) := by
  unfold callTarget
  split
  · simp [MarksRight]
  · unfold RpcClient.attemptPhase
    split
    · simp [RpcClient.caught, MarksRight]
    · split_ifs
      · exact retryLoop_marksRight _ _ _ _ _
      · simp [MarksRight]
  · split <;> simp [MarksRight]

end

section
variable {st : State} {good : Bytes → Bool} {k : ℕ} {l : Label} {ls : List Label}

theorem select_mem {instances : List Bytes} (hne : instances ≠ []) (index : ℕ) : (select index instances).1 ∈ instances := by
  have hlt : index % instances.length < instances.length := Nat.mod_lt _ (List.length_pos_iff.2 hne)
  have hget : instances.getD (index % instances.length) [] = instances[index % instances.length] :=
    (List.getElem_eq_getD []).symm
  unfold select
  rw [if_neg hne]
  change instances.getD (index % instances.length) [] ∈ instances
  rw [hget]
  exact List.getElem_mem hlt

theorem instances_ne_nil (h : st.available ≠ []) : st.client.instances ≠ [] := by
  intro hnil
  apply h
  unfold State.available RpcClient.available
  rw [hnil]
  rfl

theorem start_of_nil (h : st.available = []) : start st = st := by
  unfold start
  split_ifs <;> rfl

theorem start_of_ne (h : st.available ≠ []) : start st =
    ⟨st.client, (st.index + 1) % 18446744073709551616, st.targets ++ [(select st.index st.available).1],
      st.chosen ++ [(select st.index st.available).1]⟩ := by
  unfold start
  rw [if_neg (instances_ne_nil h), if_neg h]
  unfold select
  rw [if_neg h]

/-- a mark takes its instance out -/
theorem available_mark (addr : Bytes) (c : RpcClient) :
    (markUnavailable addr c).available = c.available.filter (· ≠ addr) := by
  unfold RpcClient.available markUnavailable
  rw [List.filter_filter]
  apply List.filter_congr
  intro a _
  simp

theorem finish_of_none {i : ℕ} (s : Script) (ctrl : RpcController) (h : st.targets[i]? = none) : finish i s ctrl st = st := by
  unfold finish
  rw [h]

theorem finish_of_some {i : ℕ} {a : Bytes} (s : Script) (ctrl : RpcController) (h : st.targets[i]? = some a) :
    finish i s ctrl st = { st with
      client := if (callTarget st.client.maxRetries a s ctrl).marked then markUnavailable a st.client else st.client
      targets := st.targets.eraseIdx i } := by
  unfold finish
  rw [h]

/-- **The end of a call**: all that it does -/
theorem finish_cases (i : ℕ) (s : Script) (ctrl : RpcController) (st : State) :
    (finish i s ctrl st = st ∧ lost st (.ends i s ctrl) = 0) ∨
      ∃ a, st.targets[i]? = some a ∧
        ((finish i s ctrl st = { st with targets := st.targets.eraseIdx i } ∧ lost st (.ends i s ctrl) = 0) ∨
          (finish i s ctrl st = { st with client := markUnavailable a st.client, targets := st.targets.eraseIdx i } ∧
            lost st (.ends i s ctrl) ≤ 1 ∧ (callTarget st.client.maxRetries a s ctrl).returns ≠ .value true)) := by
  cases hi : st.targets[i]? with
  | none => exact .inl ⟨finish_of_none s ctrl hi, by rw [lost, hi]⟩
  | some a =>
    have hright := callTarget_marksRight st.client.maxRetries a s ctrl
    have hlost : lost st (.ends i s ctrl) =
        if (callTarget st.client.maxRetries a s ctrl).returns = .value false then 1 else 0 := by rw [lost, hi]
    rw [finish_of_some s ctrl hi, hlost]
    refine .inr ⟨a, rfl, ?_⟩
    cases hm : (callTarget st.client.maxRetries a s ctrl).marked with
    | false =>
      have hreturns : (callTarget st.client.maxRetries a s ctrl).returns ≠ .value false := by
        intro hr
        rw [hright.1 hr] at hm
        cases hm
      exact .inl ⟨rfl, if_neg hreturns⟩
    | true =>
      refine .inr ⟨rfl, by split_ifs <;> omega, ?_⟩
      intro hr
      rw [hright.2 hr] at hm
      cases hm

/-- **A call alone**: behind its two labels the client is as behind a callMethodAsync -/
theorem sequential (c : RpcClient) (index : ℕ) (chosen : List Bytes) (w : World) (ctrl : RpcController) :
    (run step ⟨c, index, [], chosen⟩ [.start, .ends 0 (w.script (select index c.available).1 c.channels) ctrl]).client =
      RpcClient.step c (.call (fun instances => (select index instances).1) w (some ctrl) c.channels) := by
  by_cases hav : c.available = []
  · have hrefused : ∃ reason, RpcClient.callMethodAsync (fun instances => (select index instances).1) w (some ctrl) c =
        some ⟨.value false, ctrl.setFailed reason, false, []⟩ := by
      unfold RpcClient.callMethodAsync
      by_cases hin : c.instances = []
      · exact ⟨_, by rw [Option.map_some, if_pos hin]⟩
      · exact ⟨_, by rw [Option.map_some, if_neg hin, if_pos hav]⟩
    obtain ⟨reason, hrefused⟩ := hrefused
    have hstart : start ⟨c, index, [], chosen⟩ = ⟨c, index, [], chosen⟩ := start_of_nil hav
    rw [run_cons, run_cons, run_nil, step, step, hstart, finish_of_none _ _ rfl, RpcClient.step, hrefused]
    rfl
  · have hin : c.instances ≠ [] := @instances_ne_nil ⟨c, index, [], chosen⟩ hav
    have hcall : RpcClient.callMethodAsync (fun instances => (select index instances).1) w (some ctrl) c =
        some (callTarget c.maxRetries (select index c.available).1
          (w.script (select index c.available).1 c.channels) ctrl) := by
      unfold RpcClient.callMethodAsync
      rw [Option.map_some, if_neg hin, if_neg hav]
    have hstart : start ⟨c, index, [], chosen⟩ = ⟨c, (index + 1) % 18446744073709551616,
        [(select index c.available).1], chosen ++ [(select index c.available).1]⟩ := start_of_ne hav
    rw [run_cons, run_cons, run_nil, step, step, hstart, finish_of_some _ _ rfl, RpcClient.step, hcall]
    simp only
    split_ifs <;> rfl

/-! ## What bad instances cost -/

/-- what the instances can still cost: each bad one the calls under way, and each call under way to a marked one itself -/
def potential (good : Bytes → Bool) (k : ℕ) (st : State) : ℕ :=
  k * bad good st.available + st.targets.countP fun addr => !st.available.contains addr

theorem potential_eq (good : Bytes → Bool) (k : ℕ) (st : State) :
    potential good k st = k * bad good st.available + st.targets.countP (· ∉ st.available) := by
  unfold potential
  congr 2
  ext addr
  simp

theorem bad_filter {addr : Bytes} {instances : List Bytes} (hmem : addr ∈ instances) (hbad : good addr = false) :
    bad good (instances.filter (· ≠ addr)) + 1 = bad good instances := by
  have herase : ((instances.filter (· ≠ addr)).toFinset.filter fun a => good a = false) =
      (instances.toFinset.filter fun a => good a = false).erase addr := by
    ext a
    simp [and_comm, and_left_comm]
  have hin : addr ∈ instances.toFinset.filter fun a => good a = false := by
    rw [Finset.mem_filter, List.mem_toFinset]
    exact ⟨hmem, hbad⟩
  unfold bad
  rw [herase, Finset.card_erase_add_one hin]

/-- a call that ends with a mark -/
theorem potential_marked {i : ℕ} {a : Bytes} (hk : st.targets.length ≤ k) (hi : st.targets[i]? = some a)
    (hbad : good a = false) :
    1 + potential good k { st with client := markUnavailable a st.client, targets := st.targets.eraseIdx i } ≤
      potential good k st := by
  obtain ⟨hlt, rfl⟩ := List.getElem?_eq_some_iff.1 hi
  rw [potential_eq, potential_eq]
  change 1 + (k * bad good (markUnavailable st.targets[i] st.client).available +
    (st.targets.eraseIdx i).countP (· ∉ (markUnavailable st.targets[i] st.client).available)) ≤ _
  rw [available_mark]
  change 1 + (k * bad good (st.available.filter (· ≠ st.targets[i])) +
    (st.targets.eraseIdx i).countP (· ∉ st.available.filter (· ≠ st.targets[i]))) ≤ _
  by_cases hmem : st.targets[i] ∈ st.available
  · -- the first mark: the other calls under way may be lost as well
    have hall : (st.targets.eraseIdx i).countP (· ∉ st.available.filter (· ≠ st.targets[i])) ≤ st.targets.length - 1 := by
      rw [← List.length_eraseIdx_of_lt hlt]
      exact List.countP_le_length
    have hone := bad_filter hmem hbad
    have hmul : k * bad good st.available = k * bad good (st.available.filter (· ≠ st.targets[i])) + k := by
      rw [← hone, Nat.mul_add, Nat.mul_one]
    omega
  · -- one of those calls
    have hsame : st.available.filter (· ≠ st.targets[i]) = st.available := by
      rw [List.filter_eq_self]
      intro b hb
      exact decide_eq_true fun heq => hmem (heq ▸ hb)
    have hcount : (st.targets.eraseIdx i).countP (· ∉ st.available) + 1 = st.targets.countP (· ∉ st.available) := by
      have hperm := List.getElem_cons_eraseIdx_perm hlt
      rw [← hperm.countP_eq, List.countP_cons_of_pos (by simpa using hmem)]
    rw [hsame]
    omega

/-- a call that chooses goes to an instance without a mark -/
theorem potential_start (good : Bytes → Bool) (k : ℕ) (st : State) : potential good k (start st) = potential good k st := by
  by_cases hav : st.available = []
  · rw [start_of_nil hav]
  · have hmem := select_mem hav st.index
    have hzero : [(select st.index st.available).1].countP (· ∉ st.available) = 0 := by
      rw [List.countP_eq_zero]
      intro b hb
      rw [List.mem_singleton.1 hb]
      simpa using hmem
    rw [start_of_ne hav, potential_eq, potential_eq]
    change k * bad good st.available + (st.targets ++ [(select st.index st.available).1]).countP (· ∉ st.available) = _
    rw [List.countP_append, hzero, Nat.add_zero]

/-- a call that ends without a mark -/
theorem potential_unmarked (good : Bytes → Bool) (k i : ℕ) (st : State) :
    potential good k { st with targets := st.targets.eraseIdx i } ≤ potential good k st := by
  apply Nat.add_le_add_left
  apply List.Sublist.countP_le
  exact List.eraseIdx_sublist st.targets i

theorem available_update (st : State) (instances : List Bytes) :
    (step st (.updateInstances instances)).available = instances := by
  change instances.filter (· ∉ ([] : List Bytes)) = instances
  simp

/-- a list pays for its bad instances and for all calls under way -/
theorem potential_update (good : Bytes → Bool) (hk : st.targets.length ≤ k) (instances : List Bytes) :
    potential good k (step st (.updateInstances instances)) ≤ k * (bad good instances + 1) := by
  have hcount : st.targets.countP (· ∉ instances) ≤ k := List.countP_le_length.trans hk
  calc potential good k (step st (.updateInstances instances))
      = k * bad good instances + st.targets.countP (· ∉ instances) := by
        rw [potential_eq, available_update]
        rfl
    _ ≤ k * bad good instances + k := Nat.add_le_add_left hcount _
    _ = k * (bad good instances + 1) := (Nat.mul_succ _ _).symm

/-- **What a step costs** is paid by the potential, and by the list that comes -/
theorem lost_add_potential_le (hl : Allowed good k st l) :
    lost st l + potential good k (step st l) ≤ potential good k st + given good k l := by
  obtain ⟨hk, hl⟩ := hl
  cases l with
  | start =>
    change 0 + potential good k (start st) ≤ potential good k st + 0
    rw [potential_start]
    omega
  | ends i s ctrl =>
    change _ + potential good k (finish i s ctrl st) ≤ potential good k st + 0
    rcases finish_cases i s ctrl st with ⟨he, hlost⟩ | ⟨a, hi, ⟨he, hlost⟩ | ⟨he, hlost, hreturns⟩⟩
    · rw [he, hlost]
      omega
    · have hle := potential_unmarked good k i st
      rw [he, hlost]
      omega
    · have hbad : good a = false := Bool.eq_false_of_not_eq_true fun hgood => hreturns (hl a hi hgood)
      have hle := potential_marked hk hi hbad
      rw [he]
      omega
  | updateInstances instances =>
    have hle := potential_update good hk instances
    change 0 + potential good k (step st (.updateInstances instances)) ≤ potential good k st + k * (bad good instances + 1)
    omega

/-- a good instance that is not marked is never marked, so a call has something to choose -/
theorem good_step (hl : Allowed good k st l) (hgood : ∃ addr ∈ st.available, good addr = true) :
    (∃ addr ∈ (step st l).available, good addr = true) ∧ refused st l = 0 := by
  obtain ⟨addr, hmem, haddr⟩ := hgood
  have hne : st.available ≠ [] := List.ne_nil_of_mem hmem
  obtain ⟨-, hl⟩ := hl
  cases l with
  | start =>
    refine ⟨⟨addr, ?_, haddr⟩, if_neg hne⟩
    rw [step, start_of_ne hne]
    exact hmem
  | ends i s ctrl =>
    refine ⟨⟨addr, ?_, haddr⟩, rfl⟩
    rw [step]
    rcases finish_cases i s ctrl st with ⟨he, -⟩ | ⟨a, hi, ⟨he, -⟩ | ⟨he, -, hreturns⟩⟩
    · rw [he]
      exact hmem
    · rw [he]
      exact hmem
    · have hother : addr ≠ a := by
        intro heq
        exact hreturns (hl a hi (heq ▸ haddr))
      rw [he]
      change addr ∈ (markUnavailable a st.client).available
      rw [available_mark, List.mem_filter]
      exact ⟨hmem, decide_eq_true hother⟩
  | updateInstances instances =>
    obtain ⟨addr, hmem, haddr⟩ := hl
    refine ⟨⟨addr, ?_, haddr⟩, rfl⟩
    rw [available_update]
    exact hmem

/-- **What bad instances cost**: in a run with at most `k` calls under way, in which calls on good instances return true and
every list has a good one, no call is refused, and each list costs at most `k` calls for each of its bad instances, beside
the calls that are under way when it comes -/
theorem calls_lost_le (hs : st.targets = []) (hgood : ∃ addr ∈ st.client.available, good addr = true)
    (h : Along step (Allowed good k) st ls) :
    cost step refused st ls = 0 ∧
      cost step lost st ls ≤ k * bad good st.client.available + (ls.map (given good k)).sum := by
  have hstart : potential good k st = k * bad good st.client.available := by
    unfold potential
    rw [hs, List.countP_nil]
    rfl
  have hrefused : ∀ st l, Allowed good k st l → (∃ addr ∈ st.available, good addr = true) →
      (∃ addr ∈ (step st l).available, good addr = true) ∧ refused st l = 0 := fun _ _ hl hst => good_step hl hst
  have hlost : ∀ st l, Allowed good k st l → (∃ addr ∈ st.available, good addr = true) →
      (∃ addr ∈ (step st l).available, good addr = true) ∧
        lost st l + potential good k (step st l) ≤ potential good k st + given good k l :=
    fun _ _ hl hst => ⟨(good_step hl hst).1, lost_add_potential_le hl⟩
  refine ⟨cost_eq_zero hrefused h hgood, ?_⟩
  calc cost step lost st ls ≤ cost step lost st ls + potential good k (run step st ls) := Nat.le_add_right _ _
    _ ≤ potential good k st + (ls.map (given good k)).sum := cost_add_le hlost h hgood
    _ = k * bad good st.client.available + (ls.map (given good k)).sum := by rw [hstart]

/-- three calls that start behind one another on two instances, of which the first refuses: two of them are lost, and the
next one is not -/
theorem calls_lost_three :
    let st : State := ⟨RpcClient.twoInstances, 0, [], []⟩
    let fails : Script := ⟨fun _ => .null, fun _ => .answered⟩
    let answers : Script := RpcClient.connectedScript fun _ => .answered
    let ls : List Label := [.start, .start, .start, .ends 0 fails {}, .ends 1 fails {}, .start, .ends 0 answers {},
      .ends 0 answers {}]
    cost step lost st ls = 2 ∧ cost step refused st ls = 0 ∧
      cost step lost st ls ≤ 3 * bad (· == RpcDispatcher.ascii "10.0.0.2:80") st.client.available +
        (ls.map (given (· == RpcDispatcher.ascii "10.0.0.2:80") 3)).sum := by
  intro st fails answers ls
  have hallowed : Along step (Allowed (· == RpcDispatcher.ascii "10.0.0.2:80") 3) st ls := by
    refine ⟨⟨by decide, trivial⟩, ⟨by decide, trivial⟩, ⟨by decide, trivial⟩, ⟨by decide, ?_⟩, ⟨by decide, ?_⟩,
      ⟨by decide, trivial⟩, ⟨by decide, ?_⟩, ⟨by decide, ?_⟩, trivial⟩
    · intro a ha hgood
      cases ha
      exact absurd hgood (by decide)
    · intro a ha hgood
      cases ha
      exact absurd hgood (by decide)
    · intro a _ _
      rfl
    · intro a _ _
      rfl
  have hgood : ∃ addr ∈ st.client.available, (addr == RpcDispatcher.ascii "10.0.0.2:80") = true :=
    ⟨RpcDispatcher.ascii "10.0.0.2:80", by decide, by decide⟩
  have hle := @calls_lost_le st (· == RpcDispatcher.ascii "10.0.0.2:80") 3 ls rfl hgood hallowed
  exact ⟨by decide, hle.1, hle.2⟩

/-! ## The balancer -/

/-- nothing is marked, and no list comes -/
def Quiet (st : State) : Label → Prop
  | .start => True
  | .ends i s ctrl => ∀ targetAddr, st.targets[i]? = some targetAddr →
      (callTarget st.client.maxRetries targetAddr s ctrl).marked = false
  | .updateInstances _ => False

/-- the choices from one list, from the index `index` on -/
structure InTurn (instances : List Bytes) (index : ℕ) (st : State) : Prop where
  list : st.available = instances
  counter : index + st.chosen.length < 18446744073709551616 → st.index = index + st.chosen.length
  order : index + st.chosen.length ≤ 18446744073709551616 →
    ∀ j < st.chosen.length, st.chosen[j]? = instances[(index + j) % instances.length]?

theorem inTurn_step {instances : List Bytes} {index : ℕ} (hl : Quiet st l) (hst : InTurn instances index st) :
    InTurn instances index (step st l) := by
  cases l with
  | updateInstances instances => cases hl
  | ends i s ctrl =>
    cases hi : st.targets[i]? with
    | none =>
      rw [step, finish_of_none s ctrl hi]
      exact hst
    | some a =>
      rw [step, finish_of_some s ctrl hi, hl a hi]
      exact ⟨hst.list, hst.counter, hst.order⟩
  | start =>
    by_cases hav : st.available = []
    · rw [step, start_of_nil hav]
      exact hst
    · have hne : instances ≠ [] := hst.list ▸ hav
      rw [step, start_of_ne hav, hst.list]
      refine ⟨hst.list, ?_, ?_⟩
      · intro hlt
        simp only [List.length_append, List.length_singleton] at hlt ⊢
        rw [hst.counter (by omega)]
        omega
      · intro hle j hj
        simp only [List.length_append, List.length_singleton] at hle hj ⊢
        rcases Nat.lt_or_ge j st.chosen.length with hj' | hj'
        · rw [List.getElem?_append_left hj', hst.order (by omega) j hj']
        · obtain rfl : j = st.chosen.length := by omega
          have hlt : (index + st.chosen.length) % instances.length < instances.length :=
            Nat.mod_lt _ (List.length_pos_iff.2 hne)
          rw [List.getElem?_append_right le_rfl, Nat.sub_self, List.getElem?_cons_zero, hst.counter (by omega)]
          unfold select
          rw [if_neg hne, List.getElem?_eq_getElem hlt]
          exact congrArg some (List.getElem_eq_getD []).symm

/-- **Even choices**: as long as nothing is marked and the index does not wrap, any two instances have been chosen equally
often, up to one, however the calls interleave -/
theorem chosen_evenly (hs : st.chosen = []) (hnodup : st.client.available.Nodup) (h : Along step Quiet st ls)
    (hwrap : st.index + (run step st ls).chosen.length ≤ 18446744073709551616) :
    Balance.Balanced st.client.available.toFinset (run step st ls).chosen := by
  have hstart : InTurn st.client.available st.index st := by
    refine ⟨rfl, ?_, ?_⟩
    · intro _
      rw [hs]
      rfl
    · intro _ j hj
      rw [hs] at hj
      exact absurd hj (Nat.not_lt_zero j)
  have hturn : InTurn st.client.available st.index (run step st ls) := inv_run (fun _ _ => inTurn_step) h hstart
  have hchosen := hturn.order hwrap
  generalize (run step st ls).chosen = chosen at hchosen ⊢
  generalize st.client.available = instances at hchosen hnodup ⊢
  have hcard : instances.toFinset.card = instances.length := List.toFinset_card_of_nodup hnodup
  have hmem : ∀ a ∈ chosen, a ∈ instances.toFinset := by
    intro a ha
    obtain ⟨j, hj, rfl⟩ := List.getElem_of_mem ha
    have hget := hchosen j hj
    rw [List.getElem?_eq_getElem hj] at hget
    exact List.mem_toFinset.2 (List.mem_of_getElem? hget.symm)
  have hrounds : Balance.Rounds instances.toFinset.card chosen := by
    intro a b hab hb hround heq
    rw [hcard] at hround
    rw [hchosen a (hab.trans hb), hchosen b hb] at heq
    have hpos : 0 < instances.length := by
      rw [List.length_pos_iff]
      intro hnil
      have hget := hchosen b hb
      rw [List.getElem?_eq_getElem hb, hnil] at hget
      cases hget
    have hlt := Nat.mod_lt (st.index + a) hpos
    -- the same instance again means a multiple of the whole list between them
    have hidx : (st.index + a) % instances.length = (st.index + b) % instances.length :=
      (List.getElem?_inj hlt hnodup).1 heq
    have hdvd : instances.length ∣ b - a := by
      have hmod : a ≡ b [MOD instances.length] := Nat.ModEq.add_left_cancel' st.index hidx
      exact (Nat.modEq_iff_dvd' hab.le).1 hmod
    have hnear : b - a < instances.length := by
      have ha := Nat.div_add_mod a instances.length
      have hb := Nat.div_add_mod b instances.length
      have hr := Nat.mod_lt b hpos
      rw [← hround] at hb
      omega
    have hzero := Nat.eq_zero_of_dvd_of_lt hdvd hnear
    omega
  have hbalanced := Balance.balanced_of_rounds hrounds hmem chosen.length
  rwa [List.take_length] at hbalanced

theorem chosen_evenly_three :
    (run step ⟨RpcClient.twoInstances, 0, [], []⟩ [.start, .start, .start]).chosen =
        [RpcDispatcher.ascii "10.0.0.1:80", RpcDispatcher.ascii "10.0.0.2:80", RpcDispatcher.ascii "10.0.0.1:80"] ∧
      Balance.Balanced RpcClient.twoInstances.available.toFinset
        (run step ⟨RpcClient.twoInstances, 0, [], []⟩ [.start, .start, .start]).chosen := by
  have hchosen : (run step ⟨RpcClient.twoInstances, 0, [], []⟩ [.start, .start, .start]).chosen =
      [RpcDispatcher.ascii "10.0.0.1:80", RpcDispatcher.ascii "10.0.0.2:80", RpcDispatcher.ascii "10.0.0.1:80"] := by
    decide
  have hwrap : 0 + (run step ⟨RpcClient.twoInstances, 0, [], []⟩ [.start, .start, .start]).chosen.length ≤
      18446744073709551616 := by
    rw [hchosen]
    norm_num
  refine ⟨hchosen, ?_⟩
  exact @chosen_evenly ⟨RpcClient.twoInstances, 0, [], []⟩ [.start, .start, .start] rfl (by decide)
    ⟨trivial, trivial, trivial, trivial⟩ hwrap

end

end Selection

end MCoroRpc
