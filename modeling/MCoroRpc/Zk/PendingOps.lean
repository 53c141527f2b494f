/-
The pending operations of a ZkClient (src/zkclient.cc, include/rpc/zkclient.hpp).

create, getData, setData, deleteNode and getChildren run the same course: the caller allocates a PendingOp, puts it into
m_pendingOps, gives it to ZooKeeper, waits until it is ready, copies the result, takes the op out of the list and deletes
it. A completion, on ZooKeeper's thread, fills the op in under the op's mutex and notifies behind it. cleanupPendingOps,
on the thread of an expiry or of close, fills in, notifies and deletes all ops of the list while it holds m_pendingMutex.

- `Label`, `step`: one label for what a thread does between two points at which another one can come in.
- `Safe`: no op has been used behind its deletion, and each is deleted once.
- `released_once_iff`: a run keeps that, and leaves nothing behind that can break it, exactly if no cleanup finds an op in
  the list and no caller deletes its op before the completion has notified.
-/
import MCoroRpc.Core.Machine
import MCoroRpc.Core.Table

namespace MCoroRpc

structure ZkResult where
  rc : ℤ
  data : String
  path : String
deriving DecidableEq, Repr

namespace ZkClient

/-! ## Model -/

def ZOK : ℤ := 0
def ZCONNECTIONLOSS : ℤ := -4

inductive OpType where
  | create
  | getData
  | setData
  | delete
  | getChildren
deriving DecidableEq, Repr

/-- what a PendingOp is made with -/
structure Request where
  opType : OpType
  path : String
  data : String
  flags : ℤ
  version : ℤ
deriving DecidableEq, Repr

def create (path data : String) (flags : ℤ) : Request := ⟨.create, path, data, flags, -1⟩
def getData (path : String) : Request := ⟨.getData, path, "", 0, -1⟩
def setData (path data : String) (version : ℤ) : Request := ⟨.setData, path, data, 0, version⟩
def deleteNode (path : String) (version : ℤ) : Request := ⟨.delete, path, "", 0, version⟩
def getChildren (path : String) : Request := ⟨.getChildren, path, "", 0, -1⟩

/-- what ZooKeeper passes to a completion -/
structure Answer where
  rc : ℤ
  path : Option String
  value : Option String
  strings : List String

def createCompletion (a : Answer) : ZkResult := ⟨a.rc, "", a.path.getD ""⟩
def getCompletion (a : Answer) : ZkResult := ⟨a.rc, a.value.getD "", ""⟩
def setCompletion (a : Answer) : ZkResult := ⟨a.rc, "", ""⟩
def deleteCompletion (a : Answer) : ZkResult := ⟨a.rc, "", ""⟩
def getChildrenCompletion (a : Answer) : ZkResult := ⟨a.rc, String.intercalate "," a.strings, ""⟩

def OpType.completion : OpType → Answer → ZkResult
  | .create => createCompletion
  | .getData => getCompletion
  | .setData => setCompletion
  | .delete => deleteCompletion
  | .getChildren => getChildrenCompletion

/-- where the thread of the caller stands -/
inductive CallerPc where
  /-- the op is in m_pendingOps -/
  | registered
  /-- ZooKeeper has not taken the request -/
  | refused (rc : ℤ)
  /-- in the wait on the op's condition variable -/
  | waiting
  | woken
  /-- the result has been copied -/
  | copied (r : ZkResult)
  /-- the op has been taken out of m_pendingOps -/
  | unregistered (r : ZkResult)
  | returned (r : ZkResult)
deriving DecidableEq, Repr

/-- where the completion of an op stands -/
inductive CallbackPc where
  | notIssued
  | inFlight
  /-- the op's mutex has been released, notify_one comes next -/
  | notifying
  | done
deriving DecidableEq, Repr

/-- a PendingOp, with the two that work on it -/
structure Op where
  request : Request
  result : ZkResult
  ready : Bool
  caller : CallerPc
  callback : CallbackPc
  /-- how often it has been deleted -/
  deletes : ℕ

/-- what cleanupPendingOps does to the op `i` -/
inductive Action where
  | mark (i : ℕ)
  | notify (i : ℕ)
  | delete (i : ℕ)

structure Client where
  /-- the place of an op stands for its address -/
  ops : List Op
  pendingOps : List ℕ
  /-- what a cleanup that holds m_pendingMutex has still to do -/
  cleanup : Option (List Action)
  /-- an op has been read or written behind its deletion -/
  touched : Bool

def init : Client := ⟨[], [], none, false⟩

namespace Client

def touch (i : ℕ) (c : Client) : Client :=
  { c with touched := c.touched || c.ops[i]?.any fun op => decide (0 < op.deletes) }

def update (i : ℕ) (f : Op → Op) (c : Client) : Client := { c with ops := c.ops.modify i f }

/-- reads and writes the op -/
def access (i : ℕ) (f : Op → Op) (c : Client) : Client := (c.touch i).update i f

/-- `std::remove` and `erase` -/
def unlist (i : ℕ) (c : Client) : Client := { c with pendingOps := c.pendingOps.filter (· ≠ i) }

def delete (i : ℕ) (c : Client) : Client := c.update i fun op => { op with deletes := op.deletes + 1 }

def register (r : Request) (c : Client) : Client :=
  if c.cleanup.isNone then
    { c with
      ops := c.ops ++ [⟨r, ⟨0, "", ""⟩, false, .registered, .notIssued, 0⟩]
      pendingOps := c.pendingOps ++ [c.ops.length] }
  else c

/-- zoo_acreate and the like return `rc` -/
def issue (i : ℕ) (rc : ℤ) (c : Client) : Client :=
  match c.ops[i]? with
  | some op =>
    if op.caller = .registered then
      if rc = ZOK then c.update i fun op => { op with caller := .waiting, callback := .inFlight }
      else c.update i fun op => { op with caller := .refused rc }
    else c
  | none => c

/-- the caller goes on -/
def goOn (i : ℕ) (c : Client) : Client :=
  match c.ops[i]? with
  | some op =>
    match op.caller with
    | .registered => c
    | .refused rc =>
      if c.cleanup.isNone then ((c.unlist i).delete i).update i fun op => { op with caller := .returned ⟨rc, "", ""⟩ }
      else c
    | .waiting => c.access i fun op => if op.ready then { op with caller := .woken } else op
    | .woken => c.access i fun op => { op with caller := .copied op.result }
    | .copied r => if c.cleanup.isNone then (c.unlist i).update i fun op => { op with caller := .unregistered r } else c
    | .unregistered r => (c.delete i).update i fun op => { op with caller := .returned r }
    | .returned _ => c
  | none => c

/-- the completion goes on -/
def complete (i : ℕ) (a : Answer) (c : Client) : Client :=
  match c.ops[i]? with
  | some op =>
    match op.callback with
    | .inFlight => c.access i fun op =>
        { op with result := op.request.opType.completion a, ready := true, callback := .notifying }
    | .notifying => c.access i fun op => { op with callback := .done }
    | .notIssued | .done => c
  | none => c

def act (a : Action) (c : Client) : Client :=
  match a with
  | .mark i => c.access i fun op => { op with result := ⟨ZCONNECTIONLOSS, "", ""⟩, ready := true }
  | .notify i => c.touch i
  | .delete i => c.delete i

/-- a cleanup begins, or goes on -/
def cleanupPendingOps (c : Client) : Client :=
  match c.cleanup with
  | none => { c with cleanup := some (c.pendingOps.flatMap fun i => [.mark i, .notify i, .delete i]) }
  | some (a :: as) => { c.act a with cleanup := some as }
  | some [] => { c with pendingOps := [], cleanup := none }

end Client

inductive Label where
  | call (r : Request)
  | issue (i : ℕ) (rc : ℤ)
  | caller (i : ℕ)
  | callback (i : ℕ) (a : Answer)
  | cleanup

def step (c : Client) : Label → Client
  | .call r => c.register r
  | .issue i rc => c.issue i rc
  | .caller i => c.goOn i
  | .callback i a => c.complete i a
  | .cleanup => c.cleanupPendingOps

/-! ## The property and its condition -/

def CallerPc.hasReturned : CallerPc → Bool
  | .returned _ => true
  | _ => false

/-- the caller has not taken its op out of the list -/
def CallerPc.listed : CallerPc → Bool
  | .unregistered _ | .returned _ => false
  | _ => true

structure Safe (c : Client) : Prop where
  untouched : c.touched = false
  once : ∀ op ∈ c.ops, op.deletes ≤ 1
  released : ∀ op ∈ c.ops, op.caller.hasReturned = true → op.deletes = 1

/-- a cleanup finds the list empty, and a caller deletes its op when the completion is through with it -/
def Orderly (c : Client) : Label → Prop
  | .cleanup => c.cleanup = none → c.pendingOps = []
  | .caller i => ∀ op r, c.ops[i]? = some op → op.caller = .unregistered r → op.callback ≠ .notifying
  | _ => True

/-- nothing can go wrong as long as what follows is orderly -/
def StaysSafe (c : Client) : Prop := ∀ ls, Machine.Along step Orderly c ls → Safe (Machine.run step c ls)

/-- the request has been taken and the op has not been deleted -/
def CallerPc.underway : CallerPc → Bool
  | .waiting | .woken | .copied _ | .unregistered _ => true
  | _ => false

/-- how far the caller and the completion of an op can have come, whether it is ready, and how often it has been
deleted -/
inductive Stage : CallerPc → CallbackPc → Bool → ℕ → Prop where
  | registered : Stage .registered .notIssued false 0
  | refused (rc : ℤ) : Stage (.refused rc) .notIssued false 0
  | issued : Stage .waiting .inFlight false 0
  | answered (caller : CallerPc) (callback : CallbackPc) (hcaller : caller.underway = true)
    (hcallback : callback = .notifying ∨ callback = .done) : Stage caller callback true 0
  | gaveUp (r : ZkResult) : Stage (.returned r) .notIssued false 1
  | returned (r : ZkResult) : Stage (.returned r) .done true 1

/-- the op at address `i` -/
structure OpOk (pending : List ℕ) (i : ℕ) (op : Op) : Prop where
  listed : i ∈ pending ↔ op.caller.listed = true
  stage : Stage op.caller op.callback op.ready op.deletes

structure Inv (c : Client) : Prop where
  untouched : c.touched = false
  cleanup : c.cleanup = none ∨ (c.cleanup = some [] ∧ c.pendingOps = [])
  ops : ∀ i op, c.ops[i]? = some op → OpOk c.pendingOps i op
  bound : ∀ i ∈ c.pendingOps, i < c.ops.length

section
variable {c : Client} {i : ℕ} {op : Op}

theorem Stage.deletes_eq {caller : CallerPc} {callback : CallbackPc} {ready : Bool} {deletes : ℕ}
    (h : Stage caller callback ready deletes) : deletes = if caller.hasReturned then 1 else 0 := by
  cases h with
  | answered caller callback hcaller _ => cases caller <;> first | rfl | cases hcaller
  | _ => rfl

theorem Inv.deletes_eq (h : Inv c) (hi : c.ops[i]? = some op) :
    op.deletes = if op.caller.hasReturned then 1 else 0 := (h.ops i op hi).stage.deletes_eq

theorem Inv.safe (h : Inv c) : Safe c := by
  refine ⟨h.untouched, fun op hop => ?_, fun op hop hreturned => ?_⟩
  · obtain ⟨i, hi⟩ := List.mem_iff_getElem?.1 hop
    rw [h.deletes_eq hi]
    split_ifs <;> omega
  · obtain ⟨i, hi⟩ := List.mem_iff_getElem?.1 hop
    rw [h.deletes_eq hi, if_pos hreturned]

/-- an op is there until its caller has returned -/
theorem Inv.touch (h : Inv c) (hi : c.ops[i]? = some op) (hcaller : op.caller.hasReturned = false) :
    c.touch i = c := by
  have hdeletes : op.deletes = 0 := by rw [h.deletes_eq hi, hcaller]; rfl
  simp only [Client.touch, hi, Option.any_some, hdeletes, lt_irrefl, decide_false, Bool.or_false]

/-- one op is replaced, and may leave the list -/
theorem Inv.replace (h : Inv c) (hi : c.ops[i]? = some op) {pending : List ℕ}
    (hother : ∀ j, j ≠ i → (j ∈ pending ↔ j ∈ c.pendingOps)) (hnone : c.pendingOps = [] → pending = [])
    {f : Op → Op} (hf : OpOk pending i (f op)) :
    Inv { c with ops := c.ops.modify i f, pendingOps := pending } := by
  refine ⟨h.untouched, h.cleanup.imp_right fun hc => ⟨hc.1, hnone hc.2⟩, fun j op' hj => ?_, fun j hj => ?_⟩
  · rcases Table.of_getElem?_modify hj with ⟨rfl, op'', hop, rfl⟩ | ⟨hne, hold⟩
    · obtain rfl : op = op'' := Option.some.inj (hi.symm.trans hop)
      exact hf
    · have hok := h.ops j op' hold
      exact ⟨(hother j hne).trans hok.listed, hok.stage⟩
  · rw [List.length_modify]
    by_cases hij : j = i
    · rw [hij]
      exact (List.getElem?_eq_some_iff.1 hi).1
    · exact h.bound j ((hother j hij).1 hj)

theorem Inv.update (h : Inv c) (hi : c.ops[i]? = some op) {f : Op → Op} (hf : OpOk c.pendingOps i (f op)) :
    Inv (c.update i f) :=
  h.replace hi (fun _ _ => Iff.rfl) id hf

theorem update_update (c : Client) (i : ℕ) (f g : Op → Op) :
    (c.update i f).update i g = c.update i fun op => g (f op) := by
  simp only [Client.update, List.modify_modify_eq]
  rfl

/-- the op leaves the list -/
theorem Inv.unlist_update (h : Inv c) (hi : c.ops[i]? = some op) {f : Op → Op}
    (hf : OpOk (c.pendingOps.filter (· ≠ i)) i (f op)) : Inv ((c.unlist i).update i f) := by
  apply h.replace hi _ _ hf
  · intro j hne
    simp [hne]
  · intro hnone
    rw [hnone, List.filter_nil]

/-! ## One orderly step -/

namespace Inv

/-- an op that is there is read or written -/
theorem access (h : Inv c) (hi : c.ops[i]? = some op) (hcaller : op.caller.hasReturned = false) {f : Op → Op}
    (hlisted : (f op).caller.listed = op.caller.listed)
    (hf : Stage (f op).caller (f op).callback (f op).ready (f op).deletes) : Inv (c.access i f) := by
  rw [Client.access, h.touch hi hcaller]
  exact h.update hi ⟨by rw [(h.ops i op hi).listed, hlisted], hf⟩

theorem register (h : Inv c) (r : Request) : Inv (c.register r) := by
  unfold Client.register
  split_ifs with hfree
  · refine ⟨h.untouched, .inl (Option.isNone_iff_eq_none.1 hfree), fun j op hj => ?_, fun j hj => ?_⟩
    · dsimp only at hj ⊢
      rcases Nat.lt_trichotomy j c.ops.length with hlt | rfl | hgt
      · rw [List.getElem?_append_left hlt] at hj
        have hold := h.ops j op hj
        refine ⟨?_, hold.stage⟩
        rw [← hold.listed, List.mem_append, List.mem_singleton]
        exact or_iff_left (Nat.ne_of_lt hlt)
      · rw [List.getElem?_concat_length] at hj
        obtain rfl := Option.some.inj hj
        exact ⟨iff_of_true (List.mem_append_right _ (List.mem_singleton_self _)) rfl, .registered⟩
      · rw [List.getElem?_eq_none (by rw [List.length_append, List.length_singleton]; omega)] at hj
        cases hj
    · rw [List.length_append, List.length_singleton]
      rcases List.mem_append.1 hj with hold | hnew
      · have hlt := h.bound j hold
        omega
      · rw [List.mem_singleton.1 hnew]
        omega
  · exact h

theorem issue (h : Inv c) (i : ℕ) (rc : ℤ) : Inv (c.issue i rc) := by
  unfold Client.issue
  split
  · next op hi =>
    obtain ⟨hlisted, hstage⟩ := h.ops i op hi
    obtain ⟨request, result, ready, caller, callback, deletes⟩ := op
    dsimp only at hlisted hstage ⊢
    split_ifs with hcaller hrc
    · subst hcaller
      cases hstage with
      | registered => exact h.update hi ⟨hlisted, .issued⟩
      | answered _ _ hcaller _ => cases hcaller
    · subst hcaller
      cases hstage with
      | registered => exact h.update hi ⟨hlisted, .refused rc⟩
      | answered _ _ hcaller _ => cases hcaller
    · exact h
  · exact h

theorem goOn (h : Inv c) (i : ℕ) (ho : Orderly c (.caller i)) : Inv (c.goOn i) := by
  unfold Client.goOn
  split
  · next op hi =>
    have hok := h.ops i op hi
    have ho := ho op
    obtain ⟨request, result, ready, caller, callback, deletes⟩ := op
    obtain ⟨hlisted, hstage⟩ := hok
    dsimp only at hlisted hstage ho ⊢
    have hgone : ∀ j : ℕ, j ∈ c.pendingOps.filter (· ≠ j) ↔ False := fun j => by simp
    cases hstage with
    | registered => exact h
    | refused rc =>
      dsimp only
      split_ifs
      · rw [Client.delete, update_update]
        exact h.unlist_update hi ⟨(hgone i).trans (by simp [CallerPc.listed]), .gaveUp _⟩
      · exact h
    | issued => exact h.access hi rfl rfl .issued
    | gaveUp r => exact h
    | returned r => exact h
    | answered caller callback hcaller hcallback =>
      cases caller with
      | waiting => exact h.access hi rfl rfl (.answered _ _ rfl hcallback)
      | woken => exact h.access hi rfl rfl (.answered _ _ rfl hcallback)
      | copied r =>
        dsimp only
        split_ifs
        · exact h.unlist_update hi ⟨(hgone i).trans (by simp [CallerPc.listed]), .answered _ _ rfl hcallback⟩
        · exact h
      | unregistered r =>
        -- the completion has notified
        obtain rfl := hcallback.resolve_left (ho r hi rfl)
        dsimp only
        rw [Client.delete, update_update]
        exact h.update hi ⟨hlisted, .returned r⟩
      | _ => cases hcaller
  · exact h

theorem complete (h : Inv c) (i : ℕ) (a : Answer) : Inv (c.complete i a) := by
  unfold Client.complete
  split
  · next op hi =>
    have hok := h.ops i op hi
    obtain ⟨request, result, ready, caller, callback, deletes⟩ := op
    obtain ⟨hlisted, hstage⟩ := hok
    dsimp only at hlisted hstage ⊢
    cases hstage with
    | registered => exact h
    | refused rc => exact h
    | issued => exact h.access hi rfl rfl (.answered _ _ rfl (.inl rfl))
    | gaveUp r => exact h
    | returned r => exact h
    | answered caller callback hcaller hcallback =>
      have hthere : caller.hasReturned = false := by cases caller <;> first | rfl | cases hcaller
      rcases hcallback with rfl | rfl
      · exact h.access hi hthere rfl (.answered _ _ hcaller (.inr rfl))
      · exact h
  · exact h

theorem cleanupPendingOps (h : Inv c) (ho : Orderly c .cleanup) : Inv c.cleanupPendingOps := by
  unfold Client.cleanupPendingOps
  rcases h.cleanup with hfree | ⟨hlast, hnone⟩
  · have hnone := ho hfree
    simp only [hfree, hnone, List.flatMap_nil]
    exact ⟨h.untouched, .inr ⟨rfl, rfl⟩, fun i op hi => hnone ▸ h.ops i op hi, by nofun⟩
  · simp only [hlast]
    exact ⟨h.untouched, .inl rfl, fun i op hi => hnone ▸ h.ops i op hi, by nofun⟩

theorem step (h : Inv c) {l : Label} (ho : Orderly c l) : Inv (step c l) := by
  cases l with
  | call r => exact h.register r
  | issue i rc => exact h.issue i rc
  | caller i => exact h.goOn i ho
  | callback i a => exact h.complete i a
  | cleanup => exact h.cleanupPendingOps ho

theorem staysSafe (h : Inv c) : StaysSafe c := fun _ hls =>
  (Machine.inv_run (fun _ _ ho hs => hs.step ho) hls h).safe

end Inv

theorem init_inv : Inv init := by
  refine ⟨rfl, .inl rfl, fun i op hi => ?_, fun i hi => ?_⟩
  · cases hi
  · cases hi

/-! ## Any other step -/

/-- a run of orderly steps goes wrong -/
def Doomed : Client → Prop := Machine.Leads step Orderly (¬ Safe ·)

theorem not_staysSafe_of_doomed (h : Doomed c) : ¬ StaysSafe c := by
  intro hstays
  obtain ⟨ls, hls, hwrong⟩ := h
  exact hwrong (hstays ls hls)

theorem Doomed.of_touched (h : c.touched = true) : Doomed c :=
  .here fun hsafe => by rw [hsafe.untouched] at h; cases h

theorem Doomed.of_twice (hi : c.ops[i]? = some op) (h : 1 < op.deletes) : Doomed c :=
  .here fun hsafe => by have := hsafe.once op (List.mem_of_getElem? hi); omega

/-- a deleted op is read or written -/
theorem Doomed.of_access (hi : c.ops[i]? = some op) (h : 0 < op.deletes) (f : Op → Op) : Doomed (c.access i f) := by
  refine .of_touched ?_
  simp only [Client.access, Client.update, Client.touch, hi, Option.any_some, h, decide_true, Bool.or_true]

theorem Doomed.notify (hi : c.ops[i]? = some op) (h : 0 < op.deletes) (hcallback : op.callback = .notifying) :
    Doomed c := by
  refine Machine.Leads.of_step (l := .callback i ⟨ZOK, none, none, []⟩) trivial ?_
  simp only [step, Client.complete, hi, hcallback]
  exact Doomed.of_access hi h _

theorem update_get (hi : c.ops[i]? = some op) (f : Op → Op) : (c.update i f).ops[i]? = some (f op) := by
  rw [Client.update, List.getElem?_modify_eq, hi]
  rfl

theorem orderly_caller (hi : c.ops[i]? = some op)
    (h : ∀ r, op.caller = .unregistered r → op.callback ≠ .notifying) : Orderly c (.caller i) := by
  intro op' r hi' hcaller
  obtain rfl : op = op' := Option.some.inj (hi.symm.trans hi')
  exact h r hcaller

/-- the caller deletes once more -/
theorem Doomed.unregistered {r : ZkResult} (hi : c.ops[i]? = some op) (h : 0 < op.deletes)
    (hcaller : op.caller = .unregistered r) (hcallback : op.callback ≠ .notifying) : Doomed c := by
  refine Machine.Leads.of_step (l := .caller i) (orderly_caller hi fun _ _ => hcallback) ?_
  have hget := update_get hi fun op => { op with deletes := op.deletes + 1, caller := .returned r }
  simp only [step, Client.goOn, hi, hcaller, Client.delete, update_update]
  exact Doomed.of_twice hget (by simpa using h)

/-- a caller that may go on uses the op that a cleanup has deleted, or deletes it again -/
theorem Doomed.listed (hfree : c.cleanup = none) (hi : c.ops[i]? = some op) (h : 0 < op.deletes)
    (hlisted : op.caller.listed = true) : Doomed c := by
  have hgo : ∀ {pc : CallerPc}, op.caller = pc → pc.listed = true → Orderly c (.caller i) := by
    intro pc hpc hlisted
    refine orderly_caller hi fun r hr => ?_
    rw [hpc.symm.trans hr] at hlisted
    cases hlisted
  cases hcaller : op.caller with
  | registered =>
    -- ZooKeeper takes the request, and the caller looks whether the op is ready
    refine Machine.Leads.of_step (l := .issue i ZOK) trivial ?_
    have hget := update_get hi fun op => { op with caller := .waiting, callback := .inFlight }
    simp only [step, Client.issue, hi, hcaller, if_true]
    refine Machine.Leads.of_step (l := .caller i) (orderly_caller hget (by nofun)) ?_
    simp only [step, Client.goOn, hget]
    exact Doomed.of_access hget h _
  | refused rc =>
    refine Machine.Leads.of_step (l := .caller i) (hgo hcaller rfl) ?_
    have hget := update_get (c := c.unlist i) hi fun op =>
      { op with deletes := op.deletes + 1, caller := .returned ⟨rc, "", ""⟩ }
    simp only [step, Client.goOn, hi, hcaller, hfree, Option.isNone_none, if_true, Client.delete, update_update]
    exact Doomed.of_twice hget (by simpa using h)
  | waiting =>
    refine Machine.Leads.of_step (l := .caller i) (hgo hcaller rfl) ?_
    simp only [step, Client.goOn, hi, hcaller]
    exact Doomed.of_access hi h _
  | woken =>
    refine Machine.Leads.of_step (l := .caller i) (hgo hcaller rfl) ?_
    simp only [step, Client.goOn, hi, hcaller]
    exact Doomed.of_access hi h _
  | copied r =>
    by_cases hcallback : op.callback = .notifying
    · exact Doomed.notify hi h hcallback
    · refine Machine.Leads.of_step (l := .caller i) (hgo hcaller rfl) ?_
      have hget := update_get (c := c.unlist i) hi fun op => { op with caller := .unregistered r }
      simp only [step, Client.goOn, hi, hcaller, hfree, Option.isNone_none, if_true]
      exact Doomed.unregistered hget h rfl hcallback
  | unregistered r => rw [hcaller] at hlisted; cases hlisted
  | returned r => rw [hcaller] at hlisted; cases hlisted

/-- an action of a cleanup leaves the caller where it is -/
theorem act_get (hi : c.ops[i]? = some op) (a : Action) : ∃ op', (c.act a).ops[i]? = some op' ∧
    op'.caller = op.caller ∧ op.deletes ≤ op'.deletes ∧ (a = .delete i → 0 < op'.deletes) := by
  have hupdate : ∀ (j : ℕ) (f : Op → Op), (c.ops.modify j f)[i]? = some (if j = i then f op else op) := by
    intro j f
    rw [List.getElem?_modify, hi]
    split_ifs <;> rfl
  cases a with
  | mark j => refine ⟨_, hupdate j _, ?_, ?_, by nofun⟩ <;> split_ifs <;> rfl
  | notify j => exact ⟨op, hi, rfl, le_rfl, by nofun⟩
  | delete j =>
    refine ⟨_, hupdate j _, ?_, ?_, fun heq => ?_⟩
    · split_ifs <;> rfl
    · split_ifs
      · exact Nat.le_succ _
      · exact le_rfl
    · obtain rfl : j = i := by simpa using heq
      rw [if_pos rfl]
      exact Nat.succ_pos _

/-- a cleanup that deletes the op of a caller that is still at it goes on to its end -/
theorem Doomed.cleanup {as : List Action} (hc : c.cleanup = some as) (hi : c.ops[i]? = some op)
    (hlisted : op.caller.listed = true) (h : 0 < op.deletes ∨ .delete i ∈ as) : Doomed c := by
  induction as generalizing c op with
  | nil =>
    refine Machine.Leads.of_step (l := .cleanup) (by simp [Orderly, hc]) ?_
    simp only [step, Client.cleanupPendingOps, hc]
    exact Doomed.listed rfl hi (h.resolve_right (by nofun)) hlisted
  | cons a as ih =>
    refine Machine.Leads.of_step (l := .cleanup) (by simp [Orderly, hc]) ?_
    obtain ⟨op', hi', hcaller, hle, hdelete⟩ := act_get hi a
    simp only [step, Client.cleanupPendingOps, hc]
    refine ih rfl hi' (by rw [hcaller]; exact hlisted) ?_
    rcases h with h | h
    · exact .inl (by omega)
    · rcases List.mem_cons.1 h with heq | h
      · exact .inl (hdelete heq.symm)
      · exact .inr h

theorem Inv.not_staysSafe (h : Inv c) {l : Label} (ho : ¬ Orderly c l) : ¬ StaysSafe (ZkClient.step c l) := by
  refine not_staysSafe_of_doomed ?_
  cases l with
  | cleanup =>
    obtain ⟨hfree, hne⟩ := Classical.not_imp.1 ho
    obtain ⟨i, is, hpending⟩ := List.exists_cons_of_ne_nil hne
    have hmem : i ∈ c.pendingOps := by rw [hpending]; exact List.mem_cons_self
    have hi := List.getElem?_eq_getElem (h.bound i hmem)
    simp only [ZkClient.step, Client.cleanupPendingOps, hfree]
    refine Doomed.cleanup rfl hi ((h.ops i _ hi).listed.1 hmem) (.inr ?_)
    exact List.mem_flatMap.2 ⟨i, hmem, by simp⟩
  | caller i =>
    simp only [Orderly, not_forall, not_not] at ho
    obtain ⟨op, r, hi, hcaller, hcallback⟩ := ho
    have hget := update_get hi fun op => { op with deletes := op.deletes + 1, caller := .returned r }
    simp only [ZkClient.step, Client.goOn, hi, hcaller, Client.delete, update_update]
    exact Doomed.notify hget (Nat.succ_pos _) hcallback
  | call r => exact absurd trivial ho
  | issue i rc => exact absurd trivial ho
  | callback i a => exact absurd trivial ho

end

/-! ## Runs -/

/-- **Pending operations**: over every interleaving of any number of calls, their completions and the cleanups, each op
stays unused behind its deletion and is deleted once, in every state and whatever orderly steps may follow it, exactly if
each step is orderly. -/
theorem released_once_iff (ls : List Label) :
    (∀ n, StaysSafe (Machine.run step init (ls.take n))) ↔ Machine.Along step Orderly init ls :=
  Machine.along_iff (L := fun _ => True) (I := Inv) (fun _ h => h.staysSafe) (fun _ _ _ h ho => h.step ho)
    (fun _ _ _ h ho => h.not_staysSafe ho) init_inv (fun _ _ => trivial)

def okAnswer : Answer := ⟨ZOK, some "/a", none, []⟩

/-- the session expires while a create waits, which then looks at its op; and a create that finds its op ready deletes it
before the completion has notified -/
theorem op_used_after_delete :
    ¬ Safe (Machine.run step init
        [.call (create "/a" "" 0), .issue 0 ZOK, .cleanup, .cleanup, .cleanup, .cleanup, .caller 0]) ∧
      ¬ Safe (Machine.run step init
        [.call (create "/a" "" 0), .issue 0 ZOK, .callback 0 okAnswer, .caller 0, .caller 0, .caller 0, .caller 0,
          .callback 0 okAnswer]) := by
  constructor
  · intro h
    have htouched := h.untouched
    revert htouched
    decide
  · intro h
    have htouched := h.untouched
    revert htouched
    decide

end ZkClient

end MCoroRpc
