/-
The watchers of a ZkClient (globalWatcher, processWatcher, watchDataCompletion and watchChildrenCompletion in
src/zkclient.cc).

An event for a watched path makes processWatcher issue a get, which asks for the next event at the same time. The
completion of this get calls the callback, and then issues another get with itself as the completion.

- `Request`: a get that the server has not answered. `event` tells whether processWatcher has issued it, for an event.
- `Quiesces`: no more notifications than events, and no get that is for no event.
- `quiesces_iff`: that holds throughout a run exactly if no completion is allowed to issue its get.
- `notifies_again`: otherwise one event leads to any number of notifications, or of gets without one (`asks_again`).
-/
import MCoroRpc.Core.Machine
import MCoroRpc.Zk.PendingOps
import Mathlib.Data.Finmap

namespace MCoroRpc

namespace Watchers

open ZkClient (ZOK)

/-! ## Model -/

inductive EventType where
  | created
  | deleted
  | changed
  | child
deriving DecidableEq, Repr

/-- what one can watch -/
inductive Topic where
  | data (path : String)
  | children (path : String)
deriving DecidableEq, Repr

/-- the topic of an event that processWatcher looks at -/
def EventType.topic (path : String) : EventType → Option Topic
  | .changed => some (.data path)
  | .child => some (.children path)
  | .created | .deleted => none

/-- WatchDataCtx or WatchChildrenCtx, of a get that has not been answered; a callback is a number, or empty. An event is
outstanding until the get that processWatcher issues for it is answered. -/
structure Request where
  topic : Topic
  callback : Option ℕ
  event : Bool
deriving DecidableEq, Repr

/-- a call of a callback with the children, or with the value alone -/
structure Notification where
  topic : Topic
  callback : ℕ
  strings : List String
deriving DecidableEq, Repr

structure Client where
  /-- `m_zkHandle` is not null -/
  handle : Bool
  dataWatchers : Finmap fun _ : String => Option ℕ
  childrenWatchers : Finmap fun _ : String => Option ℕ
  requests : List Request
  /-- the events that have been delivered -/
  delivered : List Topic
  invoked : List Notification

def init : Client := ⟨true, ∅, ∅, [], [], []⟩

namespace Client

def watcher (c : Client) : Topic → Option (Option ℕ)
  | .data path => c.dataWatchers.lookup path
  | .children path => c.childrenWatchers.lookup path

/-- zoo_aget or zoo_aget_children2, which returns `rc` when there is a handle; a null handle is refused -/
def get (r : Request) (rc : ℤ) (c : Client) : Client :=
  if c.handle ∧ rc = ZOK then { c with requests := c.requests ++ [r] } else c

def processWatcher (type : EventType) (path : String) (rc : ℤ) (c : Client) : Client :=
  if c.handle then
    match type.topic path with
    | some t =>
      match c.watcher t with
      | some callback => c.get ⟨t, callback, true⟩ rc
      | none => c
    | none => c
  else c

/-- of the events that are no session events -/
def globalWatcher (type : EventType) (path : Option String) (rc : ℤ) (c : Client) : Client :=
  match path with
  | some path => { c with delivered := c.delivered ++ (type.topic path).toList }.processWatcher type path rc
  | none => c

/-- the callback, if there is one -/
def notify (r : Request) (rc : ℤ) (strings : List String) (c : Client) : Client :=
  match r.callback with
  | some callback => if rc = ZOK then { c with invoked := c.invoked ++ [⟨r.topic, callback, strings⟩] } else c
  | none => c

/-- watchDataCompletion and watchChildrenCompletion: the answer is `rc`, the next get returns `ret` -/
def watchCompletion (r : Request) (rc : ℤ) (strings : List String) (ret : ℤ) (c : Client) : Client :=
  (c.notify r rc strings).get { r with event := false } ret

/-- the server answers the get at place `i` -/
def answer (i : ℕ) (rc : ℤ) (strings : List String) (ret : ℤ) (c : Client) : Client :=
  match c.requests[i]? with
  | some r => { c with requests := c.requests.eraseIdx i }.watchCompletion r rc strings ret
  | none => c

end Client

inductive Label where
  | setDataWatcher (path : String) (callback : Option ℕ)
  | setChildrenWatcher (path : String) (callback : Option ℕ)
  | event (type : EventType) (path : Option String) (rc : ℤ)
  | answer (i : ℕ) (rc : ℤ) (strings : List String) (ret : ℤ)
  | close

def step (c : Client) : Label → Client
  | .setDataWatcher path callback => { c with dataWatchers := c.dataWatchers.insert path callback }
  | .setChildrenWatcher path callback => { c with childrenWatchers := c.childrenWatchers.insert path callback }
  | .event type path rc => c.globalWatcher type path rc
  | .answer i rc strings ret => c.answer i rc strings ret
  | .close => { c with handle := false }

/-! ## The property and its condition -/

structure Quiesces (c : Client) : Prop where
  /-- no more notifications than events -/
  notified : ∀ t, c.invoked.countP (·.topic = t) ≤ c.delivered.count t
  /-- each get is for an event whose get has not been answered -/
  outstanding : ∀ r ∈ c.requests, r.event = true

/-- a completion is refused the next get -/
def Refused (c : Client) : Label → Prop
  | .answer i _ _ ret => i < c.requests.length → ¬ (c.handle ∧ ret = ZOK)
  | _ => True

/-- each event has a get that is under way, or has been notified, or is forgotten -/
structure Inv (c : Client) : Prop where
  notified : ∀ t, c.invoked.countP (·.topic = t) + c.requests.countP (·.topic = t) ≤ c.delivered.count t
  outstanding : ∀ r ∈ c.requests, r.event = true

section
variable {c : Client} {r : Request}

theorem Inv.quiesces (h : Inv c) : Quiesces c :=
  ⟨fun t => (Nat.le_add_right _ _).trans (h.notified t), h.outstanding⟩

theorem init_inv : Inv init := ⟨fun _ => le_rfl, by nofun⟩

/-- the get for an event that has just been delivered -/
theorem Inv.processWatcher {type : EventType} {path : String} (rc : ℤ) (h : Inv c) :
    Inv ({ c with delivered := c.delivered ++ (type.topic path).toList }.processWatcher type path rc) := by
  have hdelivered : Inv { c with delivered := c.delivered ++ (type.topic path).toList } := by
    refine ⟨fun t => (h.notified t).trans ?_, h.outstanding⟩
    rw [List.count_append]
    exact Nat.le_add_right _ _
  unfold Client.processWatcher
  split_ifs
  · split
    · next t ht =>
      split
      · next callback _ =>
        unfold Client.get
        split_ifs
        · refine ⟨fun t' => ?_, ?_⟩
          · have hold := h.notified t'
            simp only [ht, Option.toList_some, List.count_append, List.countP_append, List.countP_singleton,
              List.count_singleton, beq_iff_eq, decide_eq_true_eq]
            omega
          · intro r hr
            rcases List.mem_append.1 hr with hr | hr
            · exact h.outstanding r hr
            · rw [List.mem_singleton.1 hr]
        · exact hdelivered
      · exact hdelivered
    · exact hdelivered
  · exact hdelivered

/-- the request that is answered, and the others -/
theorem countP_eraseIdx {i : ℕ} (hi : c.requests[i]? = some r) (t : Topic) :
    c.requests.countP (·.topic = t) = (c.requests.eraseIdx i).countP (·.topic = t) + if r.topic = t then 1 else 0 := by
  obtain ⟨hlt, rfl⟩ := List.getElem?_eq_some_iff.1 hi
  rw [← (List.getElem_cons_eraseIdx_perm hlt).countP_eq, List.countP_cons]
  simp only [decide_eq_true_eq]

/-- a callback is called when its get has been answered with ZOK -/
theorem notify_countP (r : Request) (rc : ℤ) (strings : List String) (c : Client) (t : Topic) :
    (c.notify r rc strings).invoked.countP (·.topic = t) ≤
      c.invoked.countP (·.topic = t) + if r.topic = t ∧ rc = ZOK then 1 else 0 := by
  unfold Client.notify
  split
  · by_cases hrc : rc = ZOK
    · simp [hrc, List.countP_singleton]
    · simp [hrc]
  · exact Nat.le_add_right _ _

theorem notify_frame (r : Request) (rc : ℤ) (strings : List String) (c : Client) :
    (c.notify r rc strings).requests = c.requests ∧ (c.notify r rc strings).delivered = c.delivered ∧
      (c.notify r rc strings).handle = c.handle := by
  unfold Client.notify
  split
  · split_ifs <;> exact ⟨rfl, rfl, rfl⟩
  · exact ⟨rfl, rfl, rfl⟩

section
variable (h : Inv c) {i : ℕ} (hi : c.requests[i]? = some r) (rc : ℤ) (strings : List String)
include h hi

/-- the request of the answer makes room for one notification -/
theorem Inv.notify : Inv ({ c with requests := c.requests.eraseIdx i }.notify r rc strings) := by
  obtain ⟨hrequests, hdelivered, -⟩ := notify_frame r rc strings { c with requests := c.requests.eraseIdx i }
  refine ⟨fun t => ?_, fun r' hr' => ?_⟩
  · have hnotify := notify_countP r rc strings { c with requests := c.requests.eraseIdx i } t
    have hle : (if r.topic = t ∧ rc = ZOK then 1 else 0) ≤ if r.topic = t then 1 else 0 := by
      split_ifs with hboth htopic
      · exact le_rfl
      · exact absurd hboth.1 htopic
      · exact Nat.zero_le _
      · exact le_rfl
    have hold := h.notified t
    rw [countP_eraseIdx hi] at hold
    rw [hrequests, hdelivered]
    dsimp only at hnotify ⊢
    omega
  · rw [hrequests] at hr'
    exact h.outstanding r' (List.mem_of_mem_eraseIdx hr')

end

theorem Inv.answer (h : Inv c) (i : ℕ) (rc : ℤ) (strings : List String) (ret : ℤ)
    (hrefused : Refused c (.answer i rc strings ret)) : Inv (c.answer i rc strings ret) := by
  unfold Client.answer
  split
  · next r hi =>
    have hlt : i < c.requests.length := (List.getElem?_eq_some_iff.1 hi).1
    by_cases hget : c.handle = true ∧ ret = ZOK
    · exact absurd hget (hrefused hlt)
    · have hhandle := (notify_frame r rc strings { c with requests := c.requests.eraseIdx i }).2.2
      rw [Client.watchCompletion, Client.get, if_neg (by rw [hhandle]; exact hget)]
      exact h.notify hi rc strings
  · exact h

theorem Inv.step (h : Inv c) {l : Label} (hrefused : Refused c l) : Inv (step c l) := by
  cases l with
  | setDataWatcher path callback => exact ⟨h.notified, h.outstanding⟩
  | setChildrenWatcher path callback => exact ⟨h.notified, h.outstanding⟩
  | event type path rc =>
    cases path with
    | some path => exact h.processWatcher rc
    | none => exact h
  | answer i rc strings ret => exact h.answer i rc strings ret hrefused
  | close => exact ⟨h.notified, h.outstanding⟩

/-- the completion has issued a get for no event -/
theorem not_quiesces {l : Label} (hl : ¬ Refused c l) : ¬ Quiesces (Watchers.step c l) := by
  intro hq
  cases l with
  | answer i rc strings ret =>
    simp only [Refused, Classical.not_imp, not_not] at hl
    obtain ⟨hlt, hget⟩ := hl
    have hi := List.getElem?_eq_getElem hlt
    have hhandle := (notify_frame c.requests[i] rc strings { c with requests := c.requests.eraseIdx i }).2.2
    have hmem : { c.requests[i] with event := false } ∈ (Watchers.step c (.answer i rc strings ret)).requests := by
      simp only [Watchers.step, Client.answer, hi, Client.watchCompletion]
      rw [Client.get, if_pos (by rw [hhandle]; exact hget)]
      simp
    cases hq.outstanding _ hmem
  | setDataWatcher path callback => exact hl trivial
  | setChildrenWatcher path callback => exact hl trivial
  | event type path rc => exact hl trivial
  | close => exact hl trivial

end

/-! ## Runs -/

/-- **Watch events**: over every run, no watcher is notified more often than its path has had events, and no get is issued
for no event, exactly if each completion is refused the get that it issues. -/
theorem quiesces_iff (ls : List Label) :
    (∀ n, Quiesces (Machine.run step init (ls.take n))) ↔ Machine.Along step Refused init ls :=
  Machine.along_iff (L := fun _ => True) (I := Inv) (fun _ h => h.quiesces) (fun _ _ _ h hl => h.step hl)
    (fun _ _ _ _ hl => not_quiesces hl) init_inv (fun _ _ => trivial)

/-- a server that answers every get notifies the watcher once for each answer, without an event -/
theorem notifies_again {c : Client} {t : Topic} {callback : ℕ} (hhandle : c.handle = true)
    (hrequests : c.requests = [⟨t, some callback, false⟩]) (n : ℕ) :
    (Machine.run step c (List.replicate n (.answer 0 ZOK [] ZOK))).invoked =
        c.invoked ++ List.replicate n ⟨t, callback, []⟩ ∧
      (Machine.run step c (List.replicate n (.answer 0 ZOK [] ZOK))).delivered = c.delivered := by
  induction n generalizing c with
  | zero => exact ⟨(List.append_nil _).symm, rfl⟩
  | succ n ih =>
    have hstep : step c (.answer 0 ZOK [] ZOK) = { c with
        requests := [⟨t, some callback, false⟩], invoked := c.invoked ++ [⟨t, callback, []⟩] } := by
      simp [step, Client.answer, hrequests, Client.watchCompletion, Client.notify, Client.get, hhandle]
    rw [List.replicate_succ, Machine.run_cons, hstep]
    obtain ⟨hinvoked, hdelivered⟩ := ih (c := { c with
      requests := [⟨t, some callback, false⟩], invoked := c.invoked ++ [⟨t, callback, []⟩] }) hhandle rfl
    refine ⟨?_, hdelivered⟩
    rw [hinvoked, List.append_assoc, List.singleton_append, ← List.replicate_succ]

/-- a server that answers every get with an error is asked again each time, without an event -/
theorem asks_again {c : Client} {r : Request} {rc : ℤ} (hrc : rc ≠ ZOK) (hhandle : c.handle = true)
    (hrequests : c.requests = [r]) (hevent : r.event = false) (n : ℕ) :
    Machine.run step c (List.replicate n (.answer 0 rc [] ZOK)) = c := by
  have hstep : step c (.answer 0 rc [] ZOK) = c := by
    obtain ⟨topic, callback, event⟩ := r
    obtain rfl : event = false := hevent
    cases c with
    | mk handle dataWatchers childrenWatchers requests delivered invoked =>
      obtain rfl : handle = true := hhandle
      obtain rfl : requests = [⟨topic, callback, false⟩] := hrequests
      cases callback <;> simp [step, Client.answer, Client.watchCompletion, Client.notify, Client.get, hrc]
  induction n with
  | zero => rfl
  | succ n ih => rw [List.replicate_succ, Machine.run_cons, hstep, ih]

/-- one event for a watched path, whose get is answered, as is the get of its completion -/
theorem notified_twice : ¬ Quiesces (Machine.run step init
    [.setChildrenWatcher "/a" (some 1), .event .child (some "/a") ZOK, .answer 0 ZOK [] ZOK, .answer 0 ZOK [] ZOK]) := by
  intro h
  have hcount := h.notified (.children "/a")
  revert hcount
  decide

end Watchers

end MCoroRpc
