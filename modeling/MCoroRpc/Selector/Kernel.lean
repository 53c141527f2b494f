/-
The selector next to the interest set of the kernel (src/epoll.cc).

add_reader and add_writer choose between EPOLL_CTL_ADD and EPOLL_CTL_MOD by the bits that are left in the Event, cancel_wait
between EPOLL_CTL_MOD and EPOLL_CTL_DEL. The kernel refuses to add what it has and to change what it does not have; a
registration may be denied for other reasons too (`deny`: no memory, no room, an fd that cannot be waited for).

- `Registry`, `step`: the selector, the kernel, a log of the calls of epoll_ctl, and the waits as their owners see them.
- `Inv`: the maps belong together, the kernel has the events with their bits, and the owners see what is there.
- `step_inv`: with ids that are used once, every step keeps that, unless a registration is denied for an fd that has an
  event.
- `Synced`, `synced`: if in addition no id is 0 and nothing is denied, every epoll_ctl uses the right operation and succeeds.
-/
import MCoroRpc.Core.Machine
import MCoroRpc.Selector.Registry

namespace MCoroRpc

open Multimap

/-! ## The kernel -/

/-- what epoll_ctl is asked for -/
inductive EpollCtl where
  | add
  | mod
  | del
deriving DecidableEq, Repr

def CtlOp.toCtl : CtlOp → EpollCtl
  | .add => .add
  | .mod => .mod

/-- the bits that the kernel has for an fd -/
structure Mask where
  epollin : Bool
  epollout : Bool
  epollet : Bool
deriving DecidableEq, Repr

def Event.mask (ev : Event) : Mask := ⟨ev.epollin, ev.epollout, ev.epollet⟩

abbrev Interest := Finmap fun _ : ℤ => Mask

/-- epoll_ctl for an fd that is open; `none` is -1, with EEXIST or ENOENT -/
def epollCtl (op : EpollCtl) (fd : ℤ) (m : Mask) (k : Interest) : Option Interest :=
  match op with
  | .add => if k.lookup fd = none then some (k.insert fd m) else none
  | .mod => if k.lookup fd = none then none else some (k.insert fd m)
  | .del => if k.lookup fd = none then none else some (k.erase fd)

/-- a call of epoll_ctl -/
structure Call where
  op : EpollCtl
  /-- the kernel had the fd -/
  contained : Bool
  succeeded : Bool
deriving DecidableEq, Repr

/-- the selector, the kernel, and the waits of those who have used the selector -/
structure Registry where
  epoll : Epoll
  interest : Interest
  /-- every epoll_ctl so far -/
  calls : List Call
  /-- of every registration so far: has epoll_ctl succeeded, and what has been returned -/
  answers : List (Bool × Bool)
  /-- every id that a registration has been given -/
  used : List ℕ
  /-- who waits, for whom a registration that has failed changes nothing -/
  waits : ℤ → Dir → Option ℕ

namespace Registry

open Epoll

inductive Label where
  | addWaiter (d : Dir) (fd : ℤ) (waitId : ℕ) (deny : Bool)
  | cancelWait (waitId : ℕ)
deriving DecidableEq, Repr

def make : Registry := ⟨.make, ∅, [], [], [], fun _ _ => none⟩

/-- the operation that a registration chooses -/
def ctlOp (fd : ℤ) (e : Epoll) : CtlOp := if (e.event fd).blank then .add else .mod

/-- epoll_ctl, unless it is denied -/
def attempt (deny : Bool) (op : EpollCtl) (fd : ℤ) (m : Mask) (s : Registry) : Option Interest :=
  if deny then none else epollCtl op fd m s.interest

/-- add_reader and add_writer -/
def addWaiter (d : Dir) (fd : ℤ) (waitId : ℕ) (deny : Bool) (s : Registry) : Registry :=
  let m := ((s.epoll.event fd).register d waitId).mask
  let op := (ctlOp fd s.epoll).toCtl
  let r := s.attempt deny op fd m
  let a := s.epoll.add d fd waitId fun op => (s.attempt deny op.toCtl fd m).isSome
  { epoll := a.2
    interest := r.getD s.interest
    calls := s.calls ++ [⟨op, (s.interest.lookup fd).isSome, r.isSome⟩]
    answers := s.answers ++ [(r.isSome, a.1)]
    used := s.used ++ [waitId]
    waits := if r.isSome then fun fd' d' => if fd' = fd ∧ d' = d then some waitId else s.waits fd' d' else s.waits }

/-- the epoll_ctl of cancel_wait -/
def cancelCtl (waitId : ℕ) (e : Epoll) : Option (EpollCtl × ℤ × Mask) :=
  match e.waitToFd.lookup waitId with
  | none => none
  | some fd =>
    let ev := e.event fd
    let ev' := ev.withdrawBoth waitId
    if ev.reader ≠ waitId ∧ ev.writer ≠ waitId then none
    else if ev'.epollin = false ∧ ev'.epollout = false then some (.del, fd, ev'.mask)
    else some (.mod, fd, ev'.mask)

def cancelWait (waitId : ℕ) (s : Registry) : Registry :=
  let s' := { s with
    epoll := s.epoll.cancelWait waitId, waits := fun fd d => if s.waits fd d = some waitId then none else s.waits fd d }
  match cancelCtl waitId s.epoll with
  | none => s'
  | some (op, fd, m) =>
    let r := s.attempt false op fd m
    { s' with
      interest := r.getD s.interest, calls := s.calls ++ [⟨op, (s.interest.lookup fd).isSome, r.isSome⟩] }

def step (s : Registry) : Label → Registry
  | .addWaiter d fd waitId deny => s.addWaiter d fd waitId deny
  | .cancelWait waitId => s.cancelWait waitId

/-- an id that has not been used -/
def Fresh (s : Registry) : Label → Prop
  | .addWaiter _ _ waitId _ => waitId ∉ s.used
  | .cancelWait _ => True

/-- the id is not 0, and epoll_ctl has no reason to refuse but the state of its set -/
def Allowed : Label → Prop
  | .addWaiter _ _ waitId deny => waitId ≠ 0 ∧ deny = false
  | .cancelWait _ => True

/-- a registration that is denied is one for an fd without an event -/
def Alone (s : Registry) : Label → Prop
  | .addWaiter _ fd _ deny => deny = true → s.epoll.eventMap.lookup fd = none
  | .cancelWait _ => True

@[simp] theorem addWaiter_used {s : Registry} {d : Dir} {fd : ℤ} {w : ℕ} {deny : Bool} :
    (s.addWaiter d fd w deny).used = s.used ++ [w] := rfl

theorem cancelWait_epoll (s : Registry) (w : ℕ) : (s.cancelWait w).epoll = s.epoll.cancelWait w ∧
    (s.cancelWait w).used = s.used ∧ (s.cancelWait w).answers = s.answers ∧
      (s.cancelWait w).waits = fun fd d => if s.waits fd d = some w then none else s.waits fd d := by
  unfold cancelWait
  cases cancelCtl w s.epoll with
  | none => exact ⟨rfl, rfl, rfl, rfl⟩
  | some c => exact ⟨rfl, rfl, rfl, rfl⟩

@[simp] theorem cancelWait_used {s : Registry} {w : ℕ} : (s.cancelWait w).used = s.used := (cancelWait_epoll s w).2.1

/-! ## The invariant -/

structure Inv (s : Registry) : Prop where
  tracks : Tracks s.epoll
  /-- the kernel has the events with their bits -/
  kernel : ∀ fd, s.interest.lookup fd = (s.epoll.eventMap.lookup fd).map Event.mask
  used : ∀ fd w, s.epoll.waitToFd.lookup w = some fd → w ∈ s.used
  waits : ∀ d fd w, Waits s.epoll d fd w ↔ s.waits fd d = some w

variable {s : Registry} {d : Dir} {fd : ℤ} {w : ℕ} {deny : Bool}

theorem make_inv : Inv make := by
  refine ⟨make_tracks, fun fd => by simp [make, Epoll.make], fun fd w h => absurd h lookup_empty_ne, fun d fd w => ?_⟩
  simp [make, Waits, make_event]

theorem Inv.contained (h : Inv s) (fd : ℤ) : s.interest.lookup fd = none ↔ s.epoll.eventMap.lookup fd = none := by
  rw [h.kernel, Option.map_eq_none_iff]

theorem Inv.lookup_none (h : Inv s) (hnew : w ∉ s.used) : s.epoll.waitToFd.lookup w = none := by
  by_contra hne
  obtain ⟨fd, hfd⟩ := Option.ne_none_iff_exists'.1 hne
  exact hnew (h.used fd w hfd)

theorem Inv.not_waits (h : Inv s) (hnew : w ∉ s.used) (d : Dir) (fd : ℤ) : ¬ Waits s.epoll d fd w :=
  fun hw => hnew (h.used fd w (h.tracks.back hw))

theorem add_fst {e : Epoll} {ctl : CtlOp → Bool} : (e.add d fd w ctl).1 = ctl (ctlOp fd e) := by
  unfold Epoll.add ctlOp
  dsimp only
  cases (e.event fd).blank <;> split_ifs <;> simp_all

/-- the operation has been the right one, and the kernel has taken it -/
def Right (c : Call) : Prop := (c.op = .add ↔ c.contained = false) ∧ c.succeeded = true

/-! ## Registration -/

/-- the operation that is chosen is the right one, so the kernel takes it -/
theorem Inv.attempt_add (h : Inv s) (fd : ℤ) (m : Mask) :
    s.attempt false (ctlOp fd s.epoll).toCtl fd m = some (s.interest.insert fd m) ∧
      ((ctlOp fd s.epoll).toCtl = .add ↔ (s.interest.lookup fd).isSome = false) := by
  by_cases hb : (s.epoll.event fd).blank = true
  · have hnone : s.interest.lookup fd = none := (h.contained fd).2 ((h.tracks.blank_iff fd).1 hb)
    simp [ctlOp, hb, CtlOp.toCtl, attempt, epollCtl, hnone]
  · have hsome : s.interest.lookup fd ≠ none := fun hn => hb ((h.tracks.blank_iff fd).2 ((h.contained fd).1 hn))
    simp [ctlOp, hb, CtlOp.toCtl, attempt, epollCtl, hsome]

theorem addWaiter_ok (h : Inv s) (d : Dir) (fd : ℤ) (w : ℕ) : ∃ ctl c, (s.epoll.add d fd w ctl).1 = true ∧ Right c ∧
    s.addWaiter d fd w false =
      ⟨(s.epoll.add d fd w ctl).2, s.interest.insert fd ((s.epoll.event fd).register d w).mask, s.calls ++ [c],
        s.answers ++ [(true, true)], s.used ++ [w],
        fun fd' d' => if fd' = fd ∧ d' = d then some w else s.waits fd' d'⟩ := by
  obtain ⟨hr, hop⟩ := h.attempt_add fd ((s.epoll.event fd).register d w).mask
  have hfst : (s.epoll.add d fd w fun op =>
      (s.attempt false op.toCtl fd ((s.epoll.event fd).register d w).mask).isSome).1 = true := by
    rw [add_fst, hr, Option.isSome_some]
  refine ⟨_, ⟨(ctlOp fd s.epoll).toCtl, (s.interest.lookup fd).isSome, true⟩, hfst, ⟨hop, rfl⟩, ?_⟩
  simp only [addWaiter, hr, hfst, Option.isSome_some, Option.getD_some, if_true]

theorem addWaiter_denied (s : Registry) (d : Dir) (fd : ℤ) (w : ℕ) : ∃ ctl c, (s.epoll.add d fd w ctl).1 = false ∧
    s.addWaiter d fd w true =
      ⟨(s.epoll.add d fd w ctl).2, s.interest, s.calls ++ [c], s.answers ++ [(false, false)], s.used ++ [w],
        s.waits⟩ := by
  have hfst : (s.epoll.add d fd w fun op =>
      (s.attempt true op.toCtl fd ((s.epoll.event fd).register d w).mask).isSome).1 = false := by
    rw [add_fst]
    rfl
  refine ⟨_, ⟨(ctlOp fd s.epoll).toCtl, (s.interest.lookup fd).isSome, false⟩, hfst, ?_⟩
  simp only [addWaiter, hfst]
  rfl

theorem Inv.addWaiter (h : Inv s) (hnew : w ∉ s.used) : Inv (s.addWaiter d fd w false) := by
  obtain ⟨ctl, c, hok, -, he⟩ := addWaiter_ok h d fd w
  rw [he]
  refine ⟨h.tracks.add (h.not_waits hnew) hok, fun fd' => ?_, fun fd' w' hl => ?_, fun d' fd' w' => ?_⟩
  · simp only [add_ok hok, lookup_insert_ite]
    split_ifs
    · rfl
    · exact h.kernel fd'
  · rw [add_back hok] at hl
    split_ifs at hl with hw
    · exact List.mem_append_right _ (List.mem_singleton.2 hw)
    · exact List.mem_append_left _ (h.used fd' w' hl)
  · rw [add_waits hok, h.waits]
    dsimp only
    split_ifs with hplace
    · simp [hplace, eq_comm]
    · simp [hplace]

theorem Inv.addWaiter_alone (h : Inv s) (hnew : w ∉ s.used) (hnone : s.epoll.eventMap.lookup fd = none) :
    Inv (s.addWaiter d fd w true) := by
  obtain ⟨ctl, c, hfail, he⟩ := addWaiter_denied s d fd w
  rw [he, add_failed (h.lookup_none hnew) hfail hnone]
  exact ⟨h.tracks, h.kernel, fun fd' w' hl => List.mem_append_left _ (h.used fd' w' hl), h.waits⟩

/-! ## Cancellation -/

section
variable {e : Epoll} (hl : e.waitToFd.lookup w = some fd)
include hl

/-- the id 0, in a direction that somebody else has by now -/
theorem cancelCtl_displaced (hno : ∀ d, (e.event fd).waiter d ≠ w) : cancelCtl w e = none := by
  rw [cancelCtl, hl]
  dsimp only
  rw [if_pos (Event.other_iff.2 hno)]

/-- the last direction -/
theorem cancelCtl_last (hd : (e.event fd).waiter d = w)
    (hoff : ∀ d, ((e.event fd).withdrawBoth w).watches d = false) :
    cancelCtl w e = some (.del, fd, ((e.event fd).withdrawBoth w).mask) := by
  rw [cancelCtl, hl]
  dsimp only
  rw [if_neg fun ho => Event.other_iff.1 ho d hd, if_pos (Event.off_iff.2 hoff)]

/-- one direction of two -/
theorem cancelCtl_one (hd : (e.event fd).waiter d = w) {d' : Dir}
    (hon : ((e.event fd).withdrawBoth w).watches d' = true) :
    cancelCtl w e = some (.mod, fd, ((e.event fd).withdrawBoth w).mask) := by
  have hnot : ¬ ∀ d, ((e.event fd).withdrawBoth w).watches d = false := by
    intro hoff
    rw [hoff d'] at hon
    cases hon
  rw [cancelCtl, hl]
  dsimp only
  rw [if_neg fun ho => Event.other_iff.1 ho d hd, if_neg fun hoff => hnot (Event.off_iff.1 hoff)]

end

/-- the kernel's set has followed the events; if no wait has the id 0, by the right operations -/
structure Followed (s s' : Registry) : Prop where
  kernel : ∀ fd, s'.interest.lookup fd = (s'.epoll.eventMap.lookup fd).map Event.mask
  calls : ∃ cs, s'.calls = s.calls ++ cs ∧ (s.epoll.waitToFd.lookup 0 = none → ∀ c ∈ cs, Right c)

theorem Inv.followed_quiet (h : Inv s) (hctl : cancelCtl w s.epoll = none)
    (he : (s.epoll.cancelWait w).eventMap = s.epoll.eventMap) : Followed s (s.cancelWait w) := by
  simp only [Registry.cancelWait, hctl]
  exact ⟨by simp only [he]; exact h.kernel, [], by simp, by simp⟩

theorem Inv.followed_del (h : Inv s) {m : Mask} (hl : s.epoll.waitToFd.lookup w = some fd)
    (hctl : cancelCtl w s.epoll = some (.del, fd, m))
    (he : (s.epoll.cancelWait w).eventMap = s.epoll.eventMap.erase fd) : Followed s (s.cancelWait w) := by
  simp only [Registry.cancelWait, hctl, attempt, epollCtl, Bool.false_eq_true, if_false]
  refine ⟨fun fd' => ?_, _, rfl, fun h0 => ?_⟩
  · simp only [he, lookup_erase_ite]
    -- if the kernel does not have the fd, there is no event either
    by_cases hnone : s.interest.lookup fd = none
    · rw [if_pos hnone, Option.getD_none]
      split_ifs with hfd
      · rw [hfd, hnone]
        rfl
      · exact h.kernel fd'
    · rw [if_neg hnone, Option.getD_some, lookup_erase_ite]
      split_ifs
      · rfl
      · exact h.kernel fd'
  · have hw0 : w ≠ 0 := by
      rintro rfl
      rw [h0] at hl
      cases hl
    obtain ⟨d, hwait⟩ := h.tracks.only hw0 hl
    have hsome : s.interest.lookup fd ≠ none := by
      rw [Ne, h.contained]
      exact (h.tracks.occupied fd).2 ⟨d, hwait.1⟩
    rw [List.forall_mem_singleton]
    simp [Right, hsome]

theorem Inv.followed_mod (h : Inv s) {ev : Event} (hon : (s.epoll.event fd).watches d = true)
    (hctl : cancelCtl w s.epoll = some (.mod, fd, ev.mask))
    (he : (s.epoll.cancelWait w).eventMap = s.epoll.eventMap.insert fd ev) : Followed s (s.cancelWait w) := by
  have hsome : s.interest.lookup fd ≠ none := by
    rw [Ne, h.contained]
    exact (h.tracks.occupied fd).2 ⟨d, hon⟩
  simp only [Registry.cancelWait, hctl, attempt, epollCtl, hsome, Bool.false_eq_true, if_false, Option.getD_some]
  refine ⟨fun fd' => ?_, _, rfl, fun _ => ?_⟩
  · simp only [he, lookup_insert_ite]
    split_ifs
    · rfl
    · exact h.kernel fd'
  · rw [List.forall_mem_singleton]
    simp [Right, hsome]

/-- cancel_wait changes the kernel's set as it changes the events; for an id other than 0 with the right operation -/
theorem Inv.cancelWait_followed (h : Inv s) (w : ℕ) : Followed s (s.cancelWait w) := by
  rcases h.tracks.cancelWait_cases w with ⟨hl, he⟩ | ⟨fd, hl, ⟨hno, -, he⟩ | ⟨⟨d, hd⟩, hoff, he⟩ | ⟨⟨d, hd⟩, ⟨d', hon⟩, he⟩⟩
  · exact h.followed_quiet (by rw [cancelCtl, hl]) (by rw [he])
  · exact h.followed_quiet (cancelCtl_displaced hl hno) (by rw [he])
  · exact h.followed_del hl (cancelCtl_last hl hd hoff) (by rw [he])
  · have hbefore : (s.epoll.event fd).watches d' = true := by
      rw [Event.withdrawBoth_watches] at hon
      split_ifs at hon
      exact hon
    exact h.followed_mod hbefore (cancelCtl_one hl hd hon) (by rw [he])

theorem Inv.cancelWait (h : Inv s) (w : ℕ) : Inv (s.cancelWait w) := by
  obtain ⟨hepoll, hused, -, hwaits⟩ := cancelWait_epoll s w
  refine ⟨by rw [hepoll]; exact h.tracks.cancelWait w, ?_, fun fd w' hl => ?_, fun d fd w' => ?_⟩
  · exact (h.cancelWait_followed w).kernel
  · rw [hepoll, h.tracks.cancelWait_lookup] at hl
    rw [hused]
    split_ifs at hl
    exact h.used fd w' hl
  · rw [hepoll, hwaits, h.tracks.cancelWait_waits, h.waits]
    dsimp only
    by_cases hw : s.waits fd d = some w
    · rw [if_pos hw, hw]
      simp [eq_comm]
    · rw [if_neg hw]
      exact ⟨fun hw' => hw'.1, fun hw' => ⟨hw', fun he => hw (he ▸ hw')⟩⟩

/-! ## Runs -/

/-- the two maps and the kernel are in step, and every epoll_ctl so far has used the right operation and succeeded -/
structure Synced (s : Registry) : Prop where
  calls : ∀ c ∈ s.calls, (c.op = .add ↔ c.contained = false) ∧ c.succeeded = true
  /-- m_wait_to_fd leads from the reader and the writer of an Event to its fd -/
  waitToFd : ∀ w fd, w ≠ 0 → (s.epoll.waitToFd.lookup w = some fd ↔
    ∃ ev, s.epoll.eventMap.lookup fd = some ev ∧ (ev.reader = w ∨ ev.writer = w))
  /-- 0 is no id -/
  zero : s.epoll.waitToFd.lookup 0 = none
  event : ∀ fd, (∃ ev, s.epoll.eventMap.lookup fd = some ev) ↔
    ∃ ev, s.epoll.eventMap.lookup fd = some ev ∧ (ev.reader ≠ 0 ∨ ev.writer ≠ 0)
  /-- the kernel has the fds of the Events, each with the bits of the directions that are waited for -/
  kernel : ∀ fd, (s.epoll.eventMap.lookup fd = none ∧ s.interest.lookup fd = none) ∨
    ∃ ev m, s.epoll.eventMap.lookup fd = some ev ∧ s.interest.lookup fd = some m ∧
      (m.epollin = true ↔ ev.reader ≠ 0) ∧ (m.epollout = true ↔ ev.writer ≠ 0)

/-- where no wait has the id 0, it means that nobody waits -/
theorem Inv.watches_iff (h : Inv s) (h0 : s.epoll.waitToFd.lookup 0 = none) (fd : ℤ) (d : Dir) :
    (s.epoll.event fd).watches d = true ↔ (s.epoll.event fd).waiter d ≠ 0 := by
  refine ⟨fun hon he => ?_, fun hne => (h.tracks.waits_of_ne hne).1⟩
  rw [h.tracks.back ⟨hon, he⟩] at h0
  cases h0

theorem Inv.synced_of_right (h : Inv s) (hcalls : ∀ c ∈ s.calls, Right c) (h0 : s.epoll.waitToFd.lookup 0 = none) : Synced s := by
  have hiff := h.watches_iff h0
  refine ⟨hcalls, fun w fd hw => ?_, h0, fun fd => ?_, fun fd => ?_⟩
  · constructor
    · intro hl
      obtain ⟨d, hd⟩ := h.tracks.only hw hl
      obtain ⟨ev, hev⟩ := Option.ne_none_iff_exists'.1 ((h.tracks.occupied fd).2 ⟨d, hd.1⟩)
      rw [Waits, event_of_lookup hev] at hd
      refine ⟨ev, hev, ?_⟩
      cases d with
      | read => exact .inl hd.2
      | write => exact .inr hd.2
    · rintro ⟨ev, hev, hwait⟩
      obtain ⟨d, hd⟩ : ∃ d, (s.epoll.event fd).waiter d = w := by
        rw [event_of_lookup hev]
        rcases hwait with hwait | hwait
        · exact ⟨.read, hwait⟩
        · exact ⟨.write, hwait⟩
      exact h.tracks.back ⟨(hiff fd d).2 (by rw [hd]; exact hw), hd⟩
  · constructor
    · rintro ⟨ev, hev⟩
      obtain ⟨d, hd⟩ := (h.tracks.occupied fd).1 (by rw [hev]; exact Option.some_ne_none ev)
      rw [hiff, event_of_lookup hev] at hd
      refine ⟨ev, hev, ?_⟩
      cases d with
      | read => exact .inl hd
      | write => exact .inr hd
    · rintro ⟨ev, hev, -⟩
      exact ⟨ev, hev⟩
  · have hk := h.kernel fd
    cases hev : s.epoll.eventMap.lookup fd with
    | none => exact .inl ⟨rfl, by rw [hk, hev, Option.map_none]⟩
    | some ev =>
      have hmask := hiff fd
      rw [event_of_lookup hev] at hmask
      exact .inr ⟨ev, ev.mask, rfl, by rw [hk, hev, Option.map_some], hmask .read, hmask .write⟩

theorem step_inv {l : Label} (h : Inv s) (hl : Fresh s l) (ha : Alone s l) : Inv (s.step l) := by
  cases l with
  | addWaiter d fd w deny =>
    cases deny with
    | false => exact h.addWaiter hl
    | true => exact h.addWaiter_alone hl (ha rfl)
  | cancelWait w => exact h.cancelWait w

theorem step_calls {l : Label} (h : Inv s) (ha : Allowed l) (h0 : s.epoll.waitToFd.lookup 0 = none)
    (hc : ∀ c ∈ s.calls, Right c) : ∀ c ∈ (s.step l).calls, Right c := by
  cases l with
  | addWaiter d fd w deny =>
    obtain ⟨-, rfl⟩ := ha
    obtain ⟨ctl, c, -, hright, he⟩ := addWaiter_ok h d fd w
    rw [step, he, List.forall_mem_append, List.forall_mem_singleton]
    exact ⟨hc, hright⟩
  | cancelWait w =>
    obtain ⟨cs, he, hright⟩ := (h.cancelWait_followed w).calls
    rw [step, he, List.forall_mem_append]
    exact ⟨hc, hright h0⟩

theorem step_zero {l : Label} (h : Inv s) (ha : Allowed l) (h0 : s.epoll.waitToFd.lookup 0 = none) :
    (s.step l).epoll.waitToFd.lookup 0 = none := by
  cases l with
  | addWaiter d fd w deny =>
    obtain ⟨hw, rfl⟩ := ha
    obtain ⟨ctl, c, hok, -, he⟩ := addWaiter_ok h d fd w
    rw [step, he, add_back hok, if_neg (Ne.symm hw)]
    split_ifs
    · rfl
    · exact h0
  | cancelWait w =>
    rw [step, (cancelWait_epoll s w).1, h.tracks.cancelWait_lookup]
    split_ifs
    · rfl
    · exact h0

theorem alone_of_allowed {l : Label} (h : Allowed l) : Alone s l := by
  cases l with
  | addWaiter d fd w deny =>
    obtain ⟨-, rfl⟩ := h
    exact (by nofun)
  | cancelWait w => trivial

/-- **The registry and the kernel**: in every run of registrations and cancellations, with ids that are not 0 and are
used once and for fds that epoll_ctl has no reason to refuse, they are in step after every call. -/
theorem synced {ls : List Label} (h : Machine.Along step (fun s l => Fresh s l ∧ Allowed l) make ls) :
    Synced (Machine.run step make ls) := by
  have hrun : Inv (Machine.run step make ls) ∧ (∀ c ∈ (Machine.run step make ls).calls, Right c) ∧
      (Machine.run step make ls).epoll.waitToFd.lookup 0 = none := by
    refine Machine.inv_run (I := fun s => Inv s ∧ (∀ c ∈ s.calls, Right c) ∧ s.epoll.waitToFd.lookup 0 = none) ?_ h
      ⟨make_inv, by simp [make], Finmap.lookup_empty 0⟩
    intro s l ⟨hfresh, hallowed⟩ ⟨hinv, hcalls, h0⟩
    exact ⟨step_inv hinv hfresh (alone_of_allowed hallowed), step_calls hinv hallowed h0 hcalls,
      step_zero hinv hallowed h0⟩
  exact hrun.1.synced_of_right hrun.2.1 hrun.2.2

/-- both directions of an fd, a waiter displaced, a direction given up and taken again -/
abbrev bothDirections : List Label :=
  [.addWaiter .read 5 1 false, .addWaiter .write 5 2 false, .addWaiter .read 5 3 false, .cancelWait 3, .cancelWait 1,
    .addWaiter .read 5 4 false, .cancelWait 2, .cancelWait 4, .addWaiter .write 5 6 false]

theorem synced_bothDirections : Machine.Along step (fun s l => Fresh s l ∧ Allowed l) make bothDirections ∧
    Synced (Machine.run step make bothDirections) := by
  have h : Machine.Along step (fun s l => Fresh s l ∧ Allowed l) make bothDirections := by
    simp only [Machine.Along, Fresh, Allowed, step, addWaiter_used, cancelWait_used]
    decide
  exact ⟨h, synced h⟩

end Registry

end MCoroRpc
