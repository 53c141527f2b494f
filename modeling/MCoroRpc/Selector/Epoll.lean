/-
The selector of an event loop (include/selector/epoll.hpp, src/epoll.cc).

An `Event` holds who waits for an fd, one waiter for each direction; `waitToFd` leads back from a wait id to the fd. What
epoll_ctl says to a registration is up to the environment; what it says to a cancellation is not looked at.

- `Linked e d fd waitId`: the waiter is the one of its direction, and epoll watches that direction.
- `add_linked`, `cancelWait_linked`: what the operations keep of the links of others.
-/
import MCoroRpc.Core.Multimap

namespace MCoroRpc

open Multimap

/-- what is waited for -/
inductive Dir where
  | read
  | write
deriving DecidableEq, Repr

/-- what an fd is registered with: the waiters, and the bits of `event.events` -/
structure Event where
  reader : ℕ := 0
  writer : ℕ := 0
  epollin : Bool := false
  epollout : Bool := false
  epollet : Bool := false
deriving DecidableEq, Repr

namespace Event

def waiter (d : Dir) (ev : Event) : ℕ :=
  match d with
  | .read => ev.reader
  | .write => ev.writer

def watches (d : Dir) (ev : Event) : Bool :=
  match d with
  | .read => ev.epollin
  | .write => ev.epollout

/-- `event.events` is 0 -/
def blank (ev : Event) : Bool := !ev.epollin && !ev.epollout && !ev.epollet

def register (d : Dir) (waitId : ℕ) (ev : Event) : Event :=
  match d with
  | .read => { ev with epollin := true, epollet := true, reader := waitId }
  | .write => { ev with epollout := true, epollet := true, writer := waitId }

/-- `waitId` is taken out of a direction that it waits for -/
def withdraw (d : Dir) (waitId : ℕ) (ev : Event) : Event :=
  if ev.waiter d = waitId then
    match d with
    | .read => { ev with reader := 0, epollin := false }
    | .write => { ev with writer := 0, epollout := false }
  else ev

end Event

inductive CtlOp where
  | add
  | mod
deriving DecidableEq, Repr

structure Epoll where
  /-- `m_event_map` -/
  eventMap : Finmap fun _ : ℤ => Event
  /-- `m_wait_to_fd` -/
  waitToFd : Finmap fun _ : ℕ => ℤ

namespace Epoll

def make : Epoll := ⟨∅, ∅⟩

/-- `m_event_map[fd]` -/
def event (e : Epoll) (fd : ℤ) : Event := (e.eventMap.lookup fd).getD {}

/-- a registration; `ctl` is what epoll_ctl says -/
def add (d : Dir) (fd : ℤ) (waitId : ℕ) (ctl : CtlOp → Bool) (e : Epoll) : Bool × Epoll :=
  let ev := e.event fd
  let waitToFd := if ev.waiter d ≠ 0 then e.waitToFd.erase (ev.waiter d) else e.waitToFd
  let op := if ev.blank then CtlOp.add else .mod
  if ctl op then (true, ⟨e.eventMap.insert fd (ev.register d waitId), waitToFd.insert waitId fd⟩)
  else (false, ⟨e.eventMap.erase fd, (waitToFd.insert waitId fd).erase waitId⟩)

def addReader := add .read

def addWriter := add .write

def cancelWait (waitId : ℕ) (e : Epoll) : Epoll :=
  match e.waitToFd.lookup waitId with
  | none => e
  | some fd =>
    let ev := e.event fd
    let ev' := (ev.withdraw .read waitId).withdraw .write waitId
    if ev.reader ≠ waitId ∧ ev.writer ≠ waitId then ⟨e.eventMap.insert fd ev, e.waitToFd.erase waitId⟩
    else if ev'.epollin = false ∧ ev'.epollout = false then ⟨e.eventMap.erase fd, e.waitToFd.erase waitId⟩
    else ⟨e.eventMap.insert fd ev', e.waitToFd.erase waitId⟩

/-- `is_stop` -/
def isStop (e : Epoll) : Bool := e.eventMap.keys = ∅

/-- what epoll_wait says of an fd -/
structure Report where
  fd : ℤ
  epollin : Bool
  epollout : Bool
deriving DecidableEq, Repr

def Report.has (d : Dir) (r : Report) : Bool :=
  match d with
  | .read => r.epollin
  | .write => r.epollout

/-- the waiters that a report makes ready -/
def woken (e : Epoll) (r : Report) : List ℕ :=
  match e.eventMap.lookup r.fd with
  | none => []
  | some ev =>
    (if ev.reader ≠ 0 ∧ r.epollin then [ev.reader] else []) ++ if ev.writer ≠ 0 ∧ r.epollout then [ev.writer] else []

/-! ## Links -/

/-- the waiter is the one of its direction, and epoll watches that direction -/
structure Linked (e : Epoll) (d : Dir) (fd : ℤ) (waitId : ℕ) : Prop where
  back : e.waitToFd.lookup waitId = some fd
  waiter : ∃ ev, e.eventMap.lookup fd = some ev ∧ ev.waiter d = waitId ∧ ev.watches d = true

/-- no id waits in two places -/
def Single (e : Epoll) : Prop :=
  ∀ d fd d' fd', (e.event fd).waiter d ≠ 0 → (e.event fd).waiter d = (e.event fd').waiter d' → d = d' ∧ fd = fd'

/-- the ids that wait are less than `n` -/
def Below (n : ℕ) (e : Epoll) : Prop := ∀ d fd, (e.event fd).waiter d ≠ 0 → (e.event fd).waiter d < n

variable {e : Epoll} {d d' : Dir} {fd fd' : ℤ} {w w' n : ℕ} {ctl : CtlOp → Bool}

theorem linked_iff : Linked e d fd w ↔
    e.waitToFd.lookup w = some fd ∧ (e.event fd).waiter d = w ∧ (e.event fd).watches d = true := by
  constructor
  · intro ⟨hback, ev, hev, hwait, hwatch⟩
    have he : e.event fd = ev := by
      simp only [event, hev, Option.getD_some]
    rw [he]
    exact ⟨hback, hwait, hwatch⟩
  · intro ⟨hback, hwait, hwatch⟩
    refine ⟨hback, ?_⟩
    unfold event at hwait hwatch
    cases hev : e.eventMap.lookup fd with
    | none =>
      rw [hev] at hwatch
      cases d <;> cases hwatch
    | some ev =>
      rw [hev] at hwait hwatch
      exact ⟨ev, rfl, hwait, hwatch⟩

theorem woken_linked (h : Linked e d fd w) (hw : w ≠ 0) {r : Report} (hfd : r.fd = fd) (hr : r.has d = true) :
    w ∈ e.woken r := by
  obtain ⟨ev, hev, rfl, -⟩ := h.waiter
  subst hfd
  unfold woken
  rw [hev]
  cases d with
  | read => exact List.mem_append_left _ (by rw [if_pos ⟨hw, hr⟩]; exact List.mem_singleton_self _)
  | write => exact List.mem_append_right _ (by rw [if_pos ⟨hw, hr⟩]; exact List.mem_singleton_self _)

/-- only waiters are made ready -/
theorem mem_woken {r : Report} (h : w ∈ e.woken r) : w ≠ 0 ∧ ∃ d, (e.event r.fd).waiter d = w := by
  unfold woken at h
  unfold event
  cases hev : e.eventMap.lookup r.fd with
  | none =>
    rw [hev] at h
    cases h
  | some ev =>
    rw [hev, List.mem_append] at h
    rcases h with h | h
    · split_ifs at h with hc
      · obtain rfl := List.mem_singleton.1 h
        exact ⟨hc.1, .read, rfl⟩
      · cases h
    · split_ifs at h with hc
      · obtain rfl := List.mem_singleton.1 h
        exact ⟨hc.1, .write, rfl⟩
      · cases h

/-! ## Registration -/

theorem event_insert {ev : Event} {back : Finmap fun _ : ℕ => ℤ} :
    event ⟨e.eventMap.insert fd ev, back⟩ fd' = if fd' = fd then ev else e.event fd' := by
  unfold event
  rw [lookup_insert_ite]
  split_ifs <;> rfl

theorem event_erase {back : Finmap fun _ : ℕ => ℤ} :
    event ⟨e.eventMap.erase fd, back⟩ fd' = if fd' = fd then {} else e.event fd' := by
  unfold event
  rw [lookup_erase_ite]
  split_ifs <;> rfl

theorem register_self (ev : Event) : (ev.register d w).waiter d = w ∧ (ev.register d w).watches d = true := by
  cases d <;> exact ⟨rfl, rfl⟩

theorem register_other (ev : Event) (h : d' ≠ d) :
    (ev.register d w).waiter d' = ev.waiter d' ∧ (ev.register d w).watches d' = ev.watches d' := by
  cases d <;> cases d' <;> first | exact absurd rfl h | exact ⟨rfl, rfl⟩

/-- a registration that epoll_ctl accepts -/
theorem add_ok (h : (e.add d fd w ctl).1 = true) :
    (e.add d fd w ctl).2 = ⟨e.eventMap.insert fd ((e.event fd).register d w),
      (if (e.event fd).waiter d ≠ 0 then e.waitToFd.erase ((e.event fd).waiter d) else e.waitToFd).insert w fd⟩ := by
  unfold add at h ⊢
  dsimp only at h ⊢
  split_ifs at h ⊢ <;> rfl

/-- the place of a new waiter, and the others -/
theorem add_waiter : ((e.add d fd w ctl).2.event fd').waiter d' = 0 ∨
    ((e.add d fd w ctl).2.event fd').waiter d' = (e.event fd').waiter d' ∨
    d' = d ∧ fd' = fd ∧ ((e.add d fd w ctl).2.event fd').waiter d' = w := by
  cases h : (e.add d fd w ctl).1 with
  | true =>
    rw [add_ok h, event_insert]
    split_ifs with hfd
    · by_cases hd : d' = d
      · subst hd
        exact .inr (.inr ⟨rfl, hfd, (register_self _).1⟩)
      · rw [hfd]
        exact .inr (.inl (register_other _ hd).1)
    · exact .inr (.inl rfl)
  | false =>
    have he : (e.add d fd w ctl).2.eventMap = e.eventMap.erase fd := by
      unfold add at h ⊢
      dsimp only at h ⊢
      split_ifs at h ⊢ <;> rfl
    have hev : (e.add d fd w ctl).2.event fd' = if fd' = fd then {} else e.event fd' := by
      unfold event
      rw [he, lookup_erase_ite]
      split_ifs <;> rfl
    rw [hev]
    split_ifs
    · exact .inl (by cases d' <;> rfl)
    · exact .inr (.inl rfl)

theorem add_below (h : Below n e) (hw : w < n) : Below n (e.add d fd w ctl).2 := by
  intro d' fd' hne
  rcases @add_waiter e d d' fd fd' w ctl with h0 | hold | ⟨-, -, hnew⟩
  · exact absurd h0 hne
  · rw [hold] at hne ⊢
    exact h d' fd' hne
  · rw [hnew]
    exact hw

theorem Below.mono {m : ℕ} (h : Below n e) (hm : n ≤ m) : Below m e :=
  fun d fd hne => lt_of_lt_of_le (h d fd hne) hm

theorem add_single (h : Single e) (hfresh : ∀ d fd, (e.event fd).waiter d ≠ w) : Single (e.add d fd w ctl).2 := by
  intro d1 fd1 d2 fd2 hne heq
  rcases @add_waiter e d d1 fd fd1 w ctl with h1 | h1 | ⟨rfl, rfl, h1⟩
  · exact absurd h1 hne
  · rcases @add_waiter e d d2 fd fd2 w ctl with h2 | h2 | ⟨-, -, h2⟩
    · rw [heq] at hne
      exact absurd h2 hne
    · rw [h1] at hne
      exact h d1 fd1 d2 fd2 hne (by rw [← h1, heq, h2])
    · exact absurd (h1.symm.trans (heq.trans h2)) (hfresh d1 fd1)
  · rcases @add_waiter e d1 d2 fd1 fd2 w ctl with h2 | h2 | ⟨rfl, rfl, -⟩
    · rw [heq] at hne
      exact absurd h2 hne
    · exact absurd (h2.symm.trans (heq.symm.trans h1)) (hfresh d2 fd2)
    · exact ⟨rfl, rfl⟩

theorem add_links (h : (e.add d fd w ctl).1 = true) : Linked (e.add d fd w ctl).2 d fd w := by
  rw [linked_iff, add_ok h, event_insert, if_pos rfl]
  exact ⟨Finmap.lookup_insert _, register_self _⟩

/-- a registration for another place keeps a link -/
theorem add_linked (h : (e.add d fd w ctl).1 = true) (hs : Single e) (hl : Linked e d' fd' w') (h0 : w' ≠ 0)
    (hne : w' ≠ w) (hplace : ¬ (d' = d ∧ fd' = fd)) : Linked (e.add d fd w ctl).2 d' fd' w' := by
  obtain ⟨hback, hwait, hwatch⟩ := linked_iff.1 hl
  rw [linked_iff, add_ok h, event_insert]
  refine ⟨?_, ?_⟩
  · have hother : (e.event fd).waiter d ≠ w' := by
      intro hold
      have hz : (e.event fd).waiter d ≠ 0 := by rwa [hold]
      obtain ⟨hd, hfd⟩ := hs d fd d' fd' hz (hold.trans hwait.symm)
      exact hplace ⟨hd.symm, hfd.symm⟩
    dsimp only
    rw [Finmap.lookup_insert_of_ne _ hne]
    split_ifs
    · rw [Finmap.lookup_erase_ne (Ne.symm hother)]
      exact hback
    · exact hback
  · split_ifs with hfd
    · subst hfd
      have hd : d' ≠ d := fun hd => hplace ⟨hd, rfl⟩
      rw [(register_other _ hd).1, (register_other _ hd).2]
      exact ⟨hwait, hwatch⟩
    · exact ⟨hwait, hwatch⟩

/-! ## Cancellation -/

theorem withdraw_waiter (ev : Event) :
    (ev.withdraw d' w).waiter d = 0 ∨ (ev.withdraw d' w).waiter d = ev.waiter d := by
  unfold Event.withdraw
  split_ifs
  · cases d' <;> cases d <;> simp [Event.waiter]
  · exact .inr rfl

/-- another waiter of the same event stays -/
theorem withdraw_other {ev : Event} (h : ev.waiter d ≠ w) :
    (ev.withdraw d' w).waiter d = ev.waiter d ∧ (ev.withdraw d' w).watches d = ev.watches d := by
  unfold Event.withdraw
  split_ifs with hw
  · cases d' <;> cases d <;> first | exact absurd hw h | exact ⟨rfl, rfl⟩
  · exact ⟨rfl, rfl⟩

/-- what a cancellation makes of an event -/
theorem cancelWait_event (fd : ℤ) : (e.cancelWait w).event fd = e.event fd ∨
    (e.cancelWait w).event fd = ((e.event fd).withdraw .read w).withdraw .write w ∨
    (e.cancelWait w).event fd = {} ∧ (((e.event fd).withdraw .read w).withdraw .write w).epollin = false ∧
      (((e.event fd).withdraw .read w).withdraw .write w).epollout = false := by
  unfold cancelWait
  cases hw : e.waitToFd.lookup w with
  | none => exact .inl rfl
  | some fd0 =>
    dsimp only
    split_ifs with hno hoff
    · rw [event_insert]
      split_ifs with hfd
      · exact .inl (by rw [hfd])
      · exact .inl rfl
    · rw [event_erase]
      split_ifs with hfd
      · rw [hfd]
        exact .inr (.inr ⟨rfl, hoff⟩)
      · exact .inl rfl
    · rw [event_insert]
      split_ifs with hfd
      · rw [hfd]
        exact .inr (.inl rfl)
      · exact .inl rfl

theorem cancelWait_waiter (d : Dir) (fd : ℤ) : ((e.cancelWait w).event fd).waiter d = 0 ∨
    ((e.cancelWait w).event fd).waiter d = (e.event fd).waiter d := by
  rcases @cancelWait_event e w fd with h | h | ⟨h, -⟩
  · exact .inr (by rw [h])
  · rw [h]
    rcases @withdraw_waiter d .write w ((e.event fd).withdraw .read w) with h0 | h1
    · exact .inl h0
    · rw [h1]
      exact withdraw_waiter _
  · rw [h]
    exact .inl (by cases d <;> rfl)

theorem cancelWait_below (h : Below n e) : Below n (e.cancelWait w) := by
  intro d fd hne
  rcases @cancelWait_waiter e w d fd with h0 | hold
  · exact absurd h0 hne
  · rw [hold] at hne ⊢
    exact h d fd hne

theorem cancelWait_single (h : Single e) : Single (e.cancelWait w) := by
  intro d1 fd1 d2 fd2 hne heq
  rcases @cancelWait_waiter e w d1 fd1 with h1 | h1
  · exact absurd h1 hne
  · rcases @cancelWait_waiter e w d2 fd2 with h2 | h2
    · rw [heq] at hne
      exact absurd h2 hne
    · rw [h1] at hne heq
      exact h d1 fd1 d2 fd2 hne (heq.trans h2)

/-- an event that watches a direction is not given up for the sake of another waiter -/
theorem cancelWait_keeps (hne : (e.event fd).waiter d ≠ w) (hwatch : (e.event fd).watches d = true) :
    ((e.cancelWait w).event fd).waiter d = (e.event fd).waiter d ∧ ((e.cancelWait w).event fd).watches d = true := by
  have hread := @withdraw_other d .read w _ hne
  have hwrite := @withdraw_other d .write w ((e.event fd).withdraw .read w) (by rwa [hread.1])
  rcases @cancelWait_event e w fd with h | h | ⟨-, hin, hout⟩
  · rw [h]
    exact ⟨rfl, hwatch⟩
  · rw [h, hwrite.1, hwrite.2, hread.1, hread.2]
    exact ⟨rfl, hwatch⟩
  · have hoff : (((e.event fd).withdraw .read w).withdraw .write w).watches d = false := by
      cases d with
      | read => exact hin
      | write => exact hout
    rw [hwrite.2, hread.2, hwatch] at hoff
    cases hoff

theorem cancelWait_back (hne : w' ≠ w) : (e.cancelWait w).waitToFd.lookup w' = e.waitToFd.lookup w' := by
  unfold cancelWait
  cases hw : e.waitToFd.lookup w with
  | none => rfl
  | some fd =>
    dsimp only
    split_ifs <;> exact Finmap.lookup_erase_ne hne

/-- a cancellation keeps the links of others -/
theorem cancelWait_linked (hl : Linked e d fd w') (hne : w' ≠ w) : Linked (e.cancelWait w) d fd w' := by
  obtain ⟨hback, hwait, hwatch⟩ := linked_iff.1 hl
  obtain ⟨hwait', hwatch'⟩ := @cancelWait_keeps e d fd w (by rwa [hwait]) hwatch
  rw [linked_iff, cancelWait_back hne]
  exact ⟨hback, hwait'.trans hwait, hwatch'⟩

theorem make_event (fd : ℤ) : make.event fd = {} := by
  unfold event make
  rw [Finmap.lookup_empty]
  rfl

theorem make_single : Single make := by
  intro d fd d' fd' hne
  rw [make_event] at hne
  cases d <;> exact absurd rfl hne

theorem make_below : Below n make := by
  intro d fd hne
  rw [make_event] at hne
  cases d <;> exact absurd rfl hne

end Epoll

end MCoroRpc
