/-
Registrations that fail (src/epoll.cc, src/event_loop.cc).

When epoll_ctl fails, add_reader and add_writer erase the whole Event of the fd. That undoes the registration if the Event
has just been made for it; if somebody waits for the other direction, or has waited for this one, his wait goes with it.
His id still leads to the fd, so cancel_wait makes the Event anew, finds nothing to do in it and leaves it there.

- `Atomic`: everybody waits who should, as far as the maps and the kernel tell, and the selector stops after all of these
  waits have been cancelled.
- `atomic_iff`: that holds throughout a run exactly if each registration that fails is one for an fd without an Event.
- `event_left_behind`: the wait of the other direction is lost, and its cancellation keeps the loop from stopping.
-/
import MCoroRpc.Selector.Kernel

namespace MCoroRpc

open Multimap

def Mask.watches (d : Dir) (m : Mask) : Bool :=
  match d with
  | .read => m.epollin
  | .write => m.epollout

namespace Registry

open Epoll

variable {s : Registry}

def cancelAll (ws : List ℕ) (e : Epoll) : Epoll := ws.foldl (fun e w => e.cancelWait w) e

/-- a registration that has failed has returned false, and has been without any other effect -/
structure Atomic (s : Registry) : Prop where
  answers : ∀ a ∈ s.answers, a.1 = false → a.2 = false
  waits : ∀ d fd w, Waits s.epoll d fd w ↔ s.waits fd d = some w
  linked : ∀ d fd w, s.waits fd d = some w → s.epoll.waitToFd.lookup w = some fd ∧
    ∃ m, s.interest.lookup fd = some m ∧ m.watches d = true
  stops : ∀ ws, (∀ d fd w, s.waits fd d = some w → w ∈ ws) → (cancelAll ws s.epoll).isStop = true

/-- a registration returns what epoll_ctl has said -/
theorem step_answers {l : Label} (h : ∀ a ∈ s.answers, a.1 = a.2) : ∀ a ∈ (s.step l).answers, a.1 = a.2 := by
  cases l with
  | addWaiter d fd w deny =>
    rw [step, addWaiter, List.forall_mem_append, List.forall_mem_singleton]
    exact ⟨h, by rw [add_fst]⟩
  | cancelWait w =>
    rw [step, (cancelWait_epoll s w).2.2.1]
    exact h

theorem Inv.watched (h : Inv s) {d : Dir} {fd : ℤ} {w : ℕ} (hw : Waits s.epoll d fd w) :
    ∃ m, s.interest.lookup fd = some m ∧ m.watches d = true := by
  obtain ⟨ev, hev⟩ := Option.ne_none_iff_exists'.1 ((h.tracks.occupied fd).2 ⟨d, hw.1⟩)
  have hon := hw.1
  rw [event_of_lookup hev] at hon
  refine ⟨ev.mask, by rw [h.kernel, hev, Option.map_some], ?_⟩
  cases d with
  | read => exact hon
  | write => exact hon

theorem Inv.atomic (h : Inv s) (ha : ∀ a ∈ s.answers, a.1 = a.2) : Atomic s := by
  refine ⟨fun a hmem hfail => by rw [← ha a hmem, hfail], h.waits, fun d fd w hw => ?_, fun ws hws => ?_⟩
  · have hw := (h.waits d fd w).2 hw
    exact ⟨h.tracks.back hw, h.watched hw⟩
  · have hempty : (cancelAll ws s.epoll).eventMap = ∅ :=
      h.tracks.cancelAll fun d fd w hw => hws d fd w ((h.waits d fd w).1 hw)
    rw [isStop, hempty, Finmap.keys_empty]
    rfl

/-- an fd with an Event has somebody who waits; after a registration that is denied nobody does -/
theorem addWaiter_denied_loses (h : Inv s) {d : Dir} {fd : ℤ} {w : ℕ} (hev : s.epoll.eventMap.lookup fd ≠ none) :
    ¬ Atomic (s.addWaiter d fd w true) := by
  intro ha
  obtain ⟨d', hd'⟩ := (h.tracks.occupied fd).1 hev
  obtain ⟨ctl, c, hfail, he⟩ := addWaiter_denied s d fd w
  have hw := ha.waits d' fd ((s.epoll.event fd).waiter d')
  rw [he] at hw
  have hgone := hw.2 ((h.waits _ _ _).1 ⟨hd', rfl⟩)
  rw [Waits, add_failed_event hfail, Event.default_watches] at hgone
  cases hgone.1

theorem step_not_atomic {l : Label} (h : Inv s) (hl : ¬ Alone s l) : ¬ Atomic (s.step l) := by
  cases l with
  | addWaiter d fd w deny =>
    simp only [Alone, Classical.not_imp] at hl
    obtain ⟨rfl, hev⟩ := hl
    exact addWaiter_denied_loses h hev
  | cancelWait w => exact absurd trivial hl

/-- **Failed registrations**: in a run whose ids are used once they are without effect, whatever is
registered and cancelled besides, exactly if each of them is one for an fd that has no Event at that moment. -/
theorem atomic_iff {ls : List Label} (h : Machine.Along step Fresh make ls) :
    (∀ n, Atomic (Machine.run step make (ls.take n))) ↔ Machine.Along step Alone make ls := by
  refine Machine.along_iff_of_along (I := fun s => Inv s ∧ ∀ a ∈ s.answers, a.1 = a.2) (fun s hs => hs.1.atomic hs.2)
    (fun s l hl hs ha => ⟨step_inv hs.1 hl ha, step_answers hs.2⟩) (fun s l _ hs hl => step_not_atomic hs.1 hl)
    ⟨make_inv, by simp [make]⟩ h

/-- two registrations fail, each for an fd that nobody waits for -/
abbrev oneDenied : List Label :=
  [.addWaiter .read 5 0 true, .addWaiter .read 5 1 false, .addWaiter .write 7 2 true, .cancelWait 1]

theorem atomic_oneDenied : Machine.Along step Fresh make oneDenied ∧
    ∀ n, Atomic (Machine.run step make (oneDenied.take n)) := by
  have h : Machine.Along step Fresh make oneDenied := by
    simp only [Machine.Along, Fresh, step, addWaiter_used]
    decide
  refine ⟨h, (atomic_iff h).2 ?_⟩
  simp only [Machine.Along, Alone]
  decide

/-- a reader waits for the fd, the registration of a writer fails -/
def writerDenied : Registry := Machine.run step make [.addWaiter .read 5 1 false, .addWaiter .write 5 2 true]

/-- the reader is gone, and its cancellation leaves an Event without a waiter -/
theorem event_left_behind : ¬ Atomic writerDenied ∧ writerDenied.waits 5 .read = some 1 ∧
    ¬ Waits writerDenied.epoll .read 5 1 ∧ (cancelAll [1] writerDenied.epoll).isStop = false := by
  have hwaits : writerDenied.waits 5 .read = some 1 := by decide
  have hreader : ¬ Waits writerDenied.epoll .read 5 1 := by
    intro h
    exact absurd h.2 (by decide)
  exact ⟨fun h => hreader ((h.waits _ _ _).2 hwaits), hwaits, hreader, by decide⟩

end Registry

end MCoroRpc
