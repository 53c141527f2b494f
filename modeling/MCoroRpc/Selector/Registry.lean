/-
The two maps of the selector, m_event_map and m_wait_to_fd (src/epoll.cc).

The id 0 marks a direction without a waiter; but the event loop counts its ids from 0 on, so a wait may have this id too.
What tells a waiter from nobody is the bit of the direction.

- `Waits e d fd w`: the event of the fd watches the direction, for `w`.
- `Tracks e`: the two maps belong together, and no event is left without a waiter.
- `add_waits`, `Tracks.add`: a registration that succeeds puts the new waiter into its place and keeps that.
- `Tracks.add_failed`, `add_failed_event`: one that fails leaves the fd without an event, whatever it had before.
- `Tracks.cancelWait_waits`, `Tracks.cancelWait`: a cancellation takes the waiter out of its place and keeps that.
- `Tracks.cancelAll`: when all that wait have been cancelled, no event is left.
-/
import MCoroRpc.Selector.Epoll

namespace MCoroRpc

open Multimap

/-! ## The waiters of an event -/

namespace Event

variable {ev : Event} {d d' : Dir} {w : ℕ}

@[simp] theorem default_waiter : ({} : Event).waiter d = 0 := by cases d <;> rfl

@[simp] theorem default_watches : ({} : Event).watches d = false := by cases d <;> rfl

theorem register_waiter : (ev.register d w).waiter d' = if d' = d then w else ev.waiter d' := by
  cases d <;> cases d' <;> rfl

theorem register_watches : (ev.register d w).watches d' = if d' = d then true else ev.watches d' := by
  cases d <;> cases d' <;> rfl

/-- `waitId` is taken out of both directions -/
def withdrawBoth (w : ℕ) (ev : Event) : Event := (ev.withdraw .read w).withdraw .write w

theorem withdraw_waiter : (ev.withdraw d w).waiter d' = if d' = d ∧ ev.waiter d = w then 0 else ev.waiter d' := by
  unfold withdraw
  by_cases hw : ev.waiter d = w
  · rw [if_pos hw]
    cases d <;> cases d' <;> simp [waiter] at hw ⊢ <;> simp [hw]
  · rw [if_neg hw, if_neg fun h => hw h.2]

theorem withdraw_watches :
    (ev.withdraw d w).watches d' = if d' = d ∧ ev.waiter d = w then false else ev.watches d' := by
  unfold withdraw
  by_cases hw : ev.waiter d = w
  · rw [if_pos hw]
    cases d <;> cases d' <;> simp [waiter, watches] at hw ⊢ <;> simp [hw]
  · rw [if_neg hw, if_neg fun h => hw h.2]

theorem withdrawBoth_waiter : (ev.withdrawBoth w).waiter d = if ev.waiter d = w then 0 else ev.waiter d := by
  cases d <;> simp [withdrawBoth, withdraw_waiter]

theorem withdrawBoth_watches : (ev.withdrawBoth w).watches d = if ev.waiter d = w then false else ev.watches d := by
  cases d <;> simp [withdrawBoth, withdraw_waiter, withdraw_watches]

theorem off_iff : ev.epollin = false ∧ ev.epollout = false ↔ ∀ d, ev.watches d = false :=
  ⟨fun h d => by cases d <;> [exact h.1; exact h.2], fun h => ⟨h .read, h .write⟩⟩

theorem other_iff : ev.reader ≠ w ∧ ev.writer ≠ w ↔ ∀ d, ev.waiter d ≠ w :=
  ⟨fun h d => by cases d <;> [exact h.1; exact h.2], fun h => ⟨h .read, h .write⟩⟩

theorem blank_of_watches (h : ev.blank = true) : ev.watches d = false := by
  cases d <;> simp [blank, watches] at h ⊢ <;> simp [h]

end Event

/-! ## The two maps -/

namespace Epoll

/-- the event of the fd watches the direction, for `w` -/
def Waits (e : Epoll) (d : Dir) (fd : ℤ) (w : ℕ) : Prop :=
  (e.event fd).watches d = true ∧ (e.event fd).waiter d = w

/-- the two maps belong together -/
structure Tracks (e : Epoll) : Prop where
  /-- m_wait_to_fd leads from a waiter to its fd -/
  back : ∀ {d fd w}, Waits e d fd w → e.waitToFd.lookup w = some fd
  /-- and from nothing else, but perhaps from a 0 that has been displaced -/
  only : ∀ {fd w}, w ≠ 0 → e.waitToFd.lookup w = some fd → ∃ d, Waits e d fd w
  /-- no id waits for both directions -/
  apart : ∀ {d d' fd w}, Waits e d fd w → Waits e d' fd w → d = d'
  /-- no event without a waiter -/
  occupied : ∀ fd, e.eventMap.lookup fd ≠ none ↔ ∃ d, (e.event fd).watches d = true
  idle : ∀ fd d, (e.event fd).watches d = false → (e.event fd).waiter d = 0

variable {e : Epoll} {d d' : Dir} {fd fd' : ℤ} {w w' : ℕ} {ctl : CtlOp → Bool}

theorem Tracks.same_place (ht : Tracks e) (h : Waits e d fd w) (h' : Waits e d' fd' w) : fd' = fd ∧ d' = d := by
  obtain rfl : fd' = fd := Option.some.inj ((ht.back h').symm.trans (ht.back h))
  exact ⟨rfl, ht.apart h' h⟩

/-- an id other than 0 in a direction is a waiter -/
theorem Tracks.waits_of_ne (ht : Tracks e) (h : (e.event fd).waiter d ≠ 0) : Waits e d fd ((e.event fd).waiter d) := by
  refine ⟨?_, rfl⟩
  by_contra hoff
  exact h (ht.idle fd d (Bool.eq_false_of_not_eq_true hoff))

theorem make_tracks : Tracks make := by
  have hno : ∀ d fd w, ¬ Waits make d fd w := by
    intro d fd w h
    rw [Waits, make_event, Event.default_watches] at h
    cases h.1
  refine ⟨fun h => absurd h (hno _ _ _), fun _ h => absurd h lookup_empty_ne, fun h => absurd h (hno _ _ _),
    fun fd => ?_, fun fd d _ => by rw [make_event, Event.default_waiter]⟩
  simp only [make_event, Event.default_watches]
  exact ⟨fun h => absurd (Finmap.lookup_empty fd) h, fun ⟨_, h⟩ => by cases h⟩

theorem event_of_lookup_none (h : e.eventMap.lookup fd = none) : e.event fd = {} := by
  rw [event, h, Option.getD_none]

theorem event_of_lookup {ev : Event} (h : e.eventMap.lookup fd = some ev) : e.event fd = ev := by
  rw [event, h, Option.getD_some]

/-- an event has a bit left, an fd without one has none -/
theorem Tracks.blank_iff (ht : Tracks e) (fd : ℤ) : (e.event fd).blank = true ↔ e.eventMap.lookup fd = none := by
  refine ⟨fun hb => ?_, fun hn => by rw [event_of_lookup_none hn]; rfl⟩
  by_contra hn
  obtain ⟨d, hd⟩ := (ht.occupied fd).1 hn
  rw [Event.blank_of_watches hb] at hd
  cases hd

/-! ## Registration -/

/-- a registration that epoll_ctl accepts puts the new waiter in the place of the old one -/
theorem add_event (h : (e.add d fd w ctl).1 = true) (fd' : ℤ) (d' : Dir) :
    ((e.add d fd w ctl).2.event fd').waiter d' = (if fd' = fd ∧ d' = d then w else (e.event fd').waiter d') ∧
      ((e.add d fd w ctl).2.event fd').watches d' = (if fd' = fd ∧ d' = d then true else (e.event fd').watches d') := by
  rw [add_ok h, event_insert]
  by_cases hfd : fd' = fd
  · subst hfd
    simp only [if_true, Event.register_waiter, Event.register_watches, true_and, and_self]
  · simp only [hfd, if_false, false_and, and_self]

theorem add_waits (h : (e.add d fd w ctl).1 = true) : Waits (e.add d fd w ctl).2 d' fd' w' ↔
    (fd' = fd ∧ d' = d) ∧ w' = w ∨ ¬ (fd' = fd ∧ d' = d) ∧ Waits e d' fd' w' := by
  rw [Waits, (add_event h fd' d').1, (add_event h fd' d').2]
  by_cases hplace : fd' = fd ∧ d' = d
  · rw [if_pos hplace, if_pos hplace]
    simp [hplace, eq_comm]
  · rw [if_neg hplace, if_neg hplace]
    simp [hplace, Waits]

theorem add_back (h : (e.add d fd w ctl).1 = true) (w' : ℕ) : (e.add d fd w ctl).2.waitToFd.lookup w' =
    if w' = w then some fd else if (e.event fd).waiter d ≠ 0 ∧ w' = (e.event fd).waiter d then none
      else e.waitToFd.lookup w' := by
  rw [add_ok h, lookup_insert_ite]
  split_ifs with h1 h2 h3 h3
  · rfl
  · rw [h3.2]
    exact Finmap.lookup_erase _ _
  · exact Finmap.lookup_erase_ne fun he => h3 ⟨h2, he⟩
  · exact absurd h3.1 h2
  · rfl

theorem Tracks.add (ht : Tracks e) (hnew : ∀ d fd, ¬ Waits e d fd w) (h : (e.add d fd w ctl).1 = true) :
    Tracks (e.add d fd w ctl).2 := by
  refine ⟨fun {d' fd' w'} hw => ?_, fun {fd' w'} h0 hl => ?_, fun {d1 d2 fd' w'} h1 h2 => ?_, fun fd' => ?_,
    fun fd' d' hoff => ?_⟩
  · rw [add_back h]
    rcases (add_waits h).1 hw with ⟨⟨rfl, rfl⟩, rfl⟩ | ⟨hplace, hw⟩
    · rw [if_pos rfl]
    · -- the displaced id has had its place only
      have hww : w' ≠ w := fun he => hnew d' fd' (he ▸ hw)
      rw [if_neg hww, if_neg, ht.back hw]
      intro ⟨hne, he⟩
      rw [he] at hw
      exact hplace (ht.same_place (ht.waits_of_ne hne) hw)
  · rw [add_back h] at hl
    split_ifs at hl with hww hold
    · obtain rfl := Option.some.inj hl
      exact ⟨d, (add_waits h).2 (.inl ⟨⟨rfl, rfl⟩, hww⟩)⟩
    · obtain ⟨d', hd'⟩ := ht.only h0 hl
      refine ⟨d', (add_waits h).2 (.inr ⟨?_, hd'⟩)⟩
      rintro ⟨rfl, rfl⟩
      exact hold ⟨by rw [hd'.2]; exact h0, hd'.2.symm⟩
  · rcases (add_waits h).1 h1 with ⟨⟨rfl, rfl⟩, rfl⟩ | ⟨-, h1⟩
    · rcases (add_waits h).1 h2 with ⟨⟨-, hd⟩, -⟩ | ⟨-, h2⟩
      · exact hd.symm
      · exact absurd h2 (hnew _ _)
    · rcases (add_waits h).1 h2 with ⟨-, hww⟩ | ⟨-, h2⟩
      · exact absurd (hww ▸ h1) (hnew _ _)
      · exact ht.apart h1 h2
  · have hmap : (e.add d fd w ctl).2.eventMap.lookup fd' ≠ none ↔ fd' = fd ∨ e.eventMap.lookup fd' ≠ none := by
      rw [add_ok h, lookup_insert_ite]
      split_ifs with hfd <;> simp [hfd]
    rw [hmap, ht.occupied]
    simp only [(add_event h fd' _).2]
    constructor
    · rintro (rfl | ⟨d', hd'⟩)
      · exact ⟨d, if_pos ⟨rfl, rfl⟩⟩
      · exact ⟨d', by rw [hd', ite_self]⟩
    · intro ⟨d', hd'⟩
      by_cases hplace : fd' = fd ∧ d' = d
      · exact .inl hplace.1
      · rw [if_neg hplace] at hd'
        exact .inr ⟨d', hd'⟩
  · rw [(add_event h fd' d').2] at hoff
    rw [(add_event h fd' d').1]
    split_ifs at hoff ⊢
    exact ht.idle fd' d' hoff

/-- a registration that fails on an fd without an event leaves everything as it was -/
theorem add_failed (hback : e.waitToFd.lookup w = none) (h : (e.add d fd w ctl).1 = false)
    (hnone : e.eventMap.lookup fd = none) : (e.add d fd w ctl).2 = e := by
  have hwait : (e.event fd).waiter d = 0 := by rw [event_of_lookup_none hnone, Event.default_waiter]
  have heq : (e.add d fd w ctl).2 = ⟨e.eventMap.erase fd, (e.waitToFd.insert w fd).erase w⟩ := by
    unfold Epoll.add at h ⊢
    dsimp only at h ⊢
    rw [hwait]
    split_ifs at h ⊢ <;> first | rfl | simp_all
  rw [heq]
  refine congrArg₂ Epoll.mk (Finmap.ext_lookup fun fd' => ?_) (Finmap.ext_lookup fun w' => ?_)
  · rw [lookup_erase_ite]
    split_ifs with hfd
    · rw [hfd, hnone]
    · rfl
  · rw [lookup_erase_ite, lookup_insert_ite]
    split_ifs with hw
    · rw [hw, hback]
    · rfl

/-- a registration that fails takes the event with it -/
theorem add_failed_event (h : (e.add d fd w ctl).1 = false) : (e.add d fd w ctl).2.event fd = {} := by
  have he : (e.add d fd w ctl).2.eventMap = e.eventMap.erase fd := by
    unfold Epoll.add at h ⊢
    dsimp only at h ⊢
    split_ifs at h ⊢ <;> rfl
  rw [event, he, Finmap.lookup_erase, Option.getD_none]

/-! ## Cancellation -/

/-- the ways of a cancellation: nothing to do, a 0 that has been displaced, the last direction of an event, one of two -/
theorem Tracks.cancelWait_cases (ht : Tracks e) (w : ℕ) :
    e.waitToFd.lookup w = none ∧ e.cancelWait w = e ∨
      ∃ fd, e.waitToFd.lookup w = some fd ∧
        ((∀ d, (e.event fd).waiter d ≠ w) ∧ w = 0 ∧ e.cancelWait w = ⟨e.eventMap, e.waitToFd.erase w⟩ ∨
          (∃ d, (e.event fd).waiter d = w) ∧ (∀ d, ((e.event fd).withdrawBoth w).watches d = false) ∧
            e.cancelWait w = ⟨e.eventMap.erase fd, e.waitToFd.erase w⟩ ∨
          (∃ d, (e.event fd).waiter d = w) ∧ (∃ d, ((e.event fd).withdrawBoth w).watches d = true) ∧
            e.cancelWait w = ⟨e.eventMap.insert fd ((e.event fd).withdrawBoth w), e.waitToFd.erase w⟩) := by
  cases hl : e.waitToFd.lookup w with
  | none => exact .inl ⟨rfl, by unfold Epoll.cancelWait; rw [hl]⟩
  | some fd =>
    refine .inr ⟨fd, rfl, ?_⟩
    unfold Epoll.cancelWait
    rw [hl]
    dsimp only
    by_cases hother : (e.event fd).reader ≠ w ∧ (e.event fd).writer ≠ w
    · rw [if_pos hother]
      have hno := Event.other_iff.1 hother
      have h0 : w = 0 := by
        by_contra h0
        obtain ⟨d, hd⟩ := ht.only h0 hl
        exact hno d hd.2
      refine .inl ⟨hno, h0, ?_⟩
      -- both directions are taken by others, so the event is there already
      subst h0
      obtain ⟨ev, hev⟩ := Option.ne_none_iff_exists'.1 ((ht.occupied fd).2 ⟨.read, (ht.waits_of_ne (hno .read)).1⟩)
      congr 1
      refine Finmap.ext_lookup fun fd' => ?_
      rw [lookup_insert_ite, event_of_lookup hev]
      split_ifs with hfd
      · rw [hfd, hev]
      · rfl
    · rw [if_neg hother]
      have hsome : ∃ d, (e.event fd).waiter d = w := by
        simpa only [Event.other_iff, not_forall, not_not] using hother
      by_cases hoff : ((e.event fd).withdrawBoth w).epollin = false ∧ ((e.event fd).withdrawBoth w).epollout = false
      · exact .inr (.inl ⟨hsome, Event.off_iff.1 hoff, if_pos hoff⟩)
      · refine .inr (.inr ⟨hsome, ?_, if_neg hoff⟩)
        simpa only [Event.off_iff, not_forall, Bool.not_eq_false] using hoff

/-- what a cancellation makes of the events -/
theorem Tracks.cancelWait_event (ht : Tracks e) (fd : ℤ) (d : Dir) :
    Waits e d fd w ∧ ((e.cancelWait w).event fd).watches d = false ∧ ((e.cancelWait w).event fd).waiter d = 0 ∨
      ¬ Waits e d fd w ∧ ((e.cancelWait w).event fd).watches d = (e.event fd).watches d ∧
        ((e.cancelWait w).event fd).waiter d = (e.event fd).waiter d := by
  rcases ht.cancelWait_cases w with ⟨hl, he⟩ | ⟨fd₀, hl, hcase⟩
  · refine .inr ⟨fun hw => ?_, by rw [he], by rw [he]⟩
    rw [ht.back hw] at hl
    cases hl
  by_cases hfd : fd = fd₀
  · subst hfd
    rcases hcase with ⟨hno, -, he⟩ | ⟨-, hoff, he⟩ | ⟨-, -, he⟩
    · exact .inr ⟨fun hw => hno d hw.2, by rw [he]; rfl, by rw [he]; rfl⟩
    · -- the direction that is left over is not watched, so nobody waits in it
      rw [he, event_erase, if_pos rfl, Event.default_waiter, Event.default_watches]
      have hd := hoff d
      rw [Event.withdrawBoth_watches] at hd
      by_cases hw : Waits e d fd w
      · exact .inl ⟨hw, rfl, rfl⟩
      · have hd' : (e.event fd).watches d = false := by
          by_contra hon
          have hon := Bool.eq_true_of_not_eq_false hon
          rw [if_neg fun he => hw ⟨hon, he⟩, hon] at hd
          cases hd
        exact .inr ⟨hw, hd'.symm, (ht.idle fd d hd').symm⟩
    · rw [he, event_insert, if_pos rfl, Event.withdrawBoth_waiter, Event.withdrawBoth_watches]
      by_cases hww : (e.event fd).waiter d = w
      · rw [if_pos hww, if_pos hww]
        by_cases hon : (e.event fd).watches d = true
        · exact .inl ⟨⟨hon, hww⟩, rfl, rfl⟩
        · have hoff := Bool.eq_false_of_not_eq_true hon
          exact .inr ⟨fun hw => hon hw.1, hoff.symm, (ht.idle fd d hoff).symm⟩
      · rw [if_neg hww, if_neg hww]
        exact .inr ⟨fun hw => hww hw.2, rfl, rfl⟩
  · have hev : (e.cancelWait w).event fd = e.event fd := by
      rcases hcase with ⟨-, -, he⟩ | ⟨-, -, he⟩ | ⟨-, -, he⟩
      · rw [he]
        rfl
      · rw [he, event_erase, if_neg hfd]
      · rw [he, event_insert, if_neg hfd]
    refine .inr ⟨fun hw => hfd ?_, by rw [hev], by rw [hev]⟩
    rw [ht.back hw] at hl
    exact Option.some.inj hl

/-- a cancellation takes the id out of its place and touches no other -/
theorem Tracks.cancelWait_waits (ht : Tracks e) : Waits (e.cancelWait w) d fd w' ↔ Waits e d fd w' ∧ w' ≠ w := by
  rcases ht.cancelWait_event (w := w) fd d with ⟨hw, hoff, -⟩ | ⟨hw, hwatch, hwait⟩
  · refine ⟨fun h => ?_, fun ⟨h, hne⟩ => absurd (h.2.symm.trans hw.2) hne⟩
    rw [Waits, hoff] at h
    cases h.1
  · rw [Waits, hwatch, hwait]
    exact ⟨fun h => ⟨h, fun he => hw (he ▸ h)⟩, fun h => h.1⟩

theorem Tracks.cancelWait_lookup (ht : Tracks e) (w' : ℕ) :
    (e.cancelWait w).waitToFd.lookup w' = if w' = w then none else e.waitToFd.lookup w' := by
  rcases ht.cancelWait_cases w with ⟨hl, he⟩ | ⟨fd₀, -, ⟨-, -, he⟩ | ⟨-, -, he⟩ | ⟨-, -, he⟩⟩
  · rw [he]
    split_ifs with hw
    · rw [hw, hl]
    · rfl
  · rw [he, lookup_erase_ite]
  · rw [he, lookup_erase_ite]
  · rw [he, lookup_erase_ite]

theorem Tracks.cancelWait (ht : Tracks e) (w : ℕ) : Tracks (e.cancelWait w) := by
  refine ⟨fun {d fd w'} h => ?_, fun {fd w'} h0 hl => ?_, fun h h' => ?_, fun fd => ?_, fun fd d hoff => ?_⟩
  · obtain ⟨h, hne⟩ := ht.cancelWait_waits.1 h
    rw [ht.cancelWait_lookup, if_neg hne, ht.back h]
  · rw [ht.cancelWait_lookup] at hl
    split_ifs at hl with hne
    obtain ⟨d, hd⟩ := ht.only h0 hl
    exact ⟨d, ht.cancelWait_waits.2 ⟨hd, hne⟩⟩
  · exact ht.apart (ht.cancelWait_waits.1 h).1 (ht.cancelWait_waits.1 h').1
  · rcases ht.cancelWait_cases w with ⟨-, he⟩ | ⟨fd₀, -, ⟨-, -, he⟩ | ⟨-, -, he⟩ | ⟨-, hon, he⟩⟩
    · rw [he]
      exact ht.occupied fd
    · rw [he]
      exact ht.occupied fd
    · rw [he]
      simp only [event_erase, lookup_erase_ite]
      by_cases hfd : fd = fd₀
      · simp [hfd]
      · simpa only [hfd, if_false] using ht.occupied fd
    · rw [he]
      simp only [event_insert, lookup_insert_ite]
      by_cases hfd : fd = fd₀
      · simpa only [hfd, if_true, ne_eq, reduceCtorEq, not_false_eq_true, true_iff] using hon
      · simpa only [hfd, if_false] using ht.occupied fd
  · rcases ht.cancelWait_event (w := w) fd d with ⟨-, -, h0⟩ | ⟨-, hwatch, hwait⟩
    · exact h0
    · rw [hwait]
      exact ht.idle fd d (hwatch ▸ hoff)

/-- when all that wait have been cancelled, in any order, no event is left -/
theorem Tracks.cancelAll (ht : Tracks e) {ws : List ℕ} (hall : ∀ d fd w, Waits e d fd w → w ∈ ws) :
    (ws.foldl (fun e w => e.cancelWait w) e).eventMap = ∅ := by
  induction ws generalizing e with
  | nil =>
    rw [eq_empty_iff]
    intro fd
    by_contra hne
    obtain ⟨d, hd⟩ := (ht.occupied fd).1 hne
    cases hall d fd _ ⟨hd, rfl⟩
  | cons w ws ih =>
    refine ih (ht.cancelWait w) fun d fd w' h => ?_
    obtain ⟨h, hne⟩ := ht.cancelWait_waits.1 h
    exact (List.mem_cons.1 (hall d fd w' h)).resolve_left hne

end Epoll

end MCoroRpc
