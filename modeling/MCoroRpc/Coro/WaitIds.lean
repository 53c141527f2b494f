/-
The ids of waits (include/coro/event_loop.hpp: next_wait_id; src/event_loop.cc).

add_reader and add_writer return 0 for a failure, and Event, ReadAwaiter, WriteAwaiter and Timer keep 0 for no wait; but
next_wait_id counts from 0 on, so that 0 is also the id of the first wait.

- `ids`: what the registrations of a run return, those that fail apart.
- `step_waits`: who waits for an fd after a label has waited before, or has just been registered.

Main results:
- `usable_iff`: all ids can be used exactly if the first registration of the loop is one that epoll_ctl refuses.
- `first_reader_lost`: a reader that is registered first, and is not told.
-/
import MCoroRpc.Coro.CancelFrame

namespace MCoroRpc

namespace Epoll

variable {e : Epoll} {d : Dir} {fd : ℤ} {w w' : ℕ}

/-- nobody begins to wait because of a cancellation -/
theorem waits_of_cancelWait (h : Waits (e.cancelWait w') d fd w) : Waits e d fd w := by
  unfold Waits at h
  rcases @cancelWait_event e w' fd with he | he | ⟨he, -⟩
  · rwa [he] at h
  · have hboth : (e.cancelWait w').event fd = (e.event fd).withdrawBoth w' := he
    rw [hboth, Event.withdrawBoth_watches, Event.withdrawBoth_waiter] at h
    split_ifs at h with hw
    · cases h.1
    · exact h
  · rw [he, Event.default_watches] at h
    cases h.1

theorem waits_of_withdrawAll {ws : List ℕ} (h : Waits (e.withdrawAll ws) d fd w) : Waits e d fd w := by
  induction ws generalizing e with
  | nil => exact h
  | cons w' ws ih => exact waits_of_cancelWait (ih h)

/-- after a registration, accepted or not, nobody waits who has not waited before or been accepted -/
theorem waits_of_add {d' : Dir} {fd' : ℤ} {ctl : CtlOp → Bool} (h : Waits (e.add d' fd' w' ctl).2 d fd w) :
    Waits e d fd w ∨ (e.add d' fd' w' ctl).1 = true ∧ w = w' := by
  cases hok : (e.add d' fd' w' ctl).1 with
  | true =>
    rcases (add_waits hok).1 h with ⟨-, hw⟩ | ⟨-, hold⟩
    · exact .inr ⟨rfl, hw⟩
    · exact .inl hold
  | false =>
    left
    by_cases hfd : fd = fd'
    · rw [hfd, Waits, add_failed_event hok, Event.default_watches] at h
      cases h.1
    · have hmap : (e.add d' fd' w' ctl).2.eventMap = e.eventMap.erase fd' := by
        unfold Epoll.add at hok ⊢
        dsimp only at hok ⊢
        split_ifs at hok ⊢ <;> rfl
      have hevent : (e.add d' fd' w' ctl).2.event fd = e.event fd := by
        simp only [event, hmap, Finmap.lookup_erase_ne hfd]
      rwa [Waits, hevent] at h

theorem make_withdrawAll (ws : List ℕ) : make.withdrawAll ws = make := by
  induction ws with
  | nil => rfl
  | cons w ws ih => exact ih

theorem not_make_waits : ¬ Waits make d fd w := by
  intro h
  rw [Waits, make_event, Event.default_watches] at h
  cases h.1

end Epoll

namespace Eventloop

open Epoll (Waits)

variable {κ : Type*} (H : HeapAlgorithms)

/-- the id that a registration returns, if it does not fail -/
def given (s : Eventloop κ) : Label κ → Option ℕ
  | .callSoon handle cb => some (s.callSoon handle cb).1
  | .callAt time handle cb => some (s.callAt H time handle cb).1
  | .addReader fd handle cb ctl =>
    if (s.epoll.add .read fd s.nextWaitId ctl).1 then some (s.addReader fd handle cb ctl).1 else none
  | .addWriter fd handle cb ctl =>
    if (s.epoll.add .write fd s.nextWaitId ctl).1 then some (s.addWriter fd handle cb ctl).1 else none
  | _ => none

/-- the ids that the registrations of a run return -/
def ids : Eventloop κ → List (Label κ) → List ℕ
  | _, [] => []
  | s, l :: ls => (s.given H l).toList ++ ids (s.step H l) ls

/-- process_epoll_event makes everyone ready who waits and is reported -/
def Delivers (s : Eventloop κ) : Prop :=
  ∀ d fd w, Waits s.epoll d fd w → ∀ r : Epoll.Report, r.fd = fd → r.has d = true →
    ∃ queue, (s.processEpollEvent [r]).readyQueue = s.readyQueue ++ queue ∧ w ∈ queue

/-- the ids are distinct and not 0, and the readiness of every wait is delivered -/
structure Usable (ls : List (Label κ)) : Prop where
  distinct : (ids H make ls).Nodup
  nonzero : 0 ∉ ids H make ls
  delivers : ∀ n, Delivers (Machine.run (step H) make (ls.take n))

/-- call_soon, call_at, add_reader and add_writer -/
def Label.registers : Label κ → Bool
  | .callSoon .. | .callAt .. | .addReader .. | .addWriter .. => true
  | _ => false

/-- a registration whose EPOLL_CTL_ADD is refused -/
def Label.Refused : Label κ → Prop
  | .addReader _ _ _ ctl | .addWriter _ _ _ ctl => ctl .add = false
  | _ => False

variable {H} {s : Eventloop κ} {l : Label κ} {ls : List (Label κ)} {w : ℕ}

/-! ## One registration -/

theorem addWaiter_fst {d : Dir} {fd : ℤ} {handle : ℕ} {cb : κ} {ctl : CtlOp → Bool}
    (hok : (s.epoll.add d fd s.nextWaitId ctl).1 = true) : (s.addWaiter d fd handle cb ctl).1 = s.nextWaitId := by
  unfold addWaiter
  dsimp only
  rw [if_pos hok]

theorem addWaiter_next (d : Dir) (fd : ℤ) (handle : ℕ) (cb : κ) (ctl : CtlOp → Bool) :
    (s.addWaiter d fd handle cb ctl).2.nextWaitId = s.nextWaitId + 1 := by
  unfold addWaiter
  dsimp only
  split_ifs <;> rfl

theorem addWaiter_epoll (d : Dir) (fd : ℤ) (handle : ℕ) (cb : κ) (ctl : CtlOp → Bool) :
    (s.addWaiter d fd handle cb ctl).2.epoll = (s.epoll.add d fd s.nextWaitId ctl).2 := by
  unfold addWaiter
  dsimp only
  split_ifs <;> rfl

theorem cancel_epoll (c : ℕ) : (s.cancel H c).epoll = s.epoll.withdrawAll (s.waitsOf c) := by
  rw [cancel_eq]
  exact cancelWaits_epoll _

theorem step_next (s : Eventloop κ) (l : Label κ) :
    (s.step H l).nextWaitId = if l.registers then s.nextWaitId + 1 else s.nextWaitId := by
  cases l with
  | callSoon handle cb => rfl
  | callAt time handle cb => rfl
  | addReader fd handle cb ctl => exact addWaiter_next .read fd handle cb ctl
  | addWriter fd handle cb ctl => exact addWaiter_next .write fd handle cb ctl
  | cancelWait w => rfl
  | cancel c =>
    have heq := congrArg Eventloop.nextWaitId (@cancel_eq κ H c s)
    exact heq.trans (cancelWaits_rest _).2.2
  | epollEvent events => rfl
  | expiredTimeout now => exact expire_next now _
  | executeReady => exact (executeReady_rest s).1
  | stop => rfl

/-- a registration returns the next id -/
theorem given_some (h : s.given H l = some w) : l.registers = true ∧ w = s.nextWaitId := by
  cases l with
  | callSoon handle cb => exact ⟨rfl, (Option.some.inj h).symm⟩
  | callAt time handle cb => exact ⟨rfl, (Option.some.inj h).symm⟩
  | addReader fd handle cb ctl =>
    simp only [given] at h
    split_ifs at h with hok
    exact ⟨rfl, (Option.some.inj h).symm.trans (addWaiter_fst hok)⟩
  | addWriter fd handle cb ctl =>
    simp only [given] at h
    split_ifs at h with hok
    exact ⟨rfl, (Option.some.inj h).symm.trans (addWaiter_fst hok)⟩
  | _ => cases h

/-- who waits has waited before, or has just been registered -/
theorem step_waits {d : Dir} {fd : ℤ} (h : Waits (s.step H l).epoll d fd w) :
    Waits s.epoll d fd w ∨ s.given H l = some w := by
  cases l with
  | callSoon handle cb => exact .inl h
  | callAt time handle cb => exact .inl h
  | addReader fd' handle cb ctl =>
    have h : Waits (s.addWaiter .read fd' handle cb ctl).2.epoll d fd w := h
    rw [addWaiter_epoll] at h
    refine (Epoll.waits_of_add h).imp_right ?_
    rintro ⟨hok, rfl⟩
    simp only [given, hok, if_true, addReader, addWaiter_fst hok]
  | addWriter fd' handle cb ctl =>
    have h : Waits (s.addWaiter .write fd' handle cb ctl).2.epoll d fd w := h
    rw [addWaiter_epoll] at h
    refine (Epoll.waits_of_add h).imp_right ?_
    rintro ⟨hok, rfl⟩
    simp only [given, hok, if_true, addWriter, addWaiter_fst hok]
  | cancelWait w' => exact .inl (Epoll.waits_of_cancelWait h)
  | cancel c =>
    have h : Waits (s.cancel H c).epoll d fd w := h
    rw [cancel_epoll] at h
    exact .inl (Epoll.waits_of_withdrawAll h)
  | epollEvent events => exact .inl h
  | expiredTimeout now =>
    have h : Waits (s.expire H now s.scheduled.length).epoll d fd w := h
    rw [(expire_rest now _).2.2.1] at h
    exact .inl h
  | executeReady =>
    have h : Waits s.executeReady.2.epoll d fd w := h
    rw [(executeReady_rest s).2.2] at h
    exact .inl h
  | stop => exact .inl h

/-! ## Distinct ids -/

theorem next_le_step (s : Eventloop κ) (l : Label κ) : s.nextWaitId ≤ (s.step H l).nextWaitId := by
  rw [step_next]
  split_ifs <;> omega

theorem le_of_mem_ids (h : w ∈ ids H s ls) : s.nextWaitId ≤ w := by
  induction ls generalizing s with
  | nil => cases h
  | cons l ls ih =>
    rcases List.mem_append.1 h with h | h
    · exact (given_some (Option.mem_toList.1 h)).2.ge
    · exact (next_le_step s l).trans (ih h)

theorem ids_increase (s : Eventloop κ) (ls : List (Label κ)) : (ids H s ls).Pairwise (· < ·) := by
  induction ls generalizing s with
  | nil => exact .nil
  | cons l ls ih =>
    unfold ids
    cases hg : s.given H l with
    | none => exact ih _
    | some w =>
      obtain ⟨hl, rfl⟩ := given_some hg
      refine List.pairwise_cons.2 ⟨?_, ih _⟩
      intro w' hw'
      have hnext := step_next (H := H) s l
      rw [if_pos hl] at hnext
      have hle := le_of_mem_ids hw'
      omega

/-! ## The id 0 -/

/-- the id 0 has been given, and nobody waits under it -/
structure Started (s : Eventloop κ) : Prop where
  next : 0 < s.nextWaitId
  waits : ∀ d fd, ¬ Waits s.epoll d fd 0

theorem Started.step (h : Started s) (l : Label κ) : Started (s.step H l) := by
  refine ⟨lt_of_lt_of_le h.next (next_le_step s l), ?_⟩
  intro d fd hw
  rcases step_waits hw with hold | hnew
  · exact h.waits d fd hold
  · exact Nat.ne_of_lt h.next (given_some hnew).2

/-- with ids other than 0 everyone who waits is told -/
theorem delivers_of_nonzero (h : ∀ d fd, ¬ Waits s.epoll d fd 0) : Delivers s := by
  intro d fd w hw r hfd hr
  refine ⟨[r].flatMap s.epoll.woken, rfl, ?_⟩
  have hne : w ≠ 0 := by
    rintro rfl
    exact h d fd hw
  obtain ⟨hwatch, hwait⟩ := hw
  subst hfd
  rw [List.flatMap_singleton]
  unfold Epoll.woken
  cases hl : s.epoll.eventMap.lookup r.fd with
  | none =>
    rw [Epoll.event_of_lookup_none hl, Event.default_watches] at hwatch
    cases hwatch
  | some ev =>
    rw [Epoll.event_of_lookup hl] at hwait
    subst hwait
    cases d with
    | read => exact List.mem_append_left _ (by rw [if_pos ⟨hne, hr⟩]; exact List.mem_singleton_self _)
    | write => exact List.mem_append_right _ (by rw [if_pos ⟨hne, hr⟩]; exact List.mem_singleton_self _)

theorem Started.usable (h : Started s) (ls : List (Label κ)) :
    0 ∉ ids H s ls ∧ ∀ n, Delivers (Machine.run (Eventloop.step H) s (ls.take n)) := by
  refine ⟨fun h0 => absurd (le_of_mem_ids h0) (not_le.2 h.next), fun n => ?_⟩
  have hrun : Started (Machine.run (Eventloop.step H) s (ls.take n)) :=
    Machine.inv_run_of_step (I := Started) (fun _ l hs => hs.step l) h _
  exact delivers_of_nonzero hrun.waits

/-- nothing has been registered so far -/
structure Blank (s : Eventloop κ) : Prop where
  next : s.nextWaitId = 0
  epoll : s.epoll = .make

theorem Blank.step (h : Blank s) (hl : l.registers = false) : Blank (s.step H l) := by
  have hnext := step_next (H := H) s l
  rw [hl, h.next] at hnext
  refine ⟨hnext, ?_⟩
  cases l with
  | cancelWait w =>
    have he : (s.cancelWait H w).epoll = s.epoll.withdrawAll [w] := rfl
    exact he.trans (by rw [h.epoll, Epoll.make_withdrawAll])
  | cancel c => exact cancel_epoll c |>.trans (by rw [h.epoll, Epoll.make_withdrawAll])
  | epollEvent events => exact h.epoll
  | expiredTimeout now => exact (expire_rest now _).2.2.1.trans h.epoll
  | executeReady => exact (executeReady_rest s).2.2.trans h.epoll
  | stop => exact h.epoll
  | _ => cases hl

theorem Blank.receives (h : Blank s) : Delivers s :=
  delivers_of_nonzero fun _ _ hw => Epoll.not_make_waits (h.epoll ▸ hw)

/-- what epoll_ctl is asked first -/
theorem make_add_fst {d : Dir} {fd : ℤ} {ctl : CtlOp → Bool} : (Epoll.make.add d fd w ctl).1 = ctl .add := by
  unfold Epoll.add
  dsimp only
  rw [Epoll.make_event]
  cases hc : ctl .add <;> simp [Event.blank, hc]

theorem Blank.refused_waiter (h : Blank s) {d : Dir} {fd : ℤ} {handle : ℕ} {cb : κ} {ctl : CtlOp → Bool}
    (hctl : ctl .add = false) : Started (s.addWaiter d fd handle cb ctl).2 := by
  refine ⟨by rw [addWaiter_next]; exact Nat.succ_pos _, ?_⟩
  intro d' fd' hw
  rw [addWaiter_epoll, h.epoll] at hw
  rcases Epoll.waits_of_add hw with hold | ⟨hok, -⟩
  · exact Epoll.not_make_waits hold
  · rw [make_add_fst, hctl] at hok
    cases hok

/-- a first registration that is refused uses the id 0 up -/
theorem Blank.refused (h : Blank s) (hl : l.Refused) : Started (s.step H l) := by
  cases l with
  | addReader fd handle cb ctl => exact h.refused_waiter hl
  | addWriter fd handle cb ctl => exact h.refused_waiter hl
  | _ => cases hl

/-- any other first registration is given the id 0 -/
theorem Blank.given_zero (h : Blank s) (hl : l.registers = true) (hr : ¬ l.Refused) : s.given H l = some 0 := by
  have hadd : ∀ d fd (ctl : CtlOp → Bool), ¬ ctl .add = false → (s.epoll.add d fd s.nextWaitId ctl).1 = true := by
    intro d fd ctl hctl
    rw [h.epoll, make_add_fst]
    exact Bool.eq_true_of_not_eq_false hctl
  cases l with
  | callSoon handle cb => exact congrArg some h.next
  | callAt time handle cb => exact congrArg some h.next
  | addReader fd handle cb ctl =>
    have hok := hadd .read fd ctl hr
    have hg : s.given H (.addReader fd handle cb ctl) = some s.nextWaitId := by
      simp only [given, hok, if_true, addReader, addWaiter_fst hok]
    exact hg.trans (congrArg some h.next)
  | addWriter fd handle cb ctl =>
    have hok := hadd .write fd ctl hr
    have hg : s.given H (.addWriter fd handle cb ctl) = some s.nextWaitId := by
      simp only [given, hok, if_true, addWriter, addWaiter_fst hok]
    exact hg.trans (congrArg some h.next)
  | _ => cases hl

theorem Blank.usable (h : Blank s) (hfirst : ∀ l, ls.find? Label.registers = some l → l.Refused) :
    0 ∉ ids H s ls ∧ ∀ n, Delivers (Machine.run (Eventloop.step H) s (ls.take n)) := by
  induction ls generalizing s with
  | nil => exact ⟨List.not_mem_nil, fun n => by rw [List.take_nil]; exact h.receives⟩
  | cons l ls ih =>
    -- behind the first label, with no id of 0 from it
    have hstep : (0 ∉ ids H (s.step H l) ls ∧
        ∀ n, Delivers (Machine.run (Eventloop.step H) (s.step H l) (ls.take n))) ∧ s.given H l ≠ some 0 := by
      cases hl : l.registers with
      | true =>
        have hrefused := hfirst l (by rw [List.find?_cons, hl])
        refine ⟨(h.refused hrefused).usable ls, fun hg => ?_⟩
        cases l with
        | addReader fd handle cb ctl =>
          have hctl : ctl .add = false := hrefused
          simp only [given, h.epoll, make_add_fst, hctl, Bool.false_eq_true, if_false, reduceCtorEq] at hg
        | addWriter fd handle cb ctl =>
          have hctl : ctl .add = false := hrefused
          simp only [given, h.epoll, make_add_fst, hctl, Bool.false_eq_true, if_false, reduceCtorEq] at hg
        | _ => cases hrefused
      | false =>
        refine ⟨ih (h.step hl) fun l' hl' => hfirst l' (by rw [List.find?_cons, hl]; exact hl'), fun hg => ?_⟩
        rw [(given_some hg).1] at hl
        cases hl
    obtain ⟨⟨hids, hdelivers⟩, hgiven⟩ := hstep
    refine ⟨fun h0 => ?_, fun n => ?_⟩
    · rcases List.mem_append.1 h0 with h0 | h0
      · exact hgiven (Option.mem_toList.1 h0)
      · exact hids h0
    · cases n with
      | zero => exact h.receives
      | succ n => exact hdelivers n

theorem Blank.first_refused (h : Blank s) (h0 : 0 ∉ ids H s ls) (hl : ls.find? Label.registers = some l) : l.Refused := by
  induction ls generalizing s with
  | nil => cases hl
  | cons l' ls ih =>
    simp only [ids, List.mem_append, not_or] at h0
    rw [List.find?_cons] at hl
    cases hreg : l'.registers with
    | true =>
      rw [hreg] at hl
      obtain rfl := Option.some.inj hl
      by_contra hr
      exact h0.1 (Option.mem_toList.2 (h.given_zero hreg hr))
    | false =>
      rw [hreg] at hl
      exact ih (h.step hreg) h0.2 hl

/-- **The ids of a loop** can be used exactly if its first registration, if there is one, is refused by epoll_ctl: then
that one has taken the 0 -/
theorem usable_iff (H : HeapAlgorithms) (ls : List (Label κ)) :
    Usable H ls ↔ ∀ l, ls.find? Label.registers = some l → l.Refused := by
  have hblank : Blank (make : Eventloop κ) := ⟨rfl, rfl⟩
  constructor
  · exact fun h l hl => hblank.first_refused h.nonzero hl
  · intro h
    obtain ⟨hnonzero, hdelivers⟩ := hblank.usable (H := H) h
    exact ⟨(ids_increase make ls).imp Nat.ne_of_lt, hnonzero, hdelivers⟩

/-- a reader is registered first: its id is 0, its fd is reported as readable, and nothing becomes ready -/
theorem first_reader_lost :
    ids sortedHeap (make : Eventloop ℕ) [.addReader 5 1 7 fun _ => true] = [0] ∧
      (Machine.run (step sortedHeap) (make : Eventloop ℕ)
        [.addReader 5 1 7 fun _ => true, .epollEvent [⟨5, true, false⟩]]).readyQueue = [] ∧
      ¬ Usable sortedHeap ([.addReader 5 1 7 fun _ => true] : List (Label ℕ)) := by
  refine ⟨by decide, by decide, ?_⟩
  intro h
  exact h.nonzero (by decide)

end Eventloop

end MCoroRpc
