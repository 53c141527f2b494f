/-
The release of a wait by the destructor of its awaiter (include/net/ioawaiter.hpp, src/event_loop.cc).

A ReadAwaiter or WriteAwaiter keeps the uint64_t that add_reader or add_writer returns in an `int`, and gives this to
cancel_wait, which takes a uint64_t again: the lower half of the id comes back with its sign in the upper half.

- `passed`: the id that the destructor gives to cancel_wait, if it calls it.
- `toUInt64_toInt_iff`: an id survives exactly if it is in the first 2^31 of all, or in the last.
- `Founded`: whoever waits for an fd is found in m_wait_to_fd, whatever epoll_ctl has refused; so cancel_wait finds it.
- `releases_iff`: behind any run of the loop, the awaiter gives back what it was given, and leaves nothing behind, exactly
  if the registration was refused, or its id survives and is not 0.
-/
import MCoroRpc.Coro.WaitIds
import MCoroRpc.Net.IoAwaiter

namespace MCoroRpc

open Multimap CInt

/-! ## Who waits is found -/

namespace Epoll

variable {e : Epoll} {d d' : Dir} {fd fd' : ℤ} {w w' : ℕ} {ctl : CtlOp → Bool}

/-- m_wait_to_fd leads from a waiter to its fd -/
def Back (e : Epoll) : Prop := ∀ d fd w, Waits e d fd w → e.waitToFd.lookup w = some fd

/-- whoever is found has left behind its cancellation -/
theorem Back.not_waits_cancelWait (h : Back e) : ¬ Waits (e.cancelWait w) d fd w := by
  intro hw
  have hold := h d fd w (waits_of_cancelWait hw)
  unfold Waits cancelWait at hw
  simp only [hold] at hw
  split_ifs at hw with hother hoff
  · rw [event_insert, if_pos rfl] at hw
    exact Event.other_iff.1 hother d hw.2
  · rw [event_erase, if_pos rfl, Event.default_watches] at hw
    cases hw.1
  · rw [event_insert, if_pos rfl] at hw
    have hboth : ((((e.event fd).withdraw .read w).withdraw .write w).waiter d) =
        if (e.event fd).waiter d = w then 0 else (e.event fd).waiter d := Event.withdrawBoth_waiter
    have hwatch : ((((e.event fd).withdraw .read w).withdraw .write w).watches d) =
        if (e.event fd).waiter d = w then false else (e.event fd).watches d := Event.withdrawBoth_watches
    rw [hboth, hwatch] at hw
    split_ifs at hw with heq
    · cases hw.1
    · exact heq hw.2

theorem Back.cancelWait (h : Back e) (w : ℕ) : Back (e.cancelWait w) := by
  intro d fd w' hw
  have hne : w' ≠ w := by
    rintro rfl
    exact h.not_waits_cancelWait hw
  rw [cancelWait_back hne]
  exact h d fd w' (waits_of_cancelWait hw)

theorem Back.withdrawAll (h : Back e) (ws : List ℕ) : Back (e.withdrawAll ws) := by
  induction ws generalizing e with
  | nil => exact h
  | cons w ws ih => exact ih (h.cancelWait w)

/-- what a registration that is refused does to m_wait_to_fd -/
theorem add_failed_back (h : (e.add d fd w ctl).1 = false) (hne : w' ≠ w) : (e.add d fd w ctl).2.waitToFd.lookup w' =
    if (e.event fd).waiter d ≠ 0 ∧ w' = (e.event fd).waiter d then none else e.waitToFd.lookup w' := by
  have hmap : (e.add d fd w ctl).2.waitToFd =
      ((if (e.event fd).waiter d ≠ 0 then e.waitToFd.erase ((e.event fd).waiter d) else e.waitToFd).insert w fd).erase w := by
    unfold Epoll.add at h ⊢
    dsimp only at h ⊢
    split_ifs at h ⊢ <;> rfl
  rw [hmap, Finmap.lookup_erase_ne hne, Finmap.lookup_insert_of_ne _ hne]
  split_ifs with h1 h2 h2
  · rw [h2.2, Finmap.lookup_erase]
  · exact Finmap.lookup_erase_ne fun heq => h2 ⟨h1, heq⟩
  · exact absurd h2.1 h1
  · rfl

/-- a new id, and no id in two places: a registration, accepted or not, keeps everyone findable -/
theorem Back.add (h : Back e) (hs : Single e) (hnew : ∀ d fd, ¬ Waits e d fd w) : Back (e.add d' fd' w ctl).2 := by
  intro d fd w' hw
  -- whoever has waited elsewhere is not the one that is displaced
  have helse : Waits e d fd w' → ¬ (fd = fd' ∧ d = d') →
      ¬ ((e.event fd').waiter d' ≠ 0 ∧ w' = (e.event fd').waiter d') := by
    rintro hold hplace ⟨hne, heq⟩
    obtain ⟨hd, hfd⟩ := hs d' fd' d fd hne (heq.symm.trans hold.2.symm)
    exact hplace ⟨hfd.symm, hd.symm⟩
  cases hok : (e.add d' fd' w ctl).1 with
  | true =>
    rw [add_back hok]
    rcases (add_waits hok).1 hw with ⟨hplace, heq⟩ | ⟨hplace, hold⟩
    · rw [if_pos heq, hplace.1]
    · have hne : w' ≠ w := by
        rintro rfl
        exact hnew d fd hold
      rw [if_neg hne, if_neg (helse hold hplace)]
      exact h d fd w' hold
  | false =>
    rcases waits_of_add hw with hold | ⟨htrue, -⟩
    · have hfd : fd ≠ fd' := by
        rintro rfl
        rw [Waits, add_failed_event hok, Event.default_watches] at hw
        cases hw.1
      have hne : w' ≠ w := by
        rintro rfl
        exact hnew d fd hold
      rw [add_failed_back hok hne, if_neg (helse hold fun hp => hfd hp.1)]
      exact h d fd w' hold
    · cases hok.symm.trans htrue

end Epoll

namespace Eventloop

open Epoll (Waits Back)

variable {κ : Type*} {H : HeapAlgorithms} {s : Eventloop κ} {d d' : Dir} {fd fd' : ℤ} {w : ℕ}

/-- whoever waits is found, and has an id that was given -/
structure Founded (s : Eventloop κ) : Prop where
  inv : s.Inv
  back : Back s.epoll
  below : ∀ d fd w, Waits s.epoll d fd w → w < s.nextWaitId

theorem Founded.not_waits_next (h : Founded s) : ¬ Waits s.epoll d fd s.nextWaitId :=
  fun hw => absurd (h.below _ _ _ hw) (lt_irrefl _)

theorem Founded.addWaiter_back (h : Founded s) (d : Dir) (fd : ℤ) (handle : ℕ) (cb : κ) (ctl : CtlOp → Bool) :
    Back (s.addWaiter d fd handle cb ctl).2.epoll := by
  rw [addWaiter_epoll]
  exact h.back.add h.inv.single fun _ _ => h.not_waits_next

theorem Founded.step_back (h : Founded s) (l : Label κ) : Back (s.step H l).epoll := by
  cases l with
  | callSoon handle cb => exact h.back
  | callAt time handle cb => exact h.back
  | addReader fd handle cb ctl => exact h.addWaiter_back .read fd handle cb ctl
  | addWriter fd handle cb ctl => exact h.addWaiter_back .write fd handle cb ctl
  | cancelWait w => exact h.back.cancelWait w
  | cancel c =>
    have he : (s.cancel H c).epoll = s.epoll.withdrawAll (s.waitsOf c) := cancel_epoll c
    exact he.symm ▸ h.back.withdrawAll _
  | epollEvent events => exact h.back
  | expiredTimeout now =>
    have he : (s.expire H now s.scheduled.length).epoll = s.epoll := (expire_rest now _).2.2.1
    exact he.symm ▸ h.back
  | executeReady =>
    have he : s.executeReady.2.epoll = s.epoll := (executeReady_rest s).2.2
    exact he.symm ▸ h.back
  | stop => exact h.back

theorem Founded.step (h : Founded s) (l : Label κ) : Founded (s.step H l) := by
  refine ⟨step_inv h.inv l, h.step_back l, fun d fd w hw => ?_⟩
  rcases step_waits hw with hold | hnew
  · exact lt_of_lt_of_le (h.below d fd w hold) (next_le_step s l)
  · obtain ⟨hl, rfl⟩ := given_some hnew
    rw [step_next, if_pos hl]
    exact Nat.lt_succ_self _

theorem make_founded : Founded (make : Eventloop κ) :=
  ⟨make_inv, fun _ _ _ hw => absurd hw Epoll.not_make_waits, fun _ _ _ hw => absurd hw Epoll.not_make_waits⟩

theorem Founded.run (h : Founded s) (ls : List (Label κ)) : Founded (Machine.run (Eventloop.step H) s ls) :=
  Machine.inv_run_of_step (I := Founded) (fun _ l hs => hs.step l) h ls

/-- nobody waits under this id, and nobody ever will -/
structure Unwaited (w : ℕ) (s : Eventloop κ) : Prop where
  given : w < s.nextWaitId
  waits : ∀ d fd, ¬ Waits s.epoll d fd w

theorem Unwaited.run (h : Unwaited w s) (ls : List (Label κ)) : Unwaited w (Machine.run (Eventloop.step H) s ls) := by
  refine Machine.inv_run_of_step (I := Unwaited w) (fun s l hs => ?_) h ls
  refine ⟨lt_of_lt_of_le hs.given (next_le_step s l), fun d fd hw => ?_⟩
  rcases step_waits hw with hold | hnew
  · exact hs.waits d fd hold
  · exact Nat.ne_of_lt hs.given (given_some hnew).2

/-- the counter behind a run -/
theorem run_next (s : Eventloop κ) (ls : List (Label κ)) :
    (Machine.run (Eventloop.step H) s ls).nextWaitId = s.nextWaitId + ls.countP Label.registers := by
  induction ls generalizing s with
  | nil => rfl
  | cons l ls ih =>
    rw [Machine.run_cons, ih, step_next, List.countP_cons]
    cases l.registers <;> simp only [if_true, if_false, Bool.false_eq_true] <;> omega

end Eventloop

/-! ## The id of an awaiter -/

namespace WaitRelease

open Epoll (Waits)
open Eventloop (Founded Unwaited addWaiter_epoll addWaiter_fst addWaiter_next make)
open IoLoop (drop toUInt64)

variable {κ : Type*} (H : HeapAlgorithms)

/-- await_suspend: the awaiter, and the loop behind it -/
def suspend (d : Dir) (fd : ℤ) (handle : ℕ) (cb : κ) (ctl : CtlOp → Bool) (s : Eventloop κ) : IoAwaiter × Eventloop κ :=
  let r := s.addWaiter d fd handle cb ctl
  (⟨d, fd, s.nextWaitId, toInt r.1⟩, r.2)

/-- what the destructor gives to cancel_wait -/
def passed (a : IoAwaiter) : Option ℕ := if a.waitId ≠ 0 then some (toUInt64 a.waitId) else none

/-- epoll_ctl takes the registration -/
def Accepted (d : Dir) (fd : ℤ) (ctl : CtlOp → Bool) (s : Eventloop κ) : Prop :=
  (s.epoll.add d fd s.nextWaitId ctl).1 = true

instance (d : Dir) (fd : ℤ) (ctl : CtlOp → Bool) (s : Eventloop κ) : Decidable (Accepted d fd ctl s) := by
  unfold Accepted; infer_instance

/-- the destructor gives back what add_reader or add_writer has returned, nothing where this was a failure; whatever has
happened to the loop in between, nobody waits under the id behind it -/
structure Releases (d : Dir) (fd : ℤ) (handle : ℕ) (cb : κ) (ctl : CtlOp → Bool) (s : Eventloop κ) : Prop where
  id : passed (suspend d fd handle cb ctl s).1 =
    if Accepted d fd ctl s then some (s.addWaiter d fd handle cb ctl).1 else none
  released : ∀ (ls : List (Eventloop.Label κ)) (d' : Dir) (fd' : ℤ),
    ¬ Waits (drop H (suspend d fd handle cb ctl s).1
      (Machine.run (Eventloop.step H) (suspend d fd handle cb ctl s).2 ls)).epoll d' fd' s.nextWaitId

/-- the ids that are the same behind the conversion to `int` and back -/
def Survives (n : ℕ) : Prop := n < 2147483648 ∨ 18446744071562067968 ≤ n

variable {H} {s : Eventloop κ} {d : Dir} {fd : ℤ} {handle : ℕ} {cb : κ} {ctl : CtlOp → Bool} {n : ℕ}

/-- **Narrowing**: of the 64-bit ids, those survive that are the sign extension of their lower half -/
theorem toUInt64_toInt_iff (hn : n < 18446744073709551616) : toUInt64 (toInt n) = n ↔ Survives n := by
  unfold toUInt64 Survives
  rcases lt_or_ge ((n : ℤ) % 4294967296) 2147483648 with h | h
  · rw [toInt_of_emod_lt h]
    omega
  · rw [toInt_of_le_emod h]
    omega

theorem toInt_ne_zero (h0 : n ≠ 0) (hs : Survives n) (hn : n < 18446744073709551616) : toInt n ≠ 0 := by
  intro hz
  have hback := (toUInt64_toInt_iff hn).2 hs
  rw [hz] at hback
  exact h0 hback.symm

theorem suspend_waitId : (suspend d fd handle cb ctl s).1.waitId = toInt (s.addWaiter d fd handle cb ctl).1 := by
  simp only [suspend]

theorem drop_eq (a : IoAwaiter) (t : Eventloop κ) : drop H a t =
    match passed a with
    | some w => t.cancelWait H w
    | none => t := by
  unfold drop passed
  by_cases h : a.waitId ≠ 0
  · rw [if_pos h, if_pos h]
  · rw [if_neg h, if_neg h]

/-- what the awaiter of a registration that is taken gives back -/
theorem passed_accepted (hok : Accepted d fd ctl s) (hn : s.nextWaitId < 18446744073709551616) :
    passed (suspend d fd handle cb ctl s).1 = some (s.addWaiter d fd handle cb ctl).1 ↔
      s.nextWaitId ≠ 0 ∧ Survives s.nextWaitId := by
  rw [passed, suspend_waitId, addWaiter_fst hok]
  constructor
  · intro h
    split_ifs at h with h0
    refine ⟨fun hz => h0 ?_, (toUInt64_toInt_iff hn).1 (Option.some.inj h)⟩
    rw [hz]
    rfl
  · rintro ⟨h0, hs⟩
    rw [if_pos (toInt_ne_zero h0 hs hn), (toUInt64_toInt_iff hn).2 hs]

/-- a refused registration returns 0, and the destructor does nothing -/
theorem passed_refused (hno : ¬ Accepted d fd ctl s) : passed (suspend d fd handle cb ctl s).1 = none := by
  have hzero : (s.addWaiter d fd handle cb ctl).1 = 0 := by
    unfold Eventloop.addWaiter
    dsimp only
    exact congrArg Prod.fst (if_neg hno)
  rw [passed, suspend_waitId, hzero]
  rfl

/-- cancel_wait with the own id leaves nothing behind, at any later time -/
theorem released_of_passed (hs : Founded s) (hid : passed (suspend d fd handle cb ctl s).1 = some s.nextWaitId)
    (ls : List (Eventloop.Label κ)) (d' : Dir) (fd' : ℤ) :
    ¬ Waits (drop H (suspend d fd handle cb ctl s).1
      (Machine.run (Eventloop.step H) (suspend d fd handle cb ctl s).2 ls)).epoll d' fd' s.nextWaitId := by
  have hnext : Founded (suspend d fd handle cb ctl s).2 := by
    cases d with
    | read => exact hs.step (H := H) (.addReader fd handle cb ctl)
    | write => exact hs.step (H := H) (.addWriter fd handle cb ctl)
  have hback : Epoll.Back (Machine.run (Eventloop.step H) (suspend d fd handle cb ctl s).2 ls).epoll := (hnext.run ls).back
  rw [drop_eq]
  simp only [hid]
  exact hback.not_waits_cancelWait

/-- a registration that was refused leaves nothing behind either -/
theorem released_of_refused (hs : Founded s) (hno : ¬ Accepted d fd ctl s) (ls : List (Eventloop.Label κ)) (d' : Dir)
    (fd' : ℤ) :
    ¬ Waits (drop H (suspend d fd handle cb ctl s).1
      (Machine.run (Eventloop.step H) (suspend d fd handle cb ctl s).2 ls)).epoll d' fd' s.nextWaitId := by
  have hgone : Unwaited s.nextWaitId (suspend d fd handle cb ctl s).2 := by
    refine ⟨(addWaiter_next d fd handle cb ctl).symm ▸ Nat.lt_succ_self _, fun d' fd' hw => ?_⟩
    have hw : Waits (s.addWaiter d fd handle cb ctl).2.epoll d' fd' s.nextWaitId := hw
    rw [addWaiter_epoll] at hw
    rcases Epoll.waits_of_add hw with hold | ⟨hok, -⟩
    · exact hs.not_waits_next hold
    · exact hno hok
  have hwaits := (hgone.run (H := H) ls).waits d' fd'
  rw [drop_eq]
  simp only [passed_refused hno]
  exact hwaits

/-- **Release**: behind every run of the loop, and for every value of the 64-bit counter, an awaiter gives back the id that
it was given and leaves no registration behind exactly if epoll_ctl refuses it, or its id is not 0 and survives -/
theorem releases_iff (H : HeapAlgorithms) (before : List (Eventloop.Label κ)) (d : Dir) (fd : ℤ) (handle : ℕ) (cb : κ)
    (ctl : CtlOp → Bool)
    (hn : (Machine.run (Eventloop.step H) (make : Eventloop κ) before).nextWaitId < 18446744073709551616) :
    Releases H d fd handle cb ctl (Machine.run (Eventloop.step H) make before) ↔
      (Accepted d fd ctl (Machine.run (Eventloop.step H) (make : Eventloop κ) before) →
        (Machine.run (Eventloop.step H) (make : Eventloop κ) before).nextWaitId ≠ 0 ∧
          Survives (Machine.run (Eventloop.step H) (make : Eventloop κ) before).nextWaitId) := by
  have hs : Founded (Machine.run (Eventloop.step H) (make : Eventloop κ) before) := Eventloop.make_founded.run before
  constructor
  · intro h hok
    exact (passed_accepted hok hn).1 (h.id.trans (if_pos hok))
  · intro h
    by_cases hok : Accepted d fd ctl (Machine.run (Eventloop.step H) (make : Eventloop κ) before)
    · have hid : passed (suspend d fd handle cb ctl (Machine.run (Eventloop.step H) make before)).1 =
          some ((Machine.run (Eventloop.step H) make before).addWaiter d fd handle cb ctl).1 :=
        (passed_accepted hok hn).2 (h hok)
      refine ⟨hid.trans (if_pos hok).symm, released_of_passed hs ?_⟩
      rw [hid, addWaiter_fst hok]
    · exact ⟨(passed_refused hok).trans (if_neg hok).symm, released_of_refused hs hok⟩

/-- the second registration of a loop -/
theorem releases_iff_second :
    Releases sortedHeap .read 5 1 7 (fun _ => true)
      (Machine.run (Eventloop.step sortedHeap) make [.addReader 4 0 6 fun _ => true]) :=
  (releases_iff sortedHeap [.addReader 4 0 6 fun _ => true] .read 5 1 7 (fun _ => true) (by decide)).2
    fun _ => ⟨by decide, .inl (by decide)⟩

/-- the id 2^31 -/
theorem not_releases_of (hnext : s.nextWaitId = 2147483648) (hok : Accepted d fd ctl s) :
    passed (suspend d fd handle cb ctl s).1 = some 18446744071562067968 ∧ ¬ Releases H d fd handle cb ctl s := by
  have hpassed : passed (suspend d fd handle cb ctl s).1 = some 18446744071562067968 := by
    rw [passed, suspend_waitId, addWaiter_fst hok, hnext]
    rfl
  refine ⟨hpassed, fun h => ?_⟩
  have hid := h.id
  rw [hpassed, if_pos hok, addWaiter_fst hok, hnext] at hid
  exact absurd (Option.some.inj hid) (by decide)

/-- the loop has given 2^31 ids; the awaiter that gets the next one passes another one to cancel_wait -/
theorem not_releases :
    passed (suspend .read 5 1 7 (fun _ => true) (Machine.run (Eventloop.step sortedHeap) (make : Eventloop ℕ)
        (List.replicate 2147483648 (.callSoon 0 0)))).1 = some 18446744071562067968 ∧
      ¬ Releases sortedHeap .read 5 1 7 (fun _ => true) (Machine.run (Eventloop.step sortedHeap) (make : Eventloop ℕ)
        (List.replicate 2147483648 (.callSoon 0 0))) := by
  apply not_releases_of
  · rw [Eventloop.run_next, List.countP_replicate]
    rfl
  · unfold Accepted Epoll.add
    dsimp only
    rw [if_pos rfl]

end WaitRelease

end MCoroRpc
