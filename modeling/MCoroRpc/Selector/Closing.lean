/-
Descriptors that are closed while the selector watches them (src/epoll.cc, and the ::close of src/tcpstream.cc and
include/net/tcpservice.hpp).

The kernel takes a closed descriptor out of its interest set; the selector is not told, and the Event of the number stays
until the waits in it are cancelled. The kernel gives the number to a descriptor that is opened later. The Event has bits
left, so a registration for the number asks for EPOLL_CTL_MOD, which the kernel refuses.

- `Process`, `step`: the selector and the kernel of Selector.Kernel, and the descriptors that are open.
- `Orphan`: the number was closed under a wait that has not been cancelled since, nor has anybody registered for it.
- `registers_iff`: every registration of a run succeeds exactly if each is for an open descriptor whose number has no
  orphan.
- `synced_iff`: the selector and the kernel are in step after every call exactly if no descriptor is closed under a wait.
-/
import MCoroRpc.Selector.Kernel

namespace MCoroRpc

open Multimap

namespace Closing

open Epoll Registry

/-! ## Model -/

structure Process where
  registry : Registry
  /-- the descriptors that are open -/
  opened : Finset ℤ

inductive Label where
  | addWaiter (d : Dir) (fd : ℤ) (waitId : ℕ)
  | cancelWait (waitId : ℕ)
  /-- socket or accept4 -/
  | opens (fd : ℤ)
  /-- ::close -/
  | closes (fd : ℤ)
deriving DecidableEq, Repr

def make : Process := ⟨.make, ∅⟩

/-- epoll_ctl refuses a descriptor that is not open (EBADF); it is not in the interest set, so that a cancellation fails
for it anyway -/
def step (s : Process) : Label → Process
  | .addWaiter d fd waitId => { s with registry := s.registry.addWaiter d fd waitId (decide (fd ∉ s.opened)) }
  | .cancelWait waitId => { s with registry := s.registry.cancelWait waitId }
  | .opens fd => { s with opened := insert fd s.opened }
  | .closes fd =>
    { registry := { s.registry with interest := s.registry.interest.erase fd }, opened := s.opened.erase fd }

/-- an id is used once, and the kernel opens a number that is not open -/
def Legal (s : Process) : Label → Prop
  | .addWaiter _ _ waitId => waitId ∉ s.registry.used
  | .opens fd => fd ∉ s.opened
  | _ => True

/-- the number has been closed under the wait, which has not been cancelled since, nor has anybody registered for it -/
def Orphan (ls : List Label) (d : Dir) (fd : ℤ) (waitId : ℕ) : Prop :=
  ∃ ls0 ls1, ls = ls0 ++ .closes fd :: ls1 ∧ (Machine.run step make ls0).registry.waits fd d = some waitId ∧
    .cancelWait waitId ∉ ls1 ∧ ∀ d' waitId', .addWaiter d' fd waitId' ∉ ls1

/-! ## What the selector believes -/

variable {s : Process} {d : Dir} {fd : ℤ} {w : ℕ} {ls : List Label}

/-- the number has an Event, and the kernel does not watch it -/
def Stale (s : Process) (fd : ℤ) : Prop :=
  s.registry.epoll.eventMap.lookup fd ≠ none ∧ s.registry.interest.lookup fd = none

/-- a registration that epoll_ctl refuses -/
def Refused (s : Process) : Label → Prop
  | .addWaiter _ fd _ => fd ∉ s.opened ∨ Stale s fd
  | _ => False

structure Inv (s : Process) : Prop where
  tracks : Tracks s.registry.epoll
  /-- the kernel has no bits but those of the Event -/
  kernel : ∀ fd m, s.registry.interest.lookup fd = some m → (s.registry.epoll.eventMap.lookup fd).map Event.mask = some m
  used : ∀ fd w, s.registry.epoll.waitToFd.lookup w = some fd → w ∈ s.registry.used
  waits : ∀ d fd w, Waits s.registry.epoll d fd w ↔ s.registry.waits fd d = some w
  opened : ∀ fd, fd ∉ s.opened → s.registry.interest.lookup fd = none

theorem make_inv : Inv make := by
  refine ⟨make_tracks, ?_, Registry.make_inv.used, Registry.make_inv.waits, fun fd _ => Finmap.lookup_empty fd⟩
  intro fd m h
  rw [show make.registry.interest = ∅ from rfl, Finmap.lookup_empty] at h
  cases h

theorem Inv.interest_none (h : Inv s) (hnone : s.registry.epoll.eventMap.lookup fd = none) :
    s.registry.interest.lookup fd = none := by
  cases hm : s.registry.interest.lookup fd with
  | none => rfl
  | some m =>
    have hev := h.kernel fd m hm
    rw [hnone] at hev
    cases hev

theorem Inv.stale_of_waits (h : Inv s) (hw : s.registry.waits fd d = some w)
    (hnone : s.registry.interest.lookup fd = none) : Stale s fd :=
  ⟨(h.tracks.occupied fd).2 ⟨d, ((h.waits d fd w).2 hw).1⟩, hnone⟩

theorem Inv.waits_of_stale (h : Inv s) (hs : Stale s fd) : ∃ d w, s.registry.waits fd d = some w := by
  obtain ⟨d, hd⟩ := (h.tracks.occupied fd).1 hs.1
  exact ⟨d, _, (h.waits d fd _).1 ⟨hd, rfl⟩⟩

/-! ## Registrations -/

/-- a registration that epoll_ctl accepts -/
theorem addWaiter_accepted {r : Registry} {deny : Bool} {k : Interest}
    (hk : r.attempt deny (ctlOp fd r.epoll).toCtl fd ((r.epoll.event fd).register d w).mask = some k) :
    ∃ ctl c, (r.epoll.add d fd w ctl).1 = true ∧
      r.addWaiter d fd w deny = ⟨(r.epoll.add d fd w ctl).2, k, r.calls ++ [c], r.answers ++ [(true, true)], r.used ++ [w],
        fun fd' d' => if fd' = fd ∧ d' = d then some w else r.waits fd' d'⟩ := by
  have hfst : (r.epoll.add d fd w fun op =>
      (r.attempt deny op.toCtl fd ((r.epoll.event fd).register d w).mask).isSome).1 = true := by
    rw [add_fst, hk, Option.isSome_some]
  refine ⟨_, ⟨(ctlOp fd r.epoll).toCtl, (r.interest.lookup fd).isSome, true⟩, hfst, ?_⟩
  simp only [Registry.addWaiter, hk, hfst, Option.isSome_some, Option.getD_some, if_true]

/-- one that it refuses -/
theorem addWaiter_refused {r : Registry} {deny : Bool}
    (hk : r.attempt deny (ctlOp fd r.epoll).toCtl fd ((r.epoll.event fd).register d w).mask = none) :
    (r.addWaiter d fd w deny).answers = r.answers ++ [(false, false)] := by
  simp only [Registry.addWaiter, add_fst, hk, Option.isSome_none]

theorem Inv.attempt_accepts (h : Inv s) (hs : ¬ Stale s fd) (m : Mask) :
    s.registry.attempt false (ctlOp fd s.registry.epoll).toCtl fd m = some (s.registry.interest.insert fd m) := by
  by_cases hb : (s.registry.epoll.event fd).blank = true
  · have hnone := h.interest_none ((h.tracks.blank_iff fd).1 hb)
    simp [ctlOp, hb, CtlOp.toCtl, attempt, epollCtl, hnone]
  · have hsome : s.registry.interest.lookup fd ≠ none := fun hn => hs ⟨fun hev => hb ((h.tracks.blank_iff fd).2 hev), hn⟩
    simp [ctlOp, hb, CtlOp.toCtl, attempt, epollCtl, hsome]

theorem Inv.attempt_refuses (h : Inv s) (hs : Stale s fd) (m : Mask) (deny : Bool) :
    s.registry.attempt deny (ctlOp fd s.registry.epoll).toCtl fd m = none := by
  have hb : ¬ (s.registry.epoll.event fd).blank = true := fun hb => hs.1 ((h.tracks.blank_iff fd).1 hb)
  simp [ctlOp, hb, CtlOp.toCtl, attempt, epollCtl, hs.2]

theorem Inv.refused (h : Inv s) (hr : Refused s (.addWaiter d fd w)) :
    (step s (.addWaiter d fd w)).registry.answers = s.registry.answers ++ [(false, false)] := by
  apply addWaiter_refused
  rcases hr with hclosed | hstale
  · rw [decide_eq_true hclosed]
    rfl
  · exact h.attempt_refuses hstale _ _

theorem Inv.accepted (h : Inv s) (hr : ¬ Refused s (.addWaiter d fd w)) : ∃ ctl c, (s.registry.epoll.add d fd w ctl).1 = true ∧
    (step s (.addWaiter d fd w)).registry = ⟨(s.registry.epoll.add d fd w ctl).2,
      s.registry.interest.insert fd ((s.registry.epoll.event fd).register d w).mask, s.registry.calls ++ [c],
      s.registry.answers ++ [(true, true)], s.registry.used ++ [w],
      fun fd' d' => if fd' = fd ∧ d' = d then some w else s.registry.waits fd' d'⟩ := by
  obtain ⟨hopen, hstale⟩ := not_or.1 hr
  apply addWaiter_accepted
  rw [decide_eq_false hopen]
  exact h.attempt_accepts hstale _

theorem Inv.addWaiter (h : Inv s) (hnew : w ∉ s.registry.used) (hr : ¬ Refused s (.addWaiter d fd w)) :
    Inv (step s (.addWaiter d fd w)) := by
  obtain ⟨ctl, c, hok, he⟩ := h.accepted hr
  have hfresh : ∀ d fd, ¬ Waits s.registry.epoll d fd w := fun d fd hw => hnew (h.used fd w (h.tracks.back hw))
  refine ⟨?_, ?_, ?_, ?_, ?_⟩
  · rw [he]
    exact h.tracks.add hfresh hok
  · intro fd' m hm
    rw [he] at hm ⊢
    simp only [add_ok hok, lookup_insert_ite] at hm ⊢
    split_ifs at hm ⊢ with hfd
    · exact hm
    · exact h.kernel fd' m hm
  · intro fd' w' hl
    rw [he] at hl ⊢
    simp only [add_back hok] at hl
    split_ifs at hl with hw
    · exact List.mem_append_right _ (List.mem_singleton.2 hw)
    · exact List.mem_append_left _ (h.used fd' w' hl)
  · intro d' fd' w'
    rw [he]
    simp only [add_waits hok, h.waits]
    split_ifs with hplace
    · simp [hplace, eq_comm]
    · simp [hplace]
  · intro fd' hclosed
    rw [he]
    have hne : fd' ≠ fd := by
      rintro rfl
      exact hr (.inl hclosed)
    rw [Finmap.lookup_insert_of_ne _ hne]
    exact h.opened fd' hclosed

/-! ## Cancellations -/

/-- what cancel_wait can do to the kernel's set: for one fd it gives up the Event and the bits, or it changes both -/
theorem Inv.cancelWait_interest (h : Inv s) (w : ℕ) (fd : ℤ) :
    (s.registry.cancelWait w).interest.lookup fd = s.registry.interest.lookup fd ∧
        (s.registry.epoll.cancelWait w).eventMap.lookup fd = s.registry.epoll.eventMap.lookup fd ∨
      (s.registry.cancelWait w).interest.lookup fd = none ∧
        (s.registry.epoll.cancelWait w).eventMap.lookup fd = none ∨
      ∃ ev, (s.registry.epoll.cancelWait w).eventMap.lookup fd = some ev ∧
        (s.registry.cancelWait w).interest.lookup fd = (s.registry.interest.lookup fd).map fun _ => ev.mask := by
  rcases h.tracks.cancelWait_cases w with ⟨hl, he⟩ | ⟨fd₀, hl, ⟨hno, -, he⟩ | ⟨⟨d, hd⟩, hoff, he⟩ | ⟨⟨d, hd⟩, ⟨d', hon⟩, he⟩⟩
  · refine .inl ⟨?_, by rw [he]⟩
    simp only [Registry.cancelWait, cancelCtl, hl]
  · refine .inl ⟨?_, by rw [he]⟩
    simp only [Registry.cancelWait, cancelCtl_displaced hl hno]
  · by_cases hfd : fd = fd₀
    · subst hfd
      refine .inr (.inl ⟨?_, by rw [he, Finmap.lookup_erase]⟩)
      simp only [Registry.cancelWait, cancelCtl_last hl hd hoff, attempt, epollCtl, Bool.false_eq_true, if_false]
      split_ifs with hnone
      · exact hnone
      · exact Finmap.lookup_erase fd _
    · refine .inl ⟨?_, by rw [he, Finmap.lookup_erase_ne hfd]⟩
      simp only [Registry.cancelWait, cancelCtl_last hl hd hoff, attempt, epollCtl, Bool.false_eq_true, if_false]
      split_ifs
      · rfl
      · exact Finmap.lookup_erase_ne hfd
  · by_cases hfd : fd = fd₀
    · subst hfd
      refine .inr (.inr ⟨_, by rw [he, Finmap.lookup_insert], ?_⟩)
      simp only [Registry.cancelWait, cancelCtl_one hl hd hon, attempt, epollCtl, Bool.false_eq_true, if_false]
      split_ifs with hnone
      · rw [Option.getD_none, hnone, Option.map_none]
      · obtain ⟨m, hm⟩ := Option.ne_none_iff_exists'.1 hnone
        rw [Option.getD_some, Finmap.lookup_insert, hm, Option.map_some]
    · refine .inl ⟨?_, by rw [he, Finmap.lookup_insert_of_ne _ hfd]⟩
      simp only [Registry.cancelWait, cancelCtl_one hl hd hon, attempt, epollCtl, Bool.false_eq_true, if_false]
      split_ifs
      · rfl
      · exact Finmap.lookup_insert_of_ne _ hfd

theorem Inv.cancelWait (h : Inv s) (w : ℕ) : Inv (step s (.cancelWait w)) := by
  obtain ⟨hepoll, hused, -, hwaits⟩ := cancelWait_epoll s.registry w
  refine ⟨?_, ?_, ?_, ?_, ?_⟩
  · simp only [step, hepoll]
    exact h.tracks.cancelWait w
  · intro fd m hm
    simp only [step, hepoll] at hm ⊢
    rcases h.cancelWait_interest w fd with ⟨hi, he⟩ | ⟨hi, -⟩ | ⟨ev, hev, hi⟩
    · rw [he]
      exact h.kernel fd m (hi ▸ hm)
    · rw [hi] at hm
      cases hm
    · rw [hi] at hm
      obtain ⟨-, -, rfl⟩ := Option.map_eq_some_iff.1 hm
      rw [hev, Option.map_some]
  · intro fd w' hl
    simp only [step, hepoll, hused] at hl ⊢
    rw [h.tracks.cancelWait_lookup] at hl
    split_ifs at hl
    exact h.used fd w' hl
  · intro d fd w'
    simp only [step, hepoll, hwaits, h.tracks.cancelWait_waits, h.waits]
    by_cases hw : s.registry.waits fd d = some w
    · rw [if_pos hw, hw]
      simp [eq_comm]
    · rw [if_neg hw]
      exact ⟨fun hw' => hw'.1, fun hw' => ⟨hw', fun he => hw (he ▸ hw')⟩⟩
  · intro fd hclosed
    have hnone := h.opened fd hclosed
    simp only [step]
    rcases h.cancelWait_interest w fd with ⟨hi, -⟩ | ⟨hi, -⟩ | ⟨ev, -, hi⟩
    · rw [hi, hnone]
    · exact hi
    · rw [hi, hnone, Option.map_none]

/-! ## Runs without a refusal -/

theorem step_inv {l : Label} (h : Inv s) (hl : Legal s l) (hr : ¬ Refused s l) : Inv (step s l) := by
  cases l with
  | addWaiter d fd w => exact h.addWaiter hl hr
  | cancelWait w => exact h.cancelWait w
  | opens fd =>
    refine ⟨h.tracks, h.kernel, h.used, h.waits, ?_⟩
    intro fd' hclosed
    exact h.opened fd' fun hopen => hclosed (Finset.mem_insert_of_mem hopen)
  | closes fd =>
    refine ⟨h.tracks, ?_, h.used, h.waits, ?_⟩
    · intro fd' m hm
      simp only [step, lookup_erase_ite] at hm
      split_ifs at hm
      exact h.kernel fd' m hm
    · intro fd' hclosed
      simp only [step, lookup_erase_ite]
      split_ifs with hfd
      · rfl
      · exact h.opened fd' fun hopen => hclosed (Finset.mem_erase.2 ⟨hfd, hopen⟩)

/-- the wait is there, and the kernel does not watch the number -/
def Orphaned (s : Process) (d : Dir) (fd : ℤ) (w : ℕ) : Prop :=
  s.registry.waits fd d = some w ∧ s.registry.interest.lookup fd = none

theorem Inv.orphaned_addWaiter (h : Inv s) {d' : Dir} {fd' : ℤ} {w' : ℕ} (hr : ¬ Refused s (.addWaiter d' fd' w')) :
    Orphaned (step s (.addWaiter d' fd' w')) d fd w ↔ Orphaned s d fd w ∧ fd' ≠ fd := by
  obtain ⟨ctl, c, -, he⟩ := h.accepted hr
  rw [Orphaned, he]
  by_cases hfd : fd = fd'
  · subst hfd
    simp only [Finmap.lookup_insert, reduceCtorEq, and_false, ne_eq, not_true_eq_false]
  · simp only [hfd, Finmap.lookup_insert_of_ne _ hfd, false_and, if_false, Orphaned, ne_eq, Ne.symm hfd,
      not_false_eq_true, and_true]

theorem Inv.orphaned_cancelWait (h : Inv s) (w' : ℕ) :
    Orphaned (step s (.cancelWait w')) d fd w ↔ Orphaned s d fd w ∧ w' ≠ w := by
  have hwaits : (step s (.cancelWait w')).registry.waits fd d = some w ↔ s.registry.waits fd d = some w ∧ w' ≠ w := by
    rw [← (h.cancelWait w').waits, ← h.waits, step, (cancelWait_epoll _ _).1, h.tracks.cancelWait_waits, ne_comm]
  rw [Orphaned, hwaits, Orphaned, and_right_comm]
  apply and_congr_left
  intro hne
  apply and_congr_right
  intro hw
  simp only [step]
  rcases h.cancelWait_interest w' fd with ⟨hi, -⟩ | ⟨-, hev⟩ | ⟨ev, -, hi⟩
  · rw [hi]
  · -- the wait keeps its Event
    have hkept := (h.cancelWait w').tracks.occupied fd
    simp only [step, (cancelWait_epoll _ _).1, hev] at hkept
    have hwait := ((h.cancelWait w').waits d fd w).2 (hwaits.2 ⟨hw, hne⟩)
    rw [step, (cancelWait_epoll _ _).1] at hwait
    exact absurd rfl (hkept.2 ⟨d, hwait.1⟩)
  · rw [hi, Option.map_eq_none_iff]

theorem step_orphaned {l : Label} (h : Inv s) (hr : ¬ Refused s l) : Orphaned (step s l) d fd w ↔
    Orphaned s d fd w ∧ l ≠ .cancelWait w ∧ (∀ d' w', l ≠ .addWaiter d' fd w') ∨
      l = .closes fd ∧ s.registry.waits fd d = some w := by
  cases l with
  | addWaiter d' fd' w' =>
    rw [h.orphaned_addWaiter hr]
    simp [ne_eq, reduceCtorEq]
  | cancelWait w' =>
    rw [h.orphaned_cancelWait]
    simp
  | opens fd' => simp [Orphaned, step]
  | closes fd' =>
    simp only [Orphaned, step, lookup_erase_ite]
    by_cases hfd : fd = fd'
    · simp +contextual [hfd]
    · simp [hfd, Ne.symm hfd]

theorem orphan_snoc (ls : List Label) (l : Label) : Orphan (ls ++ [l]) d fd w ↔
    Orphan ls d fd w ∧ l ≠ .cancelWait w ∧ (∀ d' w', l ≠ .addWaiter d' fd w') ∨
      l = .closes fd ∧ (Machine.run step make ls).registry.waits fd d = some w := by
  rw [Orphan, Machine.exists_split_snoc]
  simp only [List.mem_append, List.mem_singleton, List.not_mem_nil, not_or, not_false_eq_true, and_true, forall_and,
    implies_true]
  constructor
  · intro h
    rcases h with ⟨ls0, ls1, rfl, hw, ⟨hno, hl⟩, hnone, hl'⟩ | h
    · exact .inl ⟨⟨ls0, ls1, rfl, hw, hno, hnone⟩, Ne.symm hl, fun d' w' => Ne.symm (hl' d' w')⟩
    · exact .inr h
  · intro h
    rcases h with ⟨⟨ls0, ls1, rfl, hw, hno, hnone⟩, hl, hl'⟩ | h
    · exact .inl ⟨ls0, ls1, rfl, hw, ⟨hno, Ne.symm hl⟩, hnone, fun d' w' => Ne.symm (hl' d' w')⟩
    · exact .inr h

/-- legal, and without a refusal so far -/
abbrev Calm (s : Process) (l : Label) : Prop := Legal s l ∧ ¬ Refused s l

theorem run_inv (hls : Machine.Along step Calm make ls) : Inv (Machine.run step make ls) :=
  Machine.inv_run (fun _ _ hl h => step_inv h hl.1 hl.2) hls make_inv

theorem orphan_iff (hls : Machine.Along step Calm make ls) :
    Orphan ls d fd w ↔ Orphaned (Machine.run step make ls) d fd w := by
  induction ls using List.reverseRecOn with
  | nil =>
    refine iff_of_false ?_ fun h => by cases h.1
    intro ⟨ls0, ls1, heq, _⟩
    simp at heq
  | append_singleton ls l ih =>
    obtain ⟨hls, hl, -⟩ := Machine.along_append.1 hls
    rw [orphan_snoc, ih hls, Machine.run_append]
    exact (step_orphaned (run_inv hls) hl.2).symm

/-- a number is refused for its orphans -/
theorem Inv.stale_iff (h : Inv s) : Stale s fd ↔ ∃ d w, Orphaned s d fd w := by
  constructor
  · intro hs
    obtain ⟨d, w, hw⟩ := h.waits_of_stale hs
    exact ⟨d, w, hw, hs.2⟩
  · intro ⟨d, w, hw, hnone⟩
    exact h.stale_of_waits hw hnone

/-! ## Every registration succeeds -/

/-- each registration is for an open descriptor whose number has no orphan -/
def Apt (ls : List Label) : Prop :=
  ∀ ls0 d fd w ls1, ls = ls0 ++ .addWaiter d fd w :: ls1 →
    fd ∈ (Machine.run step make ls0).opened ∧ ∀ d' w', ¬ Orphan ls0 d' fd w'

theorem not_refused_iff (hls : Machine.Along step Calm make ls) : ¬ Refused (Machine.run step make ls) (.addWaiter d fd w) ↔
    fd ∈ (Machine.run step make ls).opened ∧ ∀ d' w', ¬ Orphan ls d' fd w' := by
  simp only [Refused, (run_inv hls).stale_iff, ← orphan_iff hls, not_or, not_not, not_exists]

theorem apt_snoc {l : Label} : Apt (ls ++ [l]) ↔ Apt ls ∧ ∀ d fd w, l = .addWaiter d fd w →
    fd ∈ (Machine.run step make ls).opened ∧ ∀ d' w', ¬ Orphan ls d' fd w' := by
  constructor
  · intro h
    refine ⟨?_, fun d fd w hl => h ls d fd w [] (by rw [hl])⟩
    intro ls0 d fd w ls1 heq
    exact h ls0 d fd w (ls1 ++ [l]) (by rw [heq, List.append_assoc, List.cons_append])
  · intro ⟨hfront, hlast⟩ ls0 d fd w ls1 heq
    have hsplit := Machine.exists_split_snoc (P := fun front _ => front = ls0).1 ⟨ls0, ls1, heq, rfl⟩
    rcases hsplit with ⟨front, back, heq', rfl⟩ | ⟨hl, rfl⟩
    · exact hfront front d fd w back heq'
    · exact hlast d fd w hl

theorem calm_iff (hls : Machine.Along step Legal make ls) : Machine.Along step Calm make ls ↔ Apt ls := by
  induction ls using List.reverseRecOn with
  | nil => exact iff_of_true trivial fun ls0 d fd w ls1 heq => by simp at heq
  | append_singleton ls l ih =>
    obtain ⟨hls, hl, -⟩ := Machine.along_append.1 hls
    rw [Machine.along_append, apt_snoc, ← ih hls]
    apply and_congr_right
    intro hcalm
    constructor
    · intro ⟨⟨_, hr⟩, _⟩ d fd w hadd
      rw [hadd] at hr
      exact (not_refused_iff hcalm).1 hr
    · intro hadd
      refine ⟨⟨hl, ?_⟩, trivial⟩
      cases l with
      | addWaiter d fd w => exact (not_refused_iff hcalm).2 (hadd d fd w rfl)
      | _ => exact id

theorem step_answers (s : Process) (l : Label) : s.registry.answers ⊆ (step s l).registry.answers := by
  cases l with
  | addWaiter d fd w => exact List.subset_append_left _ _
  | cancelWait w =>
    rw [step, (cancelWait_epoll _ _).2.2.1]
    exact List.Subset.refl _
  | opens fd => exact List.Subset.refl _
  | closes fd => exact List.Subset.refl _

theorem run_answers (ls : List Label) (n : ℕ) :
    (Machine.run step make (ls.take n)).registry.answers ⊆ (Machine.run step make ls).registry.answers := by
  have hgrows : ∀ t l, (Machine.run step make (ls.take n)).registry.answers ⊆ t.registry.answers →
      (Machine.run step make (ls.take n)).registry.answers ⊆ (step t l).registry.answers :=
    fun t l h => List.Subset.trans h (step_answers t l)
  have hrest := Machine.inv_run_of_step hgrows (List.Subset.refl _) (ls.drop n)
  rwa [← Machine.run_append, List.take_append_drop] at hrest

/-- no registration has been refused -/
def Answered (s : Process) : Prop := ∀ a ∈ s.registry.answers, a.2 = true

theorem Inv.answered_step (h : Inv s) (ha : Answered s) (l : Label) : Answered (step s l) ↔ ¬ Refused s l := by
  cases l with
  | addWaiter d fd w =>
    constructor
    · intro hall hr
      rw [Answered, h.refused hr] at hall
      exact absurd (hall _ (List.mem_append_right _ (List.mem_singleton_self _))) Bool.false_ne_true
    · intro hr
      obtain ⟨ctl, c, -, he⟩ := h.accepted hr
      rw [Answered, he, List.forall_mem_append, List.forall_mem_singleton]
      exact ⟨ha, rfl⟩
  | cancelWait w =>
    rw [Answered, step, (cancelWait_epoll _ _).2.2.1]
    exact iff_of_true ha id
  | opens fd => exact iff_of_true ha id
  | closes fd => exact iff_of_true ha id

/-- **Registrations**: in a run of registrations, cancellations, and descriptors that are opened and closed, every
registration succeeds exactly if each is for an open descriptor whose number no wait is left of -/
theorem registers_iff (hls : Machine.Along step Legal make ls) :
    (∀ a ∈ (Machine.run step make ls).registry.answers, a.2 = true) ↔ Apt ls := by
  have hexact : (∀ n, Answered (Machine.run step make (ls.take n))) ↔ Machine.Along step Calm make ls := by
    apply Machine.along_iff_of_along (I := fun s => Inv s ∧ Answered s) (fun _ h => h.2) ?_ ?_ ⟨make_inv, by nofun⟩ hls
    · intro s l _ h hc
      exact ⟨step_inv h.1 hc.1 hc.2, (h.1.answered_step h.2 l).2 hc.2⟩
    · intro s l hl h hc hall
      exact hc ⟨hl, (h.1.answered_step h.2 l).1 hall⟩
  rw [← calm_iff hls, ← hexact]
  constructor
  · intro hall n a ha
    exact hall a (run_answers ls n ha)
  · intro hall
    have hwhole := hall ls.length
    rwa [List.take_length] at hwhole

/-- a descriptor is closed under a wait, and its number is used again -/
abbrev reusedRun (between : List Label) : List Label :=
  [.opens 5, .addWaiter .read 5 1, .closes 5] ++ between ++ [.opens 5, .addWaiter .write 5 2]

theorem reusedRun_legal : Machine.Along step Legal make (reusedRun [.cancelWait 1]) ∧
    Machine.Along step Legal make (reusedRun []) := by
  simp only [reusedRun, List.cons_append, List.nil_append, Machine.Along, Legal, true_and, and_true]
  decide

/-- the new registration succeeds if the old wait is cancelled in time, and not else -/
theorem registers_iff_reused : Apt (reusedRun [.cancelWait 1]) ∧ ¬ Apt (reusedRun []) :=
  ⟨(registers_iff reusedRun_legal.1).1 (by decide), fun h => absurd ((registers_iff reusedRun_legal.2).2 h) (by decide)⟩

/-! ## In step -/

/-- in addition, no id is 0 and a registration is for an open descriptor -/
def Tidy (s : Process) (l : Label) : Prop :=
  Legal s l ∧ ∀ d fd w, l = .addWaiter d fd w → w ≠ 0 ∧ fd ∈ s.opened

/-- no descriptor is closed under a wait -/
def Unwatched (s : Process) (l : Label) : Prop := ∀ fd, l = .closes fd → ∀ d, s.registry.waits fd d = none

structure InStep (s : Process) : Prop where
  inv : Registry.Inv s.registry
  calls : ∀ c ∈ s.registry.calls, Right c
  zero : s.registry.epoll.waitToFd.lookup 0 = none

theorem make_inStep : InStep make := ⟨Registry.make_inv, by nofun, Finmap.lookup_empty 0⟩

theorem InStep.agrees (h : InStep s) : Synced s.registry := h.inv.synced_of_right h.calls h.zero

theorem InStep.of_registry {l : Registry.Label} (h : InStep s) (hfresh : Fresh s.registry l) (hallowed : Allowed l) :
    InStep { s with registry := s.registry.step l } :=
  ⟨Registry.step_inv h.inv hfresh (alone_of_allowed hallowed), step_calls h.inv hallowed h.zero h.calls,
    step_zero h.inv hallowed h.zero⟩

theorem InStep.closes (h : InStep s) (hno : ∀ d, s.registry.waits fd d = none) : InStep (step s (.closes fd)) := by
  have hev : s.registry.epoll.eventMap.lookup fd = none := by
    by_contra hne
    obtain ⟨d, hd⟩ := (h.inv.tracks.occupied fd).1 hne
    have hw := (h.inv.waits d fd _).1 ⟨hd, rfl⟩
    rw [hno] at hw
    cases hw
  refine ⟨⟨h.inv.tracks, ?_, h.inv.used, h.inv.waits⟩, h.calls, h.zero⟩
  intro fd'
  simp only [step, lookup_erase_ite]
  split_ifs with hfd
  · rw [hfd, hev, Option.map_none]
  · exact h.inv.kernel fd'

theorem InStep.step {l : Label} (h : InStep s) (hl : Tidy s l) (hc : Unwatched s l) : InStep (step s l) := by
  cases l with
  | addWaiter d fd w =>
    obtain ⟨hw, hopen⟩ := hl.2 d fd w rfl
    rw [Closing.step, decide_eq_false (not_not.2 hopen)]
    exact h.of_registry (l := .addWaiter d fd w false) hl.1 ⟨hw, rfl⟩
  | cancelWait w => exact h.of_registry (l := .cancelWait w) trivial trivial
  | opens fd => exact ⟨h.inv, h.calls, h.zero⟩
  | closes fd => exact h.closes (hc fd rfl)

/-- a descriptor that is closed under a wait is watched by the selector and not by the kernel -/
theorem InStep.not_synced {l : Label} (h : InStep s) (hc : ¬ Unwatched s l) : ¬ Synced (Closing.step s l).registry := by
  simp only [Unwatched, not_forall] at hc
  obtain ⟨fd, rfl, d, hd⟩ := hc
  obtain ⟨w, hw⟩ := Option.ne_none_iff_exists'.1 hd
  intro hsynced
  have hev : s.registry.epoll.eventMap.lookup fd ≠ none :=
    (h.inv.tracks.occupied fd).2 ⟨d, ((h.inv.waits d fd w).2 hw).1⟩
  rcases hsynced.kernel fd with ⟨hnone, -⟩ | ⟨ev, m, -, hm, -⟩
  · exact hev hnone
  · simp only [Closing.step, Finmap.lookup_erase] at hm
    cases hm

/-- **The registry and the kernel**: with descriptors that are opened and closed they are in step after every call exactly
if none is closed under a wait -/
theorem synced_iff (hls : Machine.Along step Tidy make ls) :
    (∀ n, Synced (Machine.run step make (ls.take n)).registry) ↔ Machine.Along step Unwatched make ls :=
  Machine.along_iff_of_along (fun _ h => h.agrees) (fun _ _ hl h hc => h.step hl hc) (fun _ _ _ h hc => h.not_synced hc)
    make_inStep hls

/-- a wait is cancelled, and then the descriptor is closed; its number is used again -/
abbrev orderlyRun : List Label :=
  [.opens 5, .addWaiter .read 5 1, .addWaiter .write 5 2, .cancelWait 1, .cancelWait 2, .closes 5, .opens 5,
    .addWaiter .write 5 3]

theorem synced_iff_orderly : (∀ n, Synced (Machine.run step make (orderlyRun.take n)).registry) ∧
    (Machine.run step make orderlyRun).registry.waits 5 .write = some 3 := by
  refine ⟨(synced_iff ?_).2 ?_, by decide⟩
  · simp only [Machine.Along, Tidy, Legal]
    simp +decide
  · simp only [Machine.Along, Unwatched, reduceCtorEq, false_implies, implies_true, Label.closes.injEq, forall_eq',
      true_and, and_true]
    intro d
    cases d <;> decide

end Closing

end MCoroRpc
