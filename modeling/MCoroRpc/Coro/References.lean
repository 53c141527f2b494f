/-
Coroutines under Task::cancel: why each reference to one is there, and how a coroutine changes.

- `Refers`: why a callback of the loop is pending. `Inv`: what holds as long as the cancels are harmless.
- `Change`, `change_inv`: one coroutine changes; every label but the making of a task is such a change.
- `Dropped`, `leave_inv`: a coroutine leaves what it waits for, and timers are destroyed.
-/
import MCoroRpc.Coro.Cancel

namespace MCoroRpc.Tasks

open Multimap
open Eventloop (Less)

/-! ## The invariant -/

/-- why a callback is pending -/
inductive Refers (s : Tasks) : WaitCallback Ref → Prop
  | begin {i w : ℕ} {c : Coro} (hi : s.coros.lookup i = some c) (hc : c.status = .initial) : Refers s ⟨i, w, .run i⟩
  /-- the child has ended -/
  | back {i w j : ℕ} {c cj : Coro} (hi : s.coros.lookup i = some c) (hc : c.status = .onChild j)
      (hj : s.coros.lookup j = some cj) (hd : cj.status.live = false) : Refers s ⟨i, w, .run i⟩
  | io {i w : ℕ} {c : Coro} {a : IoAwaiter} (hi : s.coros.lookup i = some c) (hc : c.status = .onIo a) :
      Refers s ⟨i, w, .resume i⟩
  | sleep {t w : ℕ} {x : Timer} {c : Coro} (ht : s.timers.lookup t = some x) (hx : x.resumes = true)
      (ho : s.coros.lookup x.owner = some c) (hm : t ∈ c.timers) (hc : c.status = .onTimer t) : Refers s ⟨t, w, .timer t⟩
  | watch {t w : ℕ} {x : Timer} {c : Coro} (ht : s.timers.lookup t = some x) (hx : x.resumes = false)
      (ho : s.coros.lookup x.owner = some c) (hm : t ∈ c.timers) (hc : c.status.live = true) : Refers s ⟨t, w, .timer t⟩

/-- the callback reads or resumes the coroutine -/
def Targets (s : Tasks) (i : ℕ) : Ref → Prop
  | .run k | .resume k => k = i
  | .timer t => ∃ x, s.timers.lookup t = some x ∧ x.owner = i

/-- no two callbacks of one handle -/
def Single (loop : Eventloop Ref) : Prop :=
  ∀ w w' cb cb', loop.waitCallback.lookup w = some cb → loop.waitCallback.lookup w' = some cb' →
    cb.coroId = cb'.coroId → w = w'

/-- who stands in the lists of the Channels -/
def Listed (s : Tasks) : Prop :=
  ∀ k l, s.lists.lookup k = some l → l.Nodup ∧
    ∀ i ∈ l, ∃ c, s.coros.lookup i = some c ∧ (c.status = .onChannel k ∨ c.status = .destroyed)

structure Inv (s : Tasks) : Prop where
  loop : s.loop.Inv
  coroIds : ∀ i c, s.coros.lookup i = some c → i < s.nextHandle
  timerIds : ∀ t x, s.timers.lookup t = some x → t < s.nextHandle ∧ s.coros.lookup t = none
  /-- the timers in a frame are those of its coroutine -/
  frame : ∀ i c t, s.coros.lookup i = some c → t ∈ c.timers → t < s.nextHandle ∧
    ∀ x, s.timers.lookup t = some x → x.owner = i
  refers : ∀ w cb, s.loop.waitCallback.lookup w = some cb → Refers s cb
  single : Single s.loop
  /-- a parent waits for its child -/
  parent : ∀ j cj p, s.coros.lookup j = some cj → cj.status.live = true → cj.parent = some p →
    ∃ cp, s.coros.lookup p = some cp ∧ cp.status = .onChild j
  child : ∀ i c j, s.coros.lookup i = some c → c.status = .onChild j → i < j ∧ j < s.nextHandle ∧
    ∀ cj, s.coros.lookup j = some cj → cj.status.live = true → cj.parent = some i
  listed : Listed s
  untouched : s.touched = []

variable {H : HeapAlgorithms} {s s' : Tasks} {i : ℕ} {c c' : Coro} {loop loop' : Eventloop Ref}

theorem gone_eq (hi : s.coros.lookup i = some c) : s.gone i = decide (c.status = .destroyed) := by
  unfold gone
  rw [hi]

theorem not_gone (hi : s.coros.lookup i = some c) (hc : c.status ≠ .destroyed) : s.gone i = false := by
  rw [gone_eq hi]
  exact decide_eq_false hc

theorem Refers.alive {cb : WaitCallback Ref} (h : Refers s cb) : s.Alive cb.userCb := by
  cases h with
  | begin hi hc => exact not_gone hi (by rw [hc]; simp)
  | back hi hc => exact not_gone hi (by rw [hc]; simp)
  | io hi hc => exact not_gone hi (by rw [hc]; simp)
  | sleep ht hx ho hm hc => exact ⟨_, ht, not_gone ho (by rw [hc]; simp)⟩
  | watch ht hx ho hm hc => exact ⟨_, ht, not_gone ho fun hd => by rw [hd] at hc; cases hc⟩

theorem Inv.noDangling (h : Inv s) : NoDangling s where
  callbacks := fun w cb hcb => (h.refers w cb hcb).alive
  parents := by
    intro i c p hi hlive hp
    obtain ⟨cp, hcp, hstatus⟩ := h.parent i c p hi hlive hp
    exact not_gone hcp (by rw [hstatus]; simp)
  untouched := h.untouched

theorem start_inv : Inv start where
  loop := Eventloop.make_inv
  coroIds := fun _ _ hi => absurd hi lookup_empty_ne
  timerIds := fun _ _ ht => absurd ht lookup_empty_ne
  frame := fun _ _ _ hi => absurd hi lookup_empty_ne
  refers := fun _ _ hcb => absurd hcb lookup_empty_ne
  single := fun _ _ _ _ hcb => absurd hcb lookup_empty_ne
  parent := fun _ _ _ hj => absurd hj lookup_empty_ne
  child := fun _ _ _ hi => absurd hi lookup_empty_ne
  listed := fun _ _ hl => absurd hl lookup_empty_ne
  untouched := rfl

/-! ### Callbacks -/

theorem Single.mono (h : Single loop)
    (hsub : ∀ w cb, loop'.waitCallback.lookup w = some cb → loop.waitCallback.lookup w = some cb) : Single loop' :=
  fun w w' cb cb' hcb hcb' => h w w' cb cb' (hsub w cb hcb) (hsub w' cb' hcb')

/-- a callback for a handle that has none -/
theorem Single.enlist (h : Single loop) {handle : ℕ} (r : Ref)
    (hnone : ∀ w cb, loop.waitCallback.lookup w = some cb → cb.coroId ≠ handle) : Single (loop.enlist handle r) := by
  intro w w' cb cb' hcb hcb' heq
  rw [Eventloop.enlist_lookup] at hcb hcb'
  split_ifs at hcb with hw
  · split_ifs at hcb' with hw'
    · exact hw.trans hw'.symm
    · obtain rfl := Option.some.inj hcb
      exact absurd heq.symm (hnone w' cb' hcb')
  · split_ifs at hcb' with hw'
    · obtain rfl := Option.some.inj hcb'
      exact absurd heq (hnone w cb hcb)
    · exact h w w' cb cb' hcb hcb' heq

/-- nothing of what the callback reads changes -/
theorem Refers.mono {cb : WaitCallback Ref} (h : Refers s cb)
    (hcoros : ∀ k c, s.coros.lookup k = some c → s'.coros.lookup k = some c)
    (htimers : ∀ x, s.timers.lookup cb.coroId = some x → s'.timers.lookup cb.coroId = some x) : Refers s' cb := by
  cases h with
  | begin hi hc => exact .begin (hcoros _ _ hi) hc
  | back hi hc hj hd => exact .back (hcoros _ _ hi) hc (hcoros _ _ hj) hd
  | io hi hc => exact .io (hcoros _ _ hi) hc
  | sleep ht hx ho hm hc => exact .sleep (htimers _ ht) hx (hcoros _ _ ho) hm hc
  | watch ht hx ho hm hc => exact .watch (htimers _ ht) hx (hcoros _ _ ho) hm hc

/-- a callback that has nothing to do with the live coroutine that changes -/
theorem Refers.frame {cb : WaitCallback Ref} (h : Refers s cb) (hi : s.coros.lookup i = some c)
    (hlive : c.status.live = true) (hnot : ¬ s.Targets i cb.userCb)
    (hcoros : ∀ k c, k ≠ i → s.coros.lookup k = some c → s'.coros.lookup k = some c)
    (htimers : ∀ t x, x.owner ≠ i → s.timers.lookup t = some x → s'.timers.lookup t = some x) : Refers s' cb := by
  cases h with
  | begin hk hc => exact .begin (hcoros _ _ hnot hk) hc
  | @back k w j d cj hk hc hj hd =>
    have hji : j ≠ i := by
      rintro rfl
      rw [Option.some.inj (hi.symm.trans hj), hd] at hlive
      cases hlive
    exact .back (hcoros _ _ hnot hk) hc (hcoros _ _ hji hj) hd
  | io hk hc => exact .io (hcoros _ _ hnot hk) hc
  | sleep ht hx ho hm hc =>
    have hne := fun heq => hnot ⟨_, ht, heq⟩
    exact .sleep (htimers _ _ hne ht) hx (hcoros _ _ hne ho) hm hc
  | watch ht hx ho hm hc =>
    have hne := fun heq => hnot ⟨_, ht, heq⟩
    exact .watch (htimers _ _ hne ht) hx (hcoros _ _ hne ho) hm hc

/-- its own callback, that of its sleep, or that of a timer of wait_for -/
theorem Refers.targets {cb : WaitCallback Ref} (h : Refers s cb) (ht : s.Targets i cb.userCb)
    (hi : s.coros.lookup i = some c) :
    (cb.coroId = i ∧ (c.status = .initial ∨
      (∃ j cj, c.status = .onChild j ∧ s.coros.lookup j = some cj ∧ cj.status.live = false) ∨ ∃ a, c.status = .onIo a)) ∨
    (∃ x, c.status = .onTimer cb.coroId ∧ s.timers.lookup cb.coroId = some x ∧ cb.coroId ∈ c.timers) ∨
    ∃ t w x, cb = ⟨t, w, .timer t⟩ ∧ s.timers.lookup t = some x ∧ x.resumes = false ∧ x.owner = i ∧ t ∈ c.timers := by
  cases h with
  | begin hi' hc =>
    obtain rfl := ht
    obtain rfl := Option.some.inj (hi.symm.trans hi')
    exact .inl ⟨rfl, .inl hc⟩
  | back hi' hc hj hd =>
    obtain rfl := ht
    obtain rfl := Option.some.inj (hi.symm.trans hi')
    exact .inl ⟨rfl, .inr (.inl ⟨_, _, hc, hj, hd⟩)⟩
  | io hi' hc =>
    obtain rfl := ht
    obtain rfl := Option.some.inj (hi.symm.trans hi')
    exact .inl ⟨rfl, .inr (.inr ⟨_, hc⟩)⟩
  | sleep htm hx ho hm hc =>
    obtain ⟨x', hx', rfl⟩ := ht
    obtain rfl := Option.some.inj (htm.symm.trans hx')
    obtain rfl := Option.some.inj (hi.symm.trans ho)
    exact .inr (.inl ⟨_, hc, htm, hm⟩)
  | watch htm hx ho hm hc =>
    obtain ⟨x', hx', rfl⟩ := ht
    obtain rfl := Option.some.inj (htm.symm.trans hx')
    obtain rfl := Option.some.inj (hi.symm.trans ho)
    exact .inr (.inr ⟨_, _, _, rfl, htm, hx, rfl, hm⟩)

/-- whose callback it is -/
theorem Refers.handle {cb : WaitCallback Ref} (h : Refers s cb) :
    (∃ c, s.coros.lookup cb.coroId = some c ∧ s.Targets cb.coroId cb.userCb) ∨
    ∃ x, s.timers.lookup cb.coroId = some x ∧ cb.userCb = .timer cb.coroId := by
  cases h with
  | begin hi => exact .inl ⟨_, hi, rfl⟩
  | back hi => exact .inl ⟨_, hi, rfl⟩
  | io hi => exact .inl ⟨_, hi, rfl⟩
  | sleep ht => exact .inr ⟨_, ht, rfl⟩
  | watch ht => exact .inr ⟨_, ht, rfl⟩

theorem Inv.handle_lt (h : Inv s) {w : ℕ} {cb : WaitCallback Ref} (hcb : s.loop.waitCallback.lookup w = some cb) :
    cb.coroId < s.nextHandle := by
  rcases (h.refers w cb hcb).handle with ⟨c, hc, -⟩ | ⟨x, hx, -⟩
  · exact h.coroIds _ _ hc
  · exact (h.timerIds _ _ hx).1

/-- who has a callback of its own -/
theorem Inv.own (h : Inv s) {w : ℕ} {cb : WaitCallback Ref} (hcb : s.loop.waitCallback.lookup w = some cb)
    (hi : s.coros.lookup cb.coroId = some c) : c.status = .initial ∨
      (∃ j cj, c.status = .onChild j ∧ s.coros.lookup j = some cj ∧ cj.status.live = false) ∨
      ∃ a, c.status = .onIo a := by
  have hnone : ∀ x, s.timers.lookup cb.coroId ≠ some x := fun x hx => by
    cases (h.timerIds _ _ hx).2.symm.trans hi
  rcases (h.refers w cb hcb).handle with ⟨-, -, htarget⟩ | ⟨x, hx, -⟩
  · rcases (h.refers w cb hcb).targets htarget hi with ⟨-, hc⟩ | ⟨x, -, hx, -⟩ | ⟨t, w', x, he, hx, -⟩
    · exact hc
    · exact absurd hx (hnone x)
    · rw [he] at hnone
      exact absurd hx (hnone x)
  · exact absurd hx (hnone x)

theorem Inv.idle (h : Inv s) (hi : s.coros.lookup i = some c)
    (hstatus : c.status = .running ∨ (∃ k, c.status = .onChannel k) ∨ ∃ t, c.status = .onTimer t)
    {w : ℕ} {cb : WaitCallback Ref} (hcb : s.loop.waitCallback.lookup w = some cb) : cb.coroId ≠ i := by
  rintro rfl
  rcases h.own hcb hi with hc | ⟨j, -, hc, -⟩ | ⟨a, hc⟩ <;>
    rcases hstatus with hs | ⟨k, hs⟩ | ⟨t, hs⟩ <;> cases hc.symm.trans hs

/-! ### One coroutine changes -/

structure Change (s s' : Tasks) (i : ℕ) (c c' : Coro) : Prop where
  before : s.coros.lookup i = some c
  live : c.status.live = true
  coros : ∀ k, s'.coros.lookup k = if k = i then some c' else s.coros.lookup k
  parent : c'.parent = c.parent
  nextHandle : s.nextHandle ≤ s'.nextHandle
  /-- a timer in the frame is an old one or made in this step -/
  frame : ∀ t ∈ c'.timers, t ∈ c.timers ∨ s.nextHandle ≤ t ∧ t < s'.nextHandle
  timers : ∀ t x, s'.timers.lookup t = some x → (∃ x', s.timers.lookup t = some x' ∧ x'.owner = x.owner) ∨
    s.nextHandle ≤ t ∧ t < s'.nextHandle ∧ x.owner = i
  others : ∀ t x, x.owner ≠ i → s.timers.lookup t = some x → s'.timers.lookup t = some x
  /-- it goes on waiting for a child that has not ended -/
  leaves : ∀ j cj, c.status = .onChild j → s.coros.lookup j = some cj → cj.status.live = true → c'.status = .onChild j
  /-- a child that it begins to wait for is made in this step -/
  enters : ∀ j, c'.status = .onChild j → c.status = .onChild j ∨ s.nextHandle ≤ j ∧ j < s'.nextHandle
  touched : s'.touched = s.touched

theorem Inv.no_coro (h : Inv s) {k : ℕ} (hk : s.nextHandle ≤ k) : s.coros.lookup k = none := by
  cases hc : s.coros.lookup k with
  | none => rfl
  | some c => exact absurd (h.coroIds k c hc) (Nat.not_lt.2 hk)

theorem Inv.no_timer (h : Inv s) {k : ℕ} (hk : s.nextHandle ≤ k) : s.timers.lookup k = none := by
  cases hx : s.timers.lookup k with
  | none => rfl
  | some x => exact absurd (h.timerIds k x hx).1 (Nat.not_lt.2 hk)

theorem Change.self (hc : Change s s' i c c') : s'.coros.lookup i = some c' := by
  rw [hc.coros, if_pos rfl]

theorem Change.other (hc : Change s s' i c c') {k : ℕ} (hk : k ≠ i) : s'.coros.lookup k = s.coros.lookup k := by
  rw [hc.coros, if_neg hk]

theorem change_ids (h : Inv s) (hc : Change s s' i c c') {k : ℕ} {d : Coro} (hk : s'.coros.lookup k = some d) :
    k < s'.nextHandle := by
  rw [hc.coros] at hk
  split_ifs at hk with hki
  · rw [hki]
    exact lt_of_lt_of_le (h.coroIds i c hc.before) hc.nextHandle
  · exact lt_of_lt_of_le (h.coroIds k d hk) hc.nextHandle

theorem change_timers (h : Inv s) (hc : Change s s' i c c') {t : ℕ} {x : Timer} (ht : s'.timers.lookup t = some x) :
    t < s'.nextHandle ∧ s'.coros.lookup t = none := by
  have hnone : s.coros.lookup t = none → s'.coros.lookup t = none := by
    intro hn
    have hti : t ≠ i := by
      rintro rfl
      cases hn.symm.trans hc.before
    rw [hc.other hti]
    exact hn
  rcases hc.timers t x ht with ⟨x', hx', -⟩ | ⟨hle, hlt, -⟩
  · obtain ⟨hlt, hn⟩ := h.timerIds t x' hx'
    exact ⟨lt_of_lt_of_le hlt hc.nextHandle, hnone hn⟩
  · exact ⟨hlt, hnone (h.no_coro hle)⟩

/-- an old timer in a frame keeps its owner -/
theorem change_owner (h : Inv s) (hc : Change s s' i c c') {k t : ℕ} {d : Coro} (hk : s.coros.lookup k = some d)
    (hmem : t ∈ d.timers) : t < s'.nextHandle ∧ ∀ x, s'.timers.lookup t = some x → x.owner = k := by
  obtain ⟨hlt, howner⟩ := h.frame k d t hk hmem
  refine ⟨lt_of_lt_of_le hlt hc.nextHandle, ?_⟩
  intro x hx
  rcases hc.timers t x hx with ⟨x', hx', ho⟩ | ⟨hle, -, -⟩
  · exact ho ▸ howner x' hx'
  · exact absurd hlt (Nat.not_lt.2 hle)

theorem change_frame (h : Inv s) (hc : Change s s' i c c') {k t : ℕ} {d : Coro} (hk : s'.coros.lookup k = some d)
    (hmem : t ∈ d.timers) : t < s'.nextHandle ∧ ∀ x, s'.timers.lookup t = some x → x.owner = k := by
  rw [hc.coros] at hk
  split_ifs at hk with hki
  · obtain rfl := Option.some.inj hk
    subst hki
    rcases hc.frame t hmem with hold | ⟨hle, hlt⟩
    · exact change_owner h hc hc.before hold
    · refine ⟨hlt, ?_⟩
      intro x hx
      rcases hc.timers t x hx with ⟨x', hx', -⟩ | ⟨-, -, ho⟩
      · cases (h.no_timer hle).symm.trans hx'
      · exact ho
  · exact change_owner h hc hk hmem

theorem change_parent (h : Inv s) (hc : Change s s' i c c') {j p : ℕ} {cj : Coro} (hj : s'.coros.lookup j = some cj)
    (hlive : cj.status.live = true) (hp : cj.parent = some p) :
    ∃ cp, s'.coros.lookup p = some cp ∧ cp.status = .onChild j := by
  have hold : ∃ d cp, s.coros.lookup j = some d ∧ d.status.live = true ∧ s.coros.lookup p = some cp ∧
      cp.status = .onChild j := by
    rw [hc.coros] at hj
    split_ifs at hj with hji
    · obtain rfl := Option.some.inj hj
      subst hji
      obtain ⟨cp, hcp, hstatus⟩ := h.parent j c p hc.before hc.live (hc.parent ▸ hp)
      exact ⟨c, cp, hc.before, hc.live, hcp, hstatus⟩
    · obtain ⟨cp, hcp, hstatus⟩ := h.parent j cj p hj hlive hp
      exact ⟨cj, cp, hj, hlive, hcp, hstatus⟩
  obtain ⟨d, cp, hd, hdl, hcp, hstatus⟩ := hold
  by_cases hpi : p = i
  · subst hpi
    obtain rfl := Option.some.inj (hc.before.symm.trans hcp)
    exact ⟨c', hc.self, hc.leaves j d hstatus hd hdl⟩
  · exact ⟨cp, by rw [hc.other hpi, hcp], hstatus⟩

theorem change_child (h : Inv s) (hc : Change s s' i c c') {k j : ℕ} {d : Coro} (hk : s'.coros.lookup k = some d)
    (hstatus : d.status = .onChild j) : k < j ∧ j < s'.nextHandle ∧
      ∀ cj, s'.coros.lookup j = some cj → cj.status.live = true → cj.parent = some k := by
  -- what the table says about an old child
  have hold : ∀ e, s.coros.lookup k = some e → e.status = .onChild j → k < j ∧ j < s'.nextHandle ∧
      ∀ cj, s'.coros.lookup j = some cj → cj.status.live = true → cj.parent = some k := by
    intro e he hes
    obtain ⟨hkj, hlt, hparent⟩ := h.child k e j he hes
    refine ⟨hkj, lt_of_lt_of_le hlt hc.nextHandle, ?_⟩
    intro cj hcj hlive
    rw [hc.coros] at hcj
    split_ifs at hcj with hji
    · obtain rfl := Option.some.inj hcj
      subst hji
      rw [hc.parent]
      exact hparent c hc.before hc.live
    · exact hparent cj hcj hlive
  by_cases hki : k = i
  · subst hki
    obtain rfl := Option.some.inj (hc.self.symm.trans hk)
    rcases hc.enters j hstatus with hs | ⟨hle, hlt⟩
    · exact hold c hc.before hs
    · have hkj : k < j := lt_of_lt_of_le (h.coroIds k c hc.before) hle
      refine ⟨hkj, hlt, ?_⟩
      intro cj hcj
      rw [hc.other (Nat.ne_of_gt hkj), h.no_coro hle] at hcj
      cases hcj
  · rw [hc.other hki] at hk
    exact hold d hk hstatus

/-- **One change**: the invariant is kept if the loop and the lists are in order, and each callback is explained anew or
has nothing to do with the coroutine -/
theorem change_inv (h : Inv s) (hc : Change s s' i c c') (hloop : s'.loop.Inv) (hsingle : Single s'.loop)
    (hlisted : Listed s') (hrefers : ∀ w cb, s'.loop.waitCallback.lookup w = some cb → Refers s' cb ∨
      s.loop.waitCallback.lookup w = some cb ∧ ¬ s.Targets i cb.userCb) : Inv s' where
  loop := hloop
  coroIds := fun _ _ hk => change_ids h hc hk
  timerIds := fun _ _ ht => change_timers h hc ht
  frame := fun _ _ _ hk hmem => change_frame h hc hk hmem
  refers := by
    intro w cb hcb
    rcases hrefers w cb hcb with hnew | ⟨hold, hnot⟩
    · exact hnew
    · exact (h.refers w cb hold).frame hc.before hc.live hnot (fun k d hk hd => by rw [hc.other hk, hd]) hc.others
  single := hsingle
  parent := fun _ _ _ hj hlive hp => change_parent h hc hj hlive hp
  child := fun _ _ _ hk hstatus => change_child h hc hk hstatus
  listed := hlisted
  untouched := hc.touched.trans h.untouched

/-- a timer of wait_for goes on if its coroutine and it are kept -/
theorem Refers.stays {cb : WaitCallback Ref} (h : Refers s cb) (hi : s.coros.lookup i = some c)
    (ht : s.Targets i cb.userCb) (hne : cb.coroId ≠ i)
    (hkeep : ∀ x, s.timers.lookup cb.coroId = some x → cb.coroId ∈ c.timers →
      c.status ≠ .onTimer cb.coroId ∧ s'.timers.lookup cb.coroId = some x ∧ cb.coroId ∈ c'.timers)
    (hi' : s'.coros.lookup i = some c') (hlive : c'.timers ≠ [] → c'.status.live = true) : Refers s' cb := by
  rcases h.targets ht hi with ⟨heq, -⟩ | ⟨x, hc, hx, hmem⟩ | ⟨t, w, x, rfl, hx, hresumes, rfl, hmem⟩
  · exact absurd heq hne
  · exact absurd hc (hkeep x hx hmem).1
  · obtain ⟨-, hx', hmem'⟩ := hkeep x hx hmem
    exact .watch hx' hresumes hi' hmem' (hlive (List.ne_nil_of_mem hmem'))

/-! ### Timers are destroyed -/

/-- the timers `ts` are destroyed, and waits are cancelled -/
structure Dropped (s u : Tasks) (ts : List ℕ) : Prop where
  loop : s.loop.Inv → u.loop.Inv
  less : Less s.loop u.loop
  timers : ∀ t, u.timers.lookup t = if t ∈ ts then none else s.timers.lookup t
  /-- a timer that was there has no callback any more -/
  quiet : s.loop.Inv → ∀ w cb, u.loop.waitCallback.lookup w = some cb → cb.coroId ∈ ts →
    s.timers.lookup cb.coroId = none
  coros : u.coros = s.coros
  lists : u.lists = s.lists
  nextHandle : u.nextHandle = s.nextHandle
  touched : u.touched = s.touched

variable {u v : Tasks} {ts : List ℕ}

theorem Dropped.trans {ts' : List ℕ} (h1 : Dropped s u ts) (h2 : Dropped u v ts') : Dropped s v (ts ++ ts') where
  loop := fun h => h2.loop (h1.loop h)
  less := h1.less.trans h2.less
  timers := by
    intro t
    rw [h2.timers, h1.timers]
    by_cases h : t ∈ ts <;> by_cases h' : t ∈ ts' <;> simp [h, h']
  quiet := by
    intro h w cb hcb hmem
    have hcb' := h2.less.callback w cb hcb
    by_cases hts : cb.coroId ∈ ts
    · exact h1.quiet h w cb hcb' hts
    · have hn := h2.quiet (h1.loop h) w cb hcb ((List.mem_append.1 hmem).resolve_left hts)
      rwa [h1.timers, if_neg hts] at hn
  coros := h2.coros.trans h1.coros
  lists := h2.lists.trans h1.lists
  nextHandle := h2.nextHandle.trans h1.nextHandle
  touched := h2.touched.trans h1.touched

theorem withLoop_dropped (hinv : s.loop.Inv → loop.Inv) (hless : Less s.loop loop) : Dropped s (s.withLoop loop) [] where
  loop := hinv
  less := hless
  timers := fun t => (if_neg List.not_mem_nil).symm
  quiet := fun _ _ _ _ hmem => by cases hmem
  coros := rfl
  lists := rfl
  nextHandle := rfl
  touched := rfl

theorem dropTimer_dropped (t : ℕ) : Dropped s (s.dropTimer H t) [t] := by
  have herase : ∀ l : Eventloop Ref, (s.loop.Inv → l.Inv) → Less s.loop l →
      Dropped s { s with loop := l.cancel H t, timers := s.timers.erase t } [t] := by
    intro l hinv hless
    refine ⟨fun h => Eventloop.cancel_inv (hinv h) t, hless.trans (Eventloop.cancel_less t), ?_, ?_, rfl, rfl, rfl, rfl⟩
    · intro t'
      simp only [List.mem_singleton]
      exact lookup_erase_ite
    · intro h w cb hcb hmem
      exact absurd (List.mem_singleton.1 hmem) (Eventloop.cancel_none (hinv h) hcb)
  unfold dropTimer
  cases hx : s.timers.lookup t with
  | none =>
    refine ⟨id, Less.refl, ?_, ?_, rfl, rfl, rfl, rfl⟩
    · intro t'
      split_ifs with ht
      · rw [List.mem_singleton.1 ht, hx]
      · rfl
    · intro _ w cb _ hmem
      rw [List.mem_singleton.1 hmem, hx]
  | some x =>
    dsimp only
    split_ifs
    · exact herase _ (fun h => Eventloop.cancelWait_inv h _) (Eventloop.cancelWait_less _)
    · exact herase _ id Less.refl

theorem dropTimers_dropped (ts : List ℕ) : Dropped s (s.dropTimers H ts) ts := by
  induction ts generalizing s with
  | nil => exact withLoop_dropped id Less.refl
  | cons t ts ih => exact (dropTimer_dropped t).trans ih

theorem update_self : (u.update i c').coros.lookup i = some c' := Finmap.lookup_insert _

theorem Dropped.update_other (hd : Dropped s u ts) {k : ℕ} (hk : k ≠ i) :
    (u.update i c').coros.lookup k = s.coros.lookup k := by
  rw [← hd.coros]
  exact Finmap.lookup_insert_of_ne _ hk

theorem Listed.leave (h : Listed s) (hlists : s'.lists = s.lists)
    (hcoros : ∀ k, k ≠ i → s'.coros.lookup k = s.coros.lookup k)
    (hi : ∀ k l, s.lists.lookup k = some l → i ∈ l →
      ∃ c', s'.coros.lookup i = some c' ∧ (c'.status = .onChannel k ∨ c'.status = .destroyed)) : Listed s' := by
  intro k l hl
  rw [hlists] at hl
  obtain ⟨hnodup, hmem⟩ := h k l hl
  refine ⟨hnodup, ?_⟩
  intro j hj
  by_cases hji : j = i
  · subst hji
    exact hi k l hl hj
  · rw [hcoros j hji]
    exact hmem j hj

/-- a coroutine leaves what it waits for, or some of its timers -/
theorem leave_inv (h : Inv s) (hd : Dropped s u ts) (hi : s.coros.lookup i = some c) (hlive : c.status.live = true)
    (hts : ∀ t ∈ ts, t ∈ c.timers) (hparent : c'.parent = c.parent)
    (htimers : ∀ t, t ∈ c'.timers ↔ t ∈ c.timers ∧ t ∉ ts) (hframe : c'.timers ≠ [] → c'.status.live = true)
    (hleaves : ∀ j cj, c.status = .onChild j → s.coros.lookup j = some cj → cj.status.live = true →
      c'.status = .onChild j)
    (henters : ∀ j, c'.status = .onChild j → c.status = .onChild j)
    (hlists : ∀ k l, s.lists.lookup k = some l → i ∈ l → c'.status = .onChannel k ∨ c'.status = .destroyed)
    (hsleep : ∀ t ∈ c.timers, c.status = .onTimer t → t ∈ ts)
    (hquiet : ∀ w cb, u.loop.waitCallback.lookup w = some cb → cb.coroId ≠ i) : Inv (u.update i c') := by
  have hchange : Change s (u.update i c') i c c' := by
    refine ⟨hi, hlive, ?_, hparent, le_of_eq hd.nextHandle.symm, fun t ht => .inl ((htimers t).1 ht).1, ?_, ?_, hleaves,
      fun j hj => .inl (henters j hj), hd.touched⟩
    · intro k
      split_ifs with hk
      · rw [hk, update_self]
      · exact hd.update_other hk
    · intro t x ht
      have ht' : u.timers.lookup t = some x := ht
      rw [hd.timers] at ht'
      split_ifs at ht'
      exact .inl ⟨x, ht', rfl⟩
    · intro t x hne ht
      have hnot : t ∉ ts := fun hmem => hne ((h.frame i c t hi (hts t hmem)).2 x ht)
      exact (hd.timers t).trans (by rw [if_neg hnot, ht])
  apply change_inv h hchange (hd.loop h.loop) (h.single.mono hd.less.callback)
  · exact h.listed.leave hd.lists (fun k hk => hd.update_other hk) fun k l hl hmem =>
      ⟨c', update_self, hlists k l hl hmem⟩
  · intro w cb hcb
    have hold := hd.less.callback w cb hcb
    by_cases ht : s.Targets i cb.userCb
    · refine .inl ((h.refers w cb hold).stays hi ht (hquiet w cb hcb) ?_ update_self hframe)
      intro x hx hmem
      have hnot : cb.coroId ∉ ts := fun hm => by cases (hd.quiet h.loop w cb hcb hm).symm.trans hx
      have hx' : u.timers.lookup cb.coroId = some x := (hd.timers _).trans (by rw [if_neg hnot, hx])
      exact ⟨fun hs => hnot (hsleep _ hmem hs), hx', (htimers _).2 ⟨hmem, hnot⟩⟩
    · exact .inr ⟨hold, ht⟩

end MCoroRpc.Tasks
