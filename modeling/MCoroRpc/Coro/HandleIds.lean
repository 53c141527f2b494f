/-
The ids of handles (Handle in include/coro/handle.hpp and src/handle.cc, Eventloop::cancel in src/event_loop.cc).

Coroutines and timers are handles. Each gets its id from a 32-bit counter that passes over 0, so that the ids come again
after 2^32 - 1 handles. The loops of the threads keep the waits of a handle under its id.

- `Process`: the handles by the order in which they are created, and the loops. The callback of a wait is the handle that
  has registered it.
- `Identified`: the ids tell the handles apart, and cancelling or destroying one takes no wait of another.
- `identified_iff`: that holds throughout a run exactly if no handle is created a multiple of 2^32 - 1 creations behind one
  that is still there or has a wait that is left.
-/
import MCoroRpc.Coro.Eventloop

namespace MCoroRpc

namespace HandleIds

open Multimap

/-! ## Model -/

/-- `++id_generator` -/
def increment (idGenerator : ℕ) : ℕ := (idGenerator + 1) % 4294967296

/-- the id, which is also what the counter is left at -/
def generatorId (idGenerator : ℕ) : ℕ :=
  if increment idGenerator = 0 then increment (increment idGenerator) else increment idGenerator

inductive State where
  | unschedule
  | schedule
  | cancelled
  | suspend
deriving DecidableEq, Repr

structure Handle where
  id : ℕ
  state : State
deriving DecidableEq, Repr

structure Process where
  idGenerator : ℕ
  /-- how many handles have been created; a handle is known by the number of those before it -/
  created : ℕ
  handles : Finmap fun _ : ℕ => Handle
  loops : ℕ → Eventloop ℕ

def start : Process := ⟨0, 0, ∅, fun _ => .make⟩

/-- the registrations that a handle can make, each with what it is given -/
inductive Registration where
  | callSoon
  | callAt (time : ℤ)
  | addReader (fd : ℤ) (ctl : CtlOp → Bool)
  | addWriter (fd : ℤ) (ctl : CtlOp → Bool)

def Registration.label (id k : ℕ) : Registration → Eventloop.Label ℕ
  | .callSoon => .callSoon id k
  | .callAt time => .callAt time id k
  | .addReader fd ctl => .addReader fd id k ctl
  | .addWriter fd ctl => .addWriter fd id k ctl

/-- what a loop does that is no registration and no cancel of a handle -/
inductive Turn where
  | cancelWait (waitId : ℕ)
  | epollEvent (events : List Epoll.Report)
  | expiredTimeout (now : ℤ)
  | executeReady
  | stop

def Turn.label : Turn → Eventloop.Label ℕ
  | .cancelWait waitId => .cancelWait waitId
  | .epollEvent events => .epollEvent events
  | .expiredTimeout now => .expiredTimeout now
  | .executeReady => .executeReady
  | .stop => .stop

/-- `k` is a handle, `L` the loop of the thread on which it happens -/
inductive Label where
  | create
  | setState (k : ℕ) (state : State)
  | register (k L : ℕ) (r : Registration)
  | cancel (k L : ℕ)
  | destroy (k L : ℕ)
  | turn (L : ℕ) (t : Turn)

namespace Process

variable (H : HeapAlgorithms)

def onLoop (L : ℕ) (f : Eventloop ℕ → Eventloop ℕ) (s : Process) : Process :=
  { s with loops := Function.update s.loops L (f (s.loops L)) }

def create (s : Process) : Process :=
  let id := generatorId s.idGenerator
  { s with idGenerator := id, created := s.created + 1, handles := s.handles.insert s.created ⟨id, .unschedule⟩ }

def setState (k : ℕ) (state : State) (s : Process) : Process :=
  match s.handles.lookup k with
  | some h => { s with handles := s.handles.insert k { h with state := state } }
  | none => s

def register (k L : ℕ) (r : Registration) (s : Process) : Process :=
  match s.handles.lookup k with
  | some h => s.onLoop L fun loop => loop.step H (r.label h.id k)
  | none => s

/-- `Handle::cancel` -/
def cancel (k L : ℕ) (s : Process) : Process :=
  match s.handles.lookup k with
  | some h => if h.state = .cancelled then s else (s.onLoop L fun loop => loop.cancel H h.id).setState k .cancelled
  | none => s

/-- `~Handle` -/
def destroy (k L : ℕ) (s : Process) : Process :=
  { s.cancel H k L with handles := (s.cancel H k L).handles.erase k }

def step (s : Process) : Label → Process
  | .create => s.create
  | .setState k state => s.setState k state
  | .register k L r => s.register H k L r
  | .cancel k L => s.cancel H k L
  | .destroy k L => s.destroy H k L
  | .turn L t => s.onLoop L fun loop => loop.step H t.label

end Process

/-! ## The property and its condition -/

structure Identified (H : HeapAlgorithms) (s : Process) : Prop where
  distinct : ∀ (j k : ℕ) (h h' : Handle), s.handles.lookup j = some h → s.handles.lookup k = some h' → h.id = h'.id → j = k
  nonzero : ∀ (k : ℕ) (h : Handle), s.handles.lookup k = some h → h.id ≠ 0
  /-- no wait that another handle has registered is cancelled, in whatever loop -/
  keeps : ∀ (k L L' w : ℕ) (cb : WaitCallback ℕ), (s.loops L').waitCallback.lookup w = some cb → cb.userCb ≠ k →
    ((s.step H (.cancel k L)).loops L').waitCallback.lookup w = some cb ∧
      ((s.step H (.destroy k L)).loops L').waitCallback.lookup w = some cb

/-- the handle is there, or a wait that it has registered -/
def Process.Present (s : Process) (j : ℕ) : Prop :=
  (∃ h, s.handles.lookup j = some h) ∨ ∃ L w cb, (s.loops L).waitCallback.lookup w = some cb ∧ cb.userCb = j

def Fresh (s : Process) : Label → Prop
  | .create => ∀ j, s.Present j → ¬ 4294967295 ∣ s.created - j
  | _ => True

/-! ## Ids -/

/-- the id of the handle with `j` before it -/
def idOf (j : ℕ) : ℕ := j % 4294967295 + 1

theorem generatorId_idOf (j : ℕ) : generatorId (idOf j) = idOf (j + 1) := by
  unfold generatorId increment idOf
  split_ifs <;> omega

theorem idOf_eq_iff {j k : ℕ} (hle : j ≤ k) : idOf j = idOf k ↔ 4294967295 ∣ k - j :=
  calc idOf j = idOf k
    _ ↔ j % 4294967295 = k % 4294967295 := Nat.add_right_cancel_iff
    _ ↔ 4294967295 ∣ k - j := Nat.modEq_iff_dvd' hle

/-! ## What holds in every run -/

section
variable {H : HeapAlgorithms} {s : Process} {l : Label} {j k L w : ℕ} {cb : WaitCallback ℕ}

/-- the ids are those of the order, also in the loops -/
structure Numbered (s : Process) : Prop where
  loops : ∀ L, (s.loops L).Inv
  next : generatorId s.idGenerator = idOf s.created
  ids : ∀ (k : ℕ) (h : Handle), s.handles.lookup k = some h → k < s.created ∧ h.id = idOf k
  waits : ∀ (L w : ℕ) (cb : WaitCallback ℕ), (s.loops L).waitCallback.lookup w = some cb →
    cb.userCb < s.created ∧ cb.coroId = idOf cb.userCb

theorem start_numbered : Numbered start :=
  ⟨fun _ => Eventloop.make_inv, rfl, fun _ _ hk => absurd hk lookup_empty_ne, fun _ _ _ hcb => absurd hcb lookup_empty_ne⟩

theorem Numbered.present_lt (h : Numbered s) (hj : s.Present j) : j < s.created := by
  rcases hj with ⟨x, hx⟩ | ⟨L, w, cb, hcb, rfl⟩
  · exact (h.ids j x hx).1
  · exact (h.waits L w cb hcb).1

/-- a registration: its callback is the only one that is new -/
theorem register_lookup {loop : Eventloop ℕ} (id : ℕ) (r : Registration)
    (hcb : (loop.step H (r.label id k)).waitCallback.lookup w = some cb) :
    loop.waitCallback.lookup w = some cb ∨ cb.coroId = id ∧ cb.userCb = k := by
  have henlist : (loop.enlist id k).waitCallback.lookup w = some cb := by
    cases r with
    | callSoon => exact hcb
    | callAt time => exact hcb
    | addReader fd ctl => exact Eventloop.addWaiter_lookup hcb
    | addWriter fd ctl => exact Eventloop.addWaiter_lookup hcb
  rw [Eventloop.enlist_lookup] at henlist
  split_ifs at henlist
  · obtain rfl := Option.some.inj henlist
    exact .inr ⟨rfl, rfl⟩
  · exact .inl henlist

theorem turn_lookup {loop : Eventloop ℕ} {t : Turn} (hcb : (loop.step H t.label).waitCallback.lookup w = some cb) :
    loop.waitCallback.lookup w = some cb := by
  rcases Eventloop.step_origin t.label hcb with hold | hnew
  · exact hold
  · cases t <;> cases hnew

/-! ### One loop changes -/

section
variable {f : Eventloop ℕ → Eventloop ℕ}
  (hcbs : ∀ (w : ℕ) (cb : WaitCallback ℕ), (f (s.loops L)).waitCallback.lookup w = some cb →
    (s.loops L).waitCallback.lookup w = some cb ∨ ∃ h, s.handles.lookup cb.userCb = some h ∧ cb.coroId = h.id)
include hcbs

/-- the callbacks are old ones, or those of a handle -/
theorem onLoop_lookup {L' : ℕ} (hcb : ((s.onLoop L f).loops L').waitCallback.lookup w = some cb) :
    (s.loops L').waitCallback.lookup w = some cb ∨ ∃ h, s.handles.lookup cb.userCb = some h ∧ cb.coroId = h.id := by
  simp only [Process.onLoop, Function.update_apply] at hcb
  split_ifs at hcb with hL
  · rw [hL]
    exact hcbs w cb hcb
  · exact .inl hcb

theorem Numbered.onLoop (h : Numbered s) (hinv : (f (s.loops L)).Inv) : Numbered (s.onLoop L f) := by
  refine ⟨fun L' => ?_, h.next, h.ids, fun L' w cb hcb => ?_⟩
  · simp only [Process.onLoop, Function.update_apply]
    split_ifs
    · exact hinv
    · exact h.loops L'
  · rcases onLoop_lookup hcbs hcb with hold | ⟨x, hx, hid⟩
    · exact h.waits L' w cb hold
    · obtain ⟨hlt, hxid⟩ := h.ids _ x hx
      exact ⟨hlt, hid.trans hxid⟩

theorem present_of_onLoop (hj : (s.onLoop L f).Present j) : s.Present j := by
  rcases hj with halive | ⟨L', w, cb, hcb, rfl⟩
  · exact .inl halive
  · rcases onLoop_lookup hcbs hcb with hold | ⟨x, hx, -⟩
    · exact .inr ⟨L', w, cb, hold, rfl⟩
    · exact .inl ⟨x, hx⟩

end

/-! ### The handles -/

theorem setState_lookup (k : ℕ) (state : State) {h : Handle} (hj : (s.setState k state).handles.lookup j = some h) :
    ∃ h', s.handles.lookup j = some h' ∧ h'.id = h.id := by
  unfold Process.setState at hj
  cases hk : s.handles.lookup k with
  | none =>
    rw [hk] at hj
    exact ⟨h, hj, rfl⟩
  | some h' =>
    simp only [hk, lookup_insert_ite] at hj
    split_ifs at hj with he
    · obtain rfl := Option.some.inj hj
      exact ⟨h', he ▸ hk, rfl⟩
    · exact ⟨h, hj, rfl⟩

theorem setState_frame (k : ℕ) (state : State) (s : Process) : (s.setState k state).loops = s.loops ∧
    (s.setState k state).created = s.created ∧ (s.setState k state).idGenerator = s.idGenerator := by
  unfold Process.setState
  split <;> exact ⟨rfl, rfl, rfl⟩

/-- the handles keep their ids, or go -/
theorem Numbered.handles {t : Process} (h : Numbered s) (hloops : t.loops = s.loops) (hcreated : t.created = s.created)
    (hgenerator : t.idGenerator = s.idGenerator)
    (hids : ∀ k x, t.handles.lookup k = some x → ∃ x', s.handles.lookup k = some x' ∧ x'.id = x.id) : Numbered t := by
  refine ⟨fun L => hloops ▸ h.loops L, ?_, fun k x hx => ?_, fun L w cb hcb => ?_⟩
  · rw [hgenerator, hcreated]
    exact h.next
  · obtain ⟨x', hx', hid⟩ := hids k x hx
    obtain ⟨hlt, hxid⟩ := h.ids k x' hx'
    exact ⟨hcreated ▸ hlt, hid ▸ hxid⟩
  · rw [hcreated]
    exact h.waits L w cb (hloops ▸ hcb)

theorem present_of_handles {t : Process} (hloops : t.loops = s.loops)
    (hids : ∀ k x, t.handles.lookup k = some x → ∃ x', s.handles.lookup k = some x' ∧ x'.id = x.id)
    (hj : t.Present j) : s.Present j := by
  rcases hj with ⟨x, hx⟩ | ⟨L, w, cb, hcb, rfl⟩
  · obtain ⟨x', hx', -⟩ := hids j x hx
    exact .inl ⟨x', hx'⟩
  · exact .inr ⟨L, w, cb, hloops ▸ hcb, rfl⟩

theorem Numbered.setState (h : Numbered s) (k : ℕ) (state : State) : Numbered (s.setState k state) := by
  obtain ⟨hloops, hcreated, hgenerator⟩ := setState_frame k state s
  exact h.handles hloops hcreated hgenerator fun _ _ hx => setState_lookup k state hx

theorem present_of_setState (k : ℕ) (state : State) (hj : (s.setState k state).Present j) : s.Present j :=
  present_of_handles (setState_frame k state s).1 (fun _ _ hx => setState_lookup k state hx) hj

theorem cancel_created (k L : ℕ) (s : Process) : (s.cancel H k L).created = s.created := by
  unfold Process.cancel
  split
  · split_ifs
    · rfl
    · exact (setState_frame _ _ _).2.1
  · rfl

theorem cancel_lookup_ne (hne : j ≠ k) : (s.cancel H k L).handles.lookup j = s.handles.lookup j := by
  unfold Process.cancel
  split
  · next x hx =>
    split_ifs
    · rfl
    · simp only [Process.setState, Process.onLoop, hx, lookup_insert_ite, if_neg hne]
  · rfl

/-! ### Steps -/

theorem Numbered.create (h : Numbered s) : Numbered s.create := by
  refine ⟨h.loops, ?_, fun k x hx => ?_, fun L w cb hcb => ?_⟩
  · simp only [Process.create, h.next, generatorId_idOf]
  · simp only [Process.create, lookup_insert_ite] at hx ⊢
    split_ifs at hx with hk
    · obtain rfl := Option.some.inj hx
      rw [hk]
      exact ⟨Nat.lt_succ_self _, h.next⟩
    · obtain ⟨hlt, hid⟩ := h.ids k x hx
      exact ⟨Nat.lt_succ_of_lt hlt, hid⟩
  · obtain ⟨hlt, hid⟩ := h.waits L w cb hcb
    exact ⟨Nat.lt_succ_of_lt hlt, hid⟩

theorem Numbered.register (h : Numbered s) (k L : ℕ) (r : Registration) :
    Numbered (s.register H k L r) ∧ ∀ j, (s.register H k L r).Present j → s.Present j := by
  unfold Process.register
  split
  · next x hx =>
    have hcbs : ∀ (w : ℕ) (cb : WaitCallback ℕ),
        ((s.loops L).step H (r.label x.id k)).waitCallback.lookup w = some cb →
        (s.loops L).waitCallback.lookup w = some cb ∨ ∃ h, s.handles.lookup cb.userCb = some h ∧ cb.coroId = h.id := by
      intro w cb hcb
      rcases register_lookup x.id r hcb with hold | ⟨hid, rfl⟩
      · exact .inl hold
      · exact .inr ⟨x, hx, hid⟩
    exact ⟨h.onLoop hcbs (Eventloop.step_inv (h.loops L) _), fun j hj => present_of_onLoop hcbs hj⟩
  · exact ⟨h, fun j hj => hj⟩

theorem Numbered.cancel (h : Numbered s) (k L : ℕ) :
    Numbered (s.cancel H k L) ∧ ∀ j, (s.cancel H k L).Present j → s.Present j := by
  unfold Process.cancel
  split
  · next x hx =>
    split_ifs
    · exact ⟨h, fun j hj => hj⟩
    · have hcbs : ∀ (w : ℕ) (cb : WaitCallback ℕ), ((s.loops L).cancel H x.id).waitCallback.lookup w = some cb →
          (s.loops L).waitCallback.lookup w = some cb ∨ ∃ h, s.handles.lookup cb.userCb = some h ∧ cb.coroId = h.id :=
        fun w cb hcb => .inl ((Eventloop.cancel_less x.id).callback w cb hcb)
      have hloop := h.onLoop hcbs (Eventloop.cancel_inv (h.loops L) x.id)
      exact ⟨hloop.setState k _, fun j hj => present_of_onLoop hcbs (present_of_setState k _ hj)⟩
  · exact ⟨h, fun j hj => hj⟩

theorem Numbered.destroy (h : Numbered s) (k L : ℕ) :
    Numbered (s.destroy H k L) ∧ ∀ j, (s.destroy H k L).Present j → s.Present j := by
  have hids : ∀ j x, (s.destroy H k L).handles.lookup j = some x →
      ∃ x', (s.cancel H k L).handles.lookup j = some x' ∧ x'.id = x.id := by
    intro j x hx
    simp only [Process.destroy, lookup_erase_ite] at hx
    split_ifs at hx
    exact ⟨x, hx, rfl⟩
  obtain ⟨hcancel, hpresent⟩ := h.cancel (H := H) k L
  refine ⟨hcancel.handles rfl rfl rfl hids, fun j hj => hpresent j ?_⟩
  exact present_of_handles (t := s.destroy H k L) rfl hids hj

theorem Numbered.turn (h : Numbered s) (L : ℕ) (t : Turn) :
    Numbered (s.step H (.turn L t)) ∧ ∀ j, (s.step H (.turn L t)).Present j → s.Present j := by
  have hcbs : ∀ (w : ℕ) (cb : WaitCallback ℕ), ((s.loops L).step H t.label).waitCallback.lookup w = some cb →
      (s.loops L).waitCallback.lookup w = some cb ∨ ∃ h, s.handles.lookup cb.userCb = some h ∧ cb.coroId = h.id :=
    fun w cb hcb => .inl (turn_lookup hcb)
  exact ⟨Numbered.onLoop (f := fun loop => loop.step H t.label) hcbs h (Eventloop.step_inv (h.loops L) _),
    fun j hj => present_of_onLoop (f := fun loop => loop.step H t.label) hcbs hj⟩

/-- but for a creation, nothing comes to be there -/
theorem Numbered.other (h : Numbered s) (hl : l ≠ .create) :
    Numbered (s.step H l) ∧ ∀ j, (s.step H l).Present j → s.Present j := by
  cases l with
  | create => exact absurd rfl hl
  | setState k state => exact ⟨h.setState k state, fun j hj => present_of_setState k state hj⟩
  | register k L r => exact h.register k L r
  | cancel k L => exact h.cancel k L
  | destroy k L => exact h.destroy k L
  | turn L t => exact h.turn L t

theorem Numbered.step (h : Numbered s) (l : Label) : Numbered (s.step H l) := by
  by_cases hl : l = .create
  · rw [hl]
    exact h.create
  · exact (h.other hl).1

theorem Numbered.run (h : Numbered s) (ls : List Label) : Numbered (Machine.run (Process.step H) s ls) :=
  Machine.inv_run_of_step (I := Numbered) (fun _ l hs => hs.step l) h ls

/-! ## Who shares an id -/

/-- the ids of what is there tell it apart -/
structure Inv (s : Process) : Prop where
  numbered : Numbered s
  apart : ∀ j k, s.Present j → s.Present k → idOf j = idOf k → j = k

theorem start_inv : Inv start := by
  refine ⟨start_numbered, fun j k hj => ?_⟩
  exact absurd (start_numbered.present_lt hj) (Nat.not_lt_zero j)

theorem Inv.create (h : Inv s) (hfresh : Fresh s .create) : Inv s.create := by
  refine ⟨h.numbered.create, fun j k hj hk heq => ?_⟩
  have hcases : ∀ i, s.create.Present i → i = s.created ∨ s.Present i := by
    intro i hi
    rcases hi with ⟨x, hx⟩ | hwaits
    · simp only [Process.create, lookup_insert_ite] at hx
      split_ifs at hx with hi
      · exact .inl hi
      · exact .inr (.inl ⟨x, hx⟩)
    · exact .inr (.inr hwaits)
  have hne : ∀ i, s.Present i → idOf i ≠ idOf s.created := fun i hi hid =>
    hfresh i hi ((idOf_eq_iff (h.numbered.present_lt hi).le).1 hid)
  rcases hcases j hj with rfl | hj
  · rcases hcases k hk with rfl | hk
    · rfl
    · exact absurd heq.symm (hne k hk)
  · rcases hcases k hk with rfl | hk
    · exact absurd heq (hne j hj)
    · exact h.apart j k hj hk heq

theorem Inv.step (h : Inv s) (hfresh : Fresh s l) : Inv (s.step H l) := by
  by_cases hl : l = .create
  · subst hl
    exact h.create hfresh
  · obtain ⟨hnumbered, hpresent⟩ := h.numbered.other (H := H) hl
    exact ⟨hnumbered, fun j k hj hk heq => h.apart j k (hpresent j hj) (hpresent k hk) heq⟩

/-- a handle that is cancelled leaves the waits of the others -/
theorem Inv.cancel_keeps (h : Inv s) (k L L' : ℕ) (hcb : (s.loops L').waitCallback.lookup w = some cb)
    (hne : cb.userCb ≠ k) : ((s.cancel H k L).loops L').waitCallback.lookup w = some cb := by
  unfold Process.cancel
  split
  · next x hx =>
    split_ifs
    · exact hcb
    · simp only [(setState_frame _ _ _).1, Process.onLoop, Function.update_apply]
      split_ifs with hL
      · subst hL
        -- the wait is under the id of its own handle
        have hheld := ((h.numbered.loops L').callback w cb hcb).2
        have hnot : ¬ Holds (s.loops L').coroWaits x.id w := by
          intro hx'
          have hid : idOf cb.userCb = idOf k := by
            rw [← (h.numbered.waits L' w cb hcb).2, ← (h.numbered.ids k x hx).2]
            exact (h.numbered.loops L').owner _ _ _ hheld hx'
          exact hne (h.apart _ _ (.inr ⟨L', w, cb, hcb, rfl⟩) (.inl ⟨x, hx⟩) hid)
        exact (Eventloop.cancel_keeps hnot).callback.trans hcb
      · exact hcb
  · exact hcb

theorem Inv.identified (h : Inv s) : Identified H s where
  distinct := by
    intro j k x x' hx hx' heq
    rw [(h.numbered.ids j x hx).2, (h.numbered.ids k x' hx').2] at heq
    exact h.apart j k (.inl ⟨x, hx⟩) (.inl ⟨x', hx'⟩) heq
  nonzero := by
    intro k x hx
    rw [(h.numbered.ids k x hx).2]
    exact Nat.succ_ne_zero _
  keeps := fun k L L' _ _ hcb hne => ⟨h.cancel_keeps k L L' hcb hne, h.cancel_keeps k L L' hcb hne⟩

/-- the new handle has the id of one that is there, or of one whose wait is left -/
theorem not_identified_of (h : Numbered s) (hj : s.Present j) (hdvd : 4294967295 ∣ s.created - j) :
    ¬ Identified H (s.step H .create) := by
  intro hi
  have hlt : j < s.created := h.present_lt hj
  have hid : idOf j = idOf s.created := (idOf_eq_iff hlt.le).2 hdvd
  have hnew : s.create.handles.lookup s.created = some ⟨idOf s.created, .unschedule⟩ := by
    simp only [Process.create, lookup_insert_ite, if_true, h.next]
  rcases hj with ⟨x, hx⟩ | ⟨L, w, cb, hcb, rfl⟩
  · have hold : s.create.handles.lookup j = some x := by
      simp only [Process.create, lookup_insert_ite, if_neg (Nat.ne_of_lt hlt), hx]
    have heq := hi.distinct j s.created x _ hold hnew (((h.ids j x hx).2).trans hid)
    exact Nat.ne_of_lt hlt heq
  · -- cancelling the new handle takes the wait
    have hkept := (hi.keeps s.created L L w cb hcb (Nat.ne_of_lt hlt)).1
    simp only [Process.step, Process.cancel, hnew, reduceCtorEq, if_false, (setState_frame _ _ _).1, Process.onLoop,
      Function.update_self] at hkept
    have hheld := ((h.loops L).callback w cb hcb).2
    rw [(h.waits L w cb hcb).2, hid] at hheld
    rcases @Eventloop.cancel_lookup ℕ H (s.loops L) (idOf s.created) w with ⟨hnone, -⟩ | ⟨-, hnot⟩
    · cases hnone.symm.trans hkept
    · exact hnot hheld

theorem not_identified (h : Inv s) (hfresh : ¬ Fresh s l) : ¬ Identified H (s.step H l) := by
  cases l with
  | create =>
    simp only [Fresh, not_forall, not_not] at hfresh
    obtain ⟨j, hj, hdvd⟩ := hfresh
    exact not_identified_of h.numbered hj hdvd
  | setState | register | cancel | destroy | turn => exact absurd trivial hfresh

end

/-! ## Runs -/

/-- **Handle ids**: over every run in which handles are created, cancelled and destroyed and register waits in any loops, the
ids tell the handles apart, none is 0 and no wait of another handle is cancelled, exactly if no handle is created a multiple
of 2^32 - 1 creations behind one that is there or has a wait left -/
theorem identified_iff (H : HeapAlgorithms) (ls : List Label) :
    (∀ n, Identified H (Machine.run (Process.step H) start (ls.take n))) ↔
      Machine.Along (Process.step H) Fresh start ls :=
  Machine.along_iff (L := fun _ => True) (I := Inv) (fun _ h => h.identified) (fun _ _ _ h hl => h.step hl)
    (fun _ _ _ h hl => not_identified h hl) start_inv (fun _ _ => trivial)

/-- handles that are created and destroyed, one after another, behind the first one -/
def churn : ℕ → List Label
  | 0 => []
  | n + 1 => churn n ++ [.create, .destroy (n + 1) 0]

/-- a handle that comes and goes leaves the others -/
theorem run_create_destroy (H : HeapAlgorithms) (s : Process) {j k : ℕ} (hne : j ≠ k) (hlt : j ≠ s.created) :
    (Machine.run (Process.step H) s [.create, .destroy k 0]).created = s.created + 1 ∧
      (Machine.run (Process.step H) s [.create, .destroy k 0]).handles.lookup j = s.handles.lookup j := by
  have hcreate : s.create.handles.lookup j = s.handles.lookup j := by
    simp only [Process.create, lookup_insert_ite, if_neg hlt]
  simp only [Machine.run_cons, Machine.run_nil, Process.step, Process.destroy, lookup_erase_ite, if_neg hne]
  rw [cancel_created, cancel_lookup_ne hne, hcreate]
  exact ⟨rfl, rfl⟩

/-- the first handle is still there -/
theorem run_churn (H : HeapAlgorithms) (n : ℕ) :
    (Machine.run (Process.step H) start (.create :: churn n)).created = n + 1 ∧
      ∃ h, (Machine.run (Process.step H) start (.create :: churn n)).handles.lookup 0 = some h := by
  induction n with
  | zero => exact ⟨rfl, _, lookup_insert_ite⟩
  | succ n ih =>
    obtain ⟨hcreated, h, hlookup⟩ := ih
    rw [churn, ← List.cons_append, Machine.run_append]
    obtain ⟨hnext, hsame⟩ := run_create_destroy H (Machine.run (Process.step H) start (.create :: churn n))
      (Nat.succ_ne_zero n).symm (by rw [hcreated]; exact (Nat.succ_ne_zero n).symm)
    exact ⟨by rw [hnext, hcreated], h, hsame.trans hlookup⟩

/-- the accept loop is the first coroutine; 2^32 - 2 others come and go, and the next one gets its id -/
theorem churn_not_identified :
    (Machine.run (Process.step sortedHeap) start (.create :: churn 4294967294)).created = 4294967295 ∧
      (∃ h, (Machine.run (Process.step sortedHeap) start (.create :: churn 4294967294)).handles.lookup 0 = some h) ∧
      ¬ Identified sortedHeap
        ((Machine.run (Process.step sortedHeap) start (.create :: churn 4294967294)).step sortedHeap .create) := by
  obtain ⟨hcreated, halive⟩ := run_churn sortedHeap 4294967294
  refine ⟨hcreated, halive, ?_⟩
  apply not_identified_of (start_numbered.run _) (.inl halive)
  rw [hcreated]

end HandleIds

end MCoroRpc
