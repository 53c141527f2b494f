/-
When the event loop executes callbacks: at most once, not behind a cancellation, and those of call_soon in their order.

A `Traced` loop keeps its history: the ids it has given and their owners, the ids of call_soon, the callbacks that have
been executed, and the ids that have been cancelled, by cancel_wait or with their owner. Ids stay in the ready queue
behind a cancellation or a second report; an id without a callback is skipped.

Main results:
- `run_loop`: the history is one of the event loop.
- `discipline`: for every run.
-/
import MCoroRpc.Coro.Eventloop

namespace MCoroRpc.Eventloop

open Multimap

variable {κ : Type*} {H : HeapAlgorithms}

/-- a loop and its history -/
structure Traced (κ : Type*) where
  loop : Eventloop κ
  /-- ids and their owners -/
  registered : List (ℕ × ℕ)
  /-- the ids of call_soon -/
  soon : List ℕ
  executed : List ℕ
  cancelled : List ℕ

namespace Traced

def start : Traced κ := ⟨make, [], [], [], []⟩

/-- a new id -/
def enrol (handle : ℕ) (t : Traced κ) : Traced κ :=
  { t with registered := t.registered ++ [(t.loop.nextWaitId, handle)] }

/-- what a label adds to the history -/
def note (t : Traced κ) : Label κ → Traced κ
  | .callSoon handle _ => { t.enrol handle with soon := t.soon ++ [t.loop.nextWaitId] }
  | .callAt _ handle _ | .addReader _ handle _ _ | .addWriter _ handle _ _ => t.enrol handle
  | .cancelWait waitId =>
    { t with cancelled := t.cancelled ++ if waitId < t.loop.nextWaitId then [waitId] else [] }
  | .cancel handle =>
    { t with cancelled := t.cancelled ++ (t.registered.filter (·.2 = handle)).map Prod.fst }
  | .executeReady => { t with executed := t.executed ++ t.loop.executeReady.1.toList.map WaitCallback.waitId }
  | .epollEvent _ | .expiredTimeout _ | .stop => t

def step (H : HeapAlgorithms) (t : Traced κ) (l : Label κ) : Traced κ :=
  { t.note l with loop := t.loop.step H l }

/-- the callbacks of call_soon run in the order of their registration, and none that is not cancelled is overtaken -/
structure InOrder (t : Traced κ) : Prop where
  order : (t.executed.filter (· ∈ t.soon)).Sublist t.soon
  overtaken : ∀ front waitId back, t.soon = front ++ waitId :: back → waitId ∈ t.executed →
    ∀ i ∈ front, i ∈ t.executed ∨ i ∈ t.cancelled

/-! ## The invariant -/

structure TInv (t : Traced κ) : Prop where
  loop : Inv t.loop
  ids : t.registered.map Prod.fst = List.range t.loop.nextWaitId
  owner : ∀ handle waitId, Holds t.loop.coroWaits handle waitId → (waitId, handle) ∈ t.registered
  once : t.executed.Nodup
  executed : ∀ i ∈ t.executed, i < t.loop.nextWaitId ∧ ¬ t.loop.Pending i
  cancelled : ∀ i ∈ t.cancelled, i < t.loop.nextWaitId ∧ ¬ t.loop.Pending i
  distinct : t.soon.Nodup
  soon : ∀ i ∈ t.soon, i < t.loop.nextWaitId ∧ (t.loop.Pending i ∨ i ∈ t.executed ∨ i ∈ t.cancelled)
  /-- call_soon has its ids to itself -/
  apart : ∀ i ∈ t.soon, (∀ e ∈ t.loop.scheduled, e.1 ≠ i) ∧
    ∀ d fd, (t.loop.epoll.event fd).waiter d ≠ 0 → (t.loop.epoll.event fd).waiter d ≠ i
  /-- the ids of call_soon that are left in the ready queue are the last ones, and the others have run in order -/
  queue : ∃ popped, t.soon = popped ++ t.loop.readyQueue.filter (· ∈ t.soon) ∧
    (t.executed.filter (· ∈ t.soon)).Sublist popped ∧ ∀ i ∈ popped, i ∈ t.executed ∨ i ∈ t.cancelled

variable {t : Traced κ}

theorem start_inv : TInv (start : Traced κ) where
  loop := make_inv
  ids := rfl
  owner := fun handle waitId hh => absurd hh not_holds_empty
  once := List.nodup_nil
  executed := fun i hi => by cases hi
  cancelled := fun i hi => by cases hi
  distinct := List.nodup_nil
  soon := fun i hi => by cases hi
  apart := fun i hi => by cases hi
  queue := ⟨[], rfl, List.Sublist.refl _, fun i hi => by cases hi⟩

theorem TInv.inOrder (h : TInv t) : InOrder t := by
  obtain ⟨popped, hsoon, hsub, hdone⟩ := h.queue
  refine ⟨?_, ?_⟩
  · apply hsub.trans
    rw [hsoon]
    exact List.sublist_append_left _ _
  · intro front waitId back heq hex i hi
    have hmem : waitId ∈ popped :=
      hsub.subset (List.mem_filter.2 ⟨hex, by rw [heq]; simp⟩)
    have hnodup := h.distinct
    apply hdone i
    -- what stands in front of a popped id has been popped
    rcases List.append_eq_append_iff.1 (heq.symm.trans hsoon) with ⟨as, hpop, -⟩ | ⟨bs, hfront, hrest⟩
    · rw [hpop]
      exact List.mem_append_left _ hi
    · rw [heq, hfront, List.append_assoc] at hnodup
      have hin : waitId ∈ bs ++ waitId :: back := List.mem_append_right _ List.mem_cons_self
      exact absurd rfl ((List.nodup_append.1 hnodup).2.2 waitId hmem waitId hin)

/-- what a step executes had a callback -/
theorem step_executed (h : TInv t) (l : Label κ) :
    ∃ new, (t.step H l).executed = t.executed ++ new ∧ ∀ i ∈ new, t.loop.Pending i := by
  have hnone : ∃ new : List ℕ, t.executed = t.executed ++ new ∧ ∀ i ∈ new, t.loop.Pending i :=
    ⟨[], (List.append_nil _).symm, fun i hi => by cases hi⟩
  cases l with
  | executeReady =>
    rcases executeReady_cases t.loop with ⟨-, he⟩ | ⟨waitId, queue, -, -, he⟩ | ⟨waitId, queue, cb, -, hcb, he⟩
    · simpa only [step, note, he, Option.toList, List.map_nil, List.append_nil] using hnone
    · simpa only [step, note, he, Option.toList, List.map_nil, List.append_nil] using hnone
    · refine ⟨[cb.waitId], ?_, ?_⟩
      · simp only [step, note, he, Option.toList, List.map_cons, List.map_nil]
      · intro i hi
        obtain rfl := List.mem_singleton.1 hi
        exact ⟨cb, by rw [(h.loop.callback waitId cb hcb).1]; exact hcb⟩
  | _ => exact hnone

/-! ## One step -/

/-- a step that registers and executes nothing; the ids `c` are cancelled -/
structure Calm (t : Traced κ) (s : Eventloop κ) (c : List ℕ) : Prop where
  next : s.nextWaitId = t.loop.nextWaitId
  held : ∀ handle waitId, Holds s.coroWaits handle waitId → Holds t.loop.coroWaits handle waitId
  pending : ∀ i, s.Pending i → t.loop.Pending i
  waiters : ∀ d fd, (s.epoll.event fd).waiter d = 0 ∨ (s.epoll.event fd).waiter d = (t.loop.epoll.event fd).waiter d
  scheduled : ∀ e ∈ s.scheduled, e ∈ t.loop.scheduled
  queue : s.readyQueue.filter (· ∈ t.soon) = t.loop.readyQueue.filter (· ∈ t.soon)
  gone : ∀ i ∈ c, i < t.loop.nextWaitId ∧ ¬ s.Pending i
  lost : ∀ i ∈ t.soon, t.loop.Pending i → s.Pending i ∨ i ∈ c

/-- an id that is over stays so -/
theorem Calm.stays_over {s : Eventloop κ} {c : List ℕ} (hc : Calm t s c) {i : ℕ}
    (h : i < t.loop.nextWaitId ∧ ¬ t.loop.Pending i) : i < s.nextWaitId ∧ ¬ s.Pending i := by
  rw [hc.next]
  exact ⟨h.1, fun hp => h.2 (hc.pending i hp)⟩

theorem Calm.inv {s : Eventloop κ} {c : List ℕ} (hc : Calm t s c) (h : TInv t) (hs : Inv s) :
    TInv { t with loop := s, cancelled := t.cancelled ++ c } where
  loop := hs
  ids := by
    rw [hc.next]
    exact h.ids
  owner := fun handle waitId hh => h.owner handle waitId (hc.held handle waitId hh)
  once := h.once
  executed := fun i hi => hc.stays_over (h.executed i hi)
  cancelled := by
    intro i hi
    rcases List.mem_append.1 hi with hi | hi
    · exact hc.stays_over (h.cancelled i hi)
    · rw [hc.next]
      exact hc.gone i hi
  distinct := h.distinct
  soon := by
    intro i hi
    obtain ⟨hlt, hcase⟩ := h.soon i hi
    refine ⟨by rw [hc.next]; exact hlt, ?_⟩
    rcases hcase with hp | hex | hca
    · rcases hc.lost i hi hp with hp | hnew
      · exact .inl hp
      · exact .inr (.inr (List.mem_append_right _ hnew))
    · exact .inr (.inl hex)
    · exact .inr (.inr (List.mem_append_left _ hca))
  apart := by
    intro i hi
    obtain ⟨hsched, hwait⟩ := h.apart i hi
    refine ⟨fun e he => hsched e (hc.scheduled e he), ?_⟩
    intro d fd hne
    rcases hc.waiters d fd with h0 | hold
    · exact absurd h0 hne
    · dsimp only at hne ⊢
      rw [hold] at hne ⊢
      exact hwait d fd hne
  queue := by
    obtain ⟨popped, hsoon, hsub, hdone⟩ := h.queue
    refine ⟨popped, ?_, hsub, ?_⟩
    · dsimp only
      rw [hc.queue]
      exact hsoon
    · intro i hi
      rcases hdone i hi with hex | hca
      · exact .inl hex
      · exact .inr (List.mem_append_left _ hca)

/-- a step that gives the next id to `handle` -/
structure Enrols (t : Traced κ) (handle : ℕ) (s : Eventloop κ) : Prop where
  next : s.nextWaitId = t.loop.nextWaitId + 1
  held : ∀ handle' i, Holds s.coroWaits handle' i →
    Holds t.loop.coroWaits handle' i ∨ handle' = handle ∧ i = t.loop.nextWaitId
  pending : ∀ i, s.Pending i → t.loop.Pending i ∨ i = t.loop.nextWaitId
  keeps : ∀ i, t.loop.Pending i → s.Pending i
  waiters : ∀ d fd, (s.epoll.event fd).waiter d = 0 ∨
    (s.epoll.event fd).waiter d = (t.loop.epoll.event fd).waiter d ∨ (s.epoll.event fd).waiter d = t.loop.nextWaitId
  scheduled : ∀ e ∈ s.scheduled, e ∈ t.loop.scheduled ∨ e.1 = t.loop.nextWaitId
  queue : s.readyQueue = t.loop.readyQueue

theorem Enrols.stays_over {s : Eventloop κ} {handle : ℕ} (hc : Enrols t handle s) {i : ℕ}
    (h : i < t.loop.nextWaitId ∧ ¬ t.loop.Pending i) : i < s.nextWaitId ∧ ¬ s.Pending i := by
  obtain ⟨hlt, hover⟩ := h
  refine ⟨by rw [hc.next]; exact Nat.lt_succ_of_lt hlt, ?_⟩
  intro hp
  rcases hc.pending i hp with hp | rfl
  · exact hover hp
  · exact lt_irrefl _ hlt

theorem Enrols.inv {s : Eventloop κ} {handle : ℕ} (hc : Enrols t handle s) (h : TInv t) (hs : Inv s) :
    TInv { t.enrol handle with loop := s } where
  loop := hs
  ids := by
    rw [hc.next, List.range_succ, ← h.ids]
    simp [enrol]
  owner := by
    intro handle' i hh
    rcases hc.held handle' i hh with hh | ⟨rfl, rfl⟩
    · exact List.mem_append_left _ (h.owner handle' i hh)
    · exact List.mem_append_right _ (List.mem_singleton_self _)
  once := h.once
  executed := fun i hi => hc.stays_over (h.executed i hi)
  cancelled := fun i hi => hc.stays_over (h.cancelled i hi)
  distinct := h.distinct
  soon := by
    intro i hi
    obtain ⟨hlt, hcase⟩ := h.soon i hi
    refine ⟨by rw [hc.next]; exact Nat.lt_succ_of_lt hlt, ?_⟩
    rcases hcase with hp | hdone
    · exact .inl (hc.keeps i hp)
    · exact .inr hdone
  apart := by
    intro i hi
    obtain ⟨hsched, hwait⟩ := h.apart i hi
    have hlt := (h.soon i hi).1
    refine ⟨?_, ?_⟩
    · intro e he
      rcases hc.scheduled e he with hold | hnew
      · exact hsched e hold
      · rw [hnew]
        exact Nat.ne_of_gt hlt
    · intro d fd hne
      dsimp only at hne ⊢
      rcases hc.waiters d fd with h0 | hold | hnew
      · exact absurd h0 hne
      · rw [hold] at hne ⊢
        exact hwait d fd hne
      · rw [hnew]
        exact Nat.ne_of_gt hlt
  queue := by
    obtain ⟨popped, hsoon, hsub, hdone⟩ := h.queue
    refine ⟨popped, ?_, hsub, hdone⟩
    dsimp only
    rw [hc.queue]
    exact hsoon

theorem enlist_enrols (t : Traced κ) (handle : ℕ) (cb : κ) : Enrols t handle (t.loop.enlist handle cb) where
  next := rfl
  held := fun _ _ hh => enlist_holds.1 hh
  pending := fun _ hp => enlist_pending.1 hp
  keeps := fun _ hp => enlist_pending.2 (.inl hp)
  waiters := fun _ _ => .inr (.inl rfl)
  scheduled := fun _ he => .inl he
  queue := rfl

theorem callAt_enrols (t : Traced κ) (time : ℤ) (handle : ℕ) (cb : κ) :
    Enrols t handle (t.loop.callAt H time handle cb).2 := by
  have he := enlist_enrols t handle cb
  refine ⟨he.next, he.held, he.pending, he.keeps, he.waiters, ?_, he.queue⟩
  intro e hmem
  rcases List.mem_append.1 ((H.push_perm _).mem_iff.1 hmem) with hold | hnew
  · exact .inl hold
  · rw [List.mem_singleton.1 hnew]
    exact .inr rfl

theorem addWaiter_enrols (h : TInv t) (d : Dir) (fd : ℤ) (handle : ℕ) (cb : κ) (ctl : CtlOp → Bool) :
    Enrols t handle (t.loop.addWaiter d fd handle cb ctl).2 := by
  have he := enlist_enrols t handle cb
  have hwaiters : ∀ d' fd', ((t.loop.epoll.add d fd t.loop.nextWaitId ctl).2.event fd').waiter d' = 0 ∨
      ((t.loop.epoll.add d fd t.loop.nextWaitId ctl).2.event fd').waiter d' = (t.loop.epoll.event fd').waiter d' ∨
      ((t.loop.epoll.add d fd t.loop.nextWaitId ctl).2.event fd').waiter d' = t.loop.nextWaitId := by
    intro d' fd'
    rcases @Epoll.add_waiter t.loop.epoll d d' fd fd' t.loop.nextWaitId ctl with h0 | hold | ⟨-, -, hnew⟩
    · exact .inl h0
    · exact .inr (.inl hold)
    · exact .inr (.inr hnew)
  unfold addWaiter
  dsimp only
  split_ifs
  · exact ⟨he.next, he.held, he.pending, he.keeps, hwaiters, he.scheduled, he.queue⟩
  · refine ⟨he.next, fun handle' i hh => he.held handle' i (holds_take.1 hh).1, ?_, ?_, hwaiters, he.scheduled, he.queue⟩
    · intro i ⟨cb', hcb⟩
      dsimp only at hcb
      rw [lookup_erase_ite] at hcb
      split_ifs at hcb
      exact he.pending i ⟨cb', hcb⟩
    · intro i hp
      obtain ⟨cb', hcb⟩ := he.keeps i hp
      have hne : i ≠ t.loop.nextWaitId := Nat.ne_of_lt (h.loop.pending_lt hp)
      exact ⟨cb', by rw [← hcb]; exact Finmap.lookup_erase_ne hne⟩

theorem callSoon_tinv (h : TInv t) (handle : ℕ) (cb : κ) : TInv (t.step H (.callSoon handle cb)) := by
  have he := (enlist_enrols t handle cb).inv h (enlist_inv h.loop handle cb)
  have hnew : t.loop.nextWaitId ∉ t.soon := fun hi => absurd (h.soon _ hi).1 (lt_irrefl _)
  have hready : t.loop.nextWaitId ∉ t.loop.readyQueue := fun hi => absurd (h.loop.ready _ hi) (lt_irrefl _)
  have hex : t.loop.nextWaitId ∉ t.executed := fun hi => absurd (h.executed _ hi).1 (lt_irrefl _)
  -- the new id changes nothing for the old ones
  have hfilter : ∀ l : List ℕ, t.loop.nextWaitId ∉ l →
      l.filter (· ∈ t.soon ++ [t.loop.nextWaitId]) = l.filter (· ∈ t.soon) := by
    intro l hl
    refine List.filter_congr fun i hi => ?_
    have hne : i ≠ t.loop.nextWaitId := fun hc => hl (hc ▸ hi)
    simp [hne]
  refine ⟨callSoon_inv h.loop handle cb, he.ids, he.owner, he.once, he.executed, he.cancelled, ?_, ?_, ?_, ?_⟩
  · exact List.nodup_append.2 ⟨h.distinct, List.nodup_singleton _, fun a ha b hb =>
      fun hab => hnew (by rw [← List.mem_singleton.1 hb, ← hab]; exact ha)⟩
  · intro i hi
    rcases List.mem_append.1 hi with hi | hi
    · exact he.soon i hi
    · obtain rfl := List.mem_singleton.1 hi
      exact ⟨Nat.lt_succ_self _, .inl (enlist_pending.2 (.inr rfl))⟩
  · intro i hi
    rcases List.mem_append.1 hi with hi | hi
    · exact he.apart i hi
    · obtain rfl := List.mem_singleton.1 hi
      refine ⟨fun e hmem => Nat.ne_of_lt (h.loop.pending_lt (h.loop.scheduled e hmem).1), ?_⟩
      exact fun d fd hne => Nat.ne_of_lt (h.loop.below d fd hne)
  · obtain ⟨popped, hsoon, hsub, hdone⟩ := h.queue
    refine ⟨popped, ?_, ?_, hdone⟩
    · change t.soon ++ [t.loop.nextWaitId] = popped ++
        (t.loop.readyQueue ++ [t.loop.nextWaitId]).filter (· ∈ t.soon ++ [t.loop.nextWaitId])
      rw [List.filter_append, hfilter _ hready, ← List.append_assoc, ← hsoon]
      simp
    · change (t.executed.filter (· ∈ t.soon ++ [t.loop.nextWaitId])).Sublist popped
      rw [hfilter _ hex]
      exact hsub

theorem cancelWait_calm (h : TInv t) (waitId : ℕ) :
    Calm t (t.loop.cancelWait H waitId) (if waitId < t.loop.nextWaitId then [waitId] else []) := by
  have hpending : ∀ i, (t.loop.cancelWait H waitId).Pending i ↔ t.loop.Pending i ∧ i ≠ waitId := by
    intro i
    unfold Pending
    rw [cancelWait_lookup]
    split_ifs with he <;> simp [he]
  refine ⟨rfl, fun _ _ hh => hh, fun i hp => ((hpending i).1 hp).1, fun d fd => Epoll.cancelWait_waiter d fd, ?_, rfl, ?_,
    ?_⟩
  · exact fun e he => ((mem_unschedule h.loop.times).1 he).1
  · intro i hi
    split_ifs at hi with hlt
    · obtain rfl := List.mem_singleton.1 hi
      exact ⟨hlt, fun hp => ((hpending _).1 hp).2 rfl⟩
    · cases hi
  · intro i _ hp
    by_cases he : i = waitId
    · rw [← he, if_pos (h.loop.pending_lt hp)]
      exact .inr (List.mem_singleton_self _)
    · exact .inl ((hpending i).2 ⟨hp, he⟩)

/-- what cancel leaves of waiters and timers -/
theorem cancelWaits_less {s : Eventloop κ} (h : Inv s) (waits : List ℕ) :
    (∀ d fd, ((s.cancelWaits H waits).epoll.event fd).waiter d = 0 ∨
      ((s.cancelWaits H waits).epoll.event fd).waiter d = (s.epoll.event fd).waiter d) ∧
    ∀ e ∈ (s.cancelWaits H waits).scheduled, e ∈ s.scheduled := by
  induction waits generalizing s with
  | nil => exact ⟨fun _ _ => .inr rfl, fun _ he => he⟩
  | cons waitId waits ih =>
    obtain ⟨hwait, hsched⟩ := ih (cancelWait_inv (H := H) h waitId)
    refine ⟨?_, fun e he => ((mem_unschedule h.times).1 (hsched e he)).1⟩
    intro d fd
    rcases hwait d fd with h0 | hold
    · exact .inl h0
    · rcases @Epoll.cancelWait_waiter s.epoll waitId d fd with h1 | h1
      · exact .inl (hold.trans h1)
      · exact .inr (hold.trans h1)

theorem cancel_calm (h : TInv t) (handle : ℕ) :
    Calm t (t.loop.cancel H handle) ((t.registered.filter (·.2 = handle)).map Prod.fst) := by
  have hrest : (t.loop.cancel H handle).nextWaitId = t.loop.nextWaitId ∧
      (t.loop.cancel H handle).readyQueue = t.loop.readyQueue ∧
      (∀ d fd, ((t.loop.cancel H handle).epoll.event fd).waiter d = 0 ∨
        ((t.loop.cancel H handle).epoll.event fd).waiter d = (t.loop.epoll.event fd).waiter d) ∧
      ∀ e ∈ (t.loop.cancel H handle).scheduled, e ∈ t.loop.scheduled := by
    unfold cancel
    cases t.loop.coroWaits.lookup handle with
    | none => exact ⟨rfl, rfl, fun _ _ => .inr rfl, fun _ he => he⟩
    | some waits =>
      obtain ⟨-, hready, hnext⟩ := @cancelWaits_rest κ H t.loop waits
      exact ⟨hnext, hready, cancelWaits_less h.loop waits⟩
  obtain ⟨hnext, hready, hwait, hsched⟩ := hrest
  have hpending : ∀ i, (t.loop.cancel H handle).Pending i ↔ t.loop.Pending i ∧ ¬ Holds t.loop.coroWaits handle i := by
    intro i
    unfold Pending
    rcases @cancel_lookup κ H t.loop handle i with ⟨hl, hh⟩ | ⟨hl, hh⟩ <;> rw [hl] <;> simp [hh]
  refine ⟨hnext, fun _ _ hh => (cancel_holds.1 hh).1, fun i hp => ((hpending i).1 hp).1, hwait, hsched, by rw [hready], ?_,
    ?_⟩
  · intro i hi
    obtain ⟨⟨i', handle'⟩, hmem, rfl⟩ := List.mem_map.1 hi
    obtain ⟨hreg, hown⟩ := List.mem_filter.1 hmem
    have hown : handle' = handle := by simpa using hown
    refine ⟨?_, ?_⟩
    · rw [← List.mem_range, ← h.ids]
      exact List.mem_map_of_mem hreg
    · -- an id has one owner, and the callback is held by it
      intro hp
      obtain ⟨⟨cb, hcb⟩, hnot⟩ := (hpending i').1 hp
      obtain ⟨-, hh⟩ := h.loop.callback i' cb hcb
      have hnodup : (t.registered.map Prod.fst).Nodup := by
        rw [h.ids]
        exact List.nodup_range
      have heq := List.inj_on_of_nodup_map hnodup hreg (h.owner _ _ hh) rfl
      rw [Prod.mk.injEq] at heq
      rw [← heq.2, hown] at hh
      exact hnot hh
  · intro i _ hp
    by_cases hh : Holds t.loop.coroWaits handle i
    · exact .inr (List.mem_map.2 ⟨(i, handle), List.mem_filter.2 ⟨h.owner _ _ hh, by simp⟩, rfl⟩)
    · exact .inl ((hpending i).2 ⟨hp, hh⟩)

theorem epollEvent_calm (h : TInv t) (events : List Epoll.Report) : Calm t (t.loop.processEpollEvent events) [] := by
  refine ⟨rfl, fun _ _ hh => hh, fun _ hp => hp, fun _ _ => .inr rfl, fun _ he => he, ?_, fun i hi => (by cases hi),
    fun _ _ hp => .inl hp⟩
  have hnone : (events.flatMap t.loop.epoll.woken).filter (· ∈ t.soon) = [] := by
    rw [List.filter_eq_nil_iff]
    intro i hi
    obtain ⟨r, -, hr⟩ := List.mem_flatMap.1 hi
    obtain ⟨h0, d, hd⟩ := Epoll.mem_woken hr
    have hnot : i ∉ t.soon := fun hsoon => (h.apart i hsoon).2 d r.fd (by rwa [hd]) hd
    simpa using hnot
  simp only [processEpollEvent, List.filter_append, hnone, List.append_nil]

theorem expire_calm (h : TInv t) (now : ℤ) (n : ℕ) {s : Eventloop κ} (hs : Calm t s []) :
    Calm t (s.expire H now n) [] := by
  induction n generalizing s with
  | zero => exact hs
  | succ n ih =>
    unfold expire
    cases hsched : s.scheduled with
    | nil => exact hs
    | cons e v =>
      dsimp only
      split_ifs
      · apply ih
        obtain ⟨v', hpop, hperm⟩ := H.pop_perm e v
        refine ⟨hs.next, hs.held, hs.pending, hs.waiters, ?_, ?_, fun i hi => (by cases hi), hs.lost⟩
        · intro e' he'
          dsimp only at he'
          rw [hpop, List.dropLast_concat] at he'
          exact hs.scheduled e' (by rw [hsched]; exact List.mem_cons_of_mem e (hperm.mem_iff.1 he'))
        · have hnot : e.1 ∉ t.soon := fun hsoon =>
            (h.apart e.1 hsoon).1 e (hs.scheduled e (by rw [hsched]; exact List.mem_cons_self)) rfl
          dsimp only
          rw [List.filter_append, hs.queue]
          simp [hnot]
      · exact hs

theorem Calm.refl (t : Traced κ) : Calm t t.loop [] :=
  ⟨rfl, fun _ _ hh => hh, fun _ hp => hp, fun _ _ => .inr rfl, fun _ he => he, rfl, fun i hi => (by cases hi),
    fun _ _ hp => .inl hp⟩

theorem Calm.inv_nil {s : Eventloop κ} (hc : Calm t s []) (h : TInv t) (hs : Inv s) : TInv { t with loop := s } := by
  have ht := hc.inv h hs
  rwa [List.append_nil] at ht

/-- the head of the ready queue is popped; `executed` gains at most this id, and it is done if it is one of call_soon -/
theorem queue_pop {soon queue executed executed' : List ℕ} {waitId : ℕ} {done done' : ℕ → Prop}
    (h : ∃ popped, soon = popped ++ (waitId :: queue).filter (· ∈ soon) ∧
      (executed.filter (· ∈ soon)).Sublist popped ∧ ∀ i ∈ popped, done i)
    (hexecuted : executed' <+: executed ++ [waitId]) (hdone : ∀ i, done i → done' i) (hhead : waitId ∈ soon → done' waitId) :
    ∃ popped, soon = popped ++ queue.filter (· ∈ soon) ∧
      (executed'.filter (· ∈ soon)).Sublist popped ∧ ∀ i ∈ popped, done' i := by
  obtain ⟨popped, hsoon, hsub, hpopped⟩ := h
  refine ⟨popped ++ [waitId].filter (· ∈ soon), ?_, ?_, ?_⟩
  · rw [List.append_assoc, ← List.filter_append]
    exact hsoon
  · have hfilter := hexecuted.sublist.filter (· ∈ soon)
    rw [List.filter_append] at hfilter
    exact hfilter.trans (hsub.append (List.Sublist.refl _))
  · intro i hi
    rcases List.mem_append.1 hi with hi | hi
    · exact hdone i (hpopped i hi)
    · obtain ⟨hi, hin⟩ := List.mem_filter.1 hi
      obtain rfl := List.mem_singleton.1 hi
      exact hhead (by simpa using hin)

/-- an id without a callback is skipped -/
theorem skip_tinv (h : TInv t) {waitId : ℕ} {queue : List ℕ} (hq : t.loop.readyQueue = waitId :: queue)
    (hcb : t.loop.waitCallback.lookup waitId = none) (hs : Inv { t.loop with readyQueue := queue }) :
    TInv { t with loop := { t.loop with readyQueue := queue } } := by
  refine ⟨hs, h.ids, h.owner, h.once, h.executed, h.cancelled, h.distinct, h.soon, h.apart, ?_⟩
  have hqueue := h.queue
  rw [hq] at hqueue
  apply queue_pop hqueue (List.prefix_append _ _) (fun _ hi => hi)
  intro hin
  apply (h.soon waitId hin).2.resolve_left
  intro ⟨cb, hcb'⟩
  cases hcb.symm.trans hcb'

/-- a callback is executed -/
theorem run_tinv (h : TInv t) {waitId : ℕ} {queue : List ℕ} {cb : WaitCallback κ} {s : Eventloop κ}
    (hq : t.loop.readyQueue = waitId :: queue) (hcb : t.loop.waitCallback.lookup waitId = some cb)
    (he : s = { t.loop with
      readyQueue := queue
      waitCallback := t.loop.waitCallback.erase waitId
      coroWaits := take cb.coroId cb.waitId t.loop.coroWaits }) (hs : Inv s) :
    TInv { t with loop := s, executed := t.executed ++ [waitId] } := by
  subst he
  have hlt : waitId < t.loop.nextWaitId := h.loop.pending_lt ⟨cb, hcb⟩
  have hpending : ∀ i, (∃ cb', (t.loop.waitCallback.erase waitId).lookup i = some cb') ↔ t.loop.Pending i ∧ i ≠ waitId := by
    intro i
    unfold Pending
    rw [lookup_erase_ite]
    split_ifs with hi <;> simp [hi]
  have hnew : waitId ∉ t.executed := fun hi => (h.executed waitId hi).2 ⟨cb, hcb⟩
  refine ⟨hs, h.ids, fun handle i hh => h.owner handle i (holds_take.1 hh).1, ?_, ?_, ?_, h.distinct, ?_, h.apart, ?_⟩
  · exact List.nodup_append.2 ⟨h.once, List.nodup_singleton _, fun a ha b hb =>
      fun hab => hnew (by rw [← List.mem_singleton.1 hb, ← hab]; exact ha)⟩
  · intro i hi
    rcases List.mem_append.1 hi with hi | hi
    · exact ⟨(h.executed i hi).1, fun hp => (h.executed i hi).2 ((hpending i).1 hp).1⟩
    · obtain rfl := List.mem_singleton.1 hi
      exact ⟨hlt, fun hp => ((hpending _).1 hp).2 rfl⟩
  · exact fun i hi => ⟨(h.cancelled i hi).1, fun hp => (h.cancelled i hi).2 ((hpending i).1 hp).1⟩
  · intro i hi
    obtain ⟨hlt', hcase⟩ := h.soon i hi
    refine ⟨hlt', ?_⟩
    rcases hcase with hp | hex | hca
    · by_cases hi' : i = waitId
      · rw [hi']
        exact .inr (.inl (List.mem_append_right _ (List.mem_singleton_self _)))
      · exact .inl ((hpending i).2 ⟨hp, hi'⟩)
    · exact .inr (.inl (List.mem_append_left _ hex))
    · exact .inr (.inr hca)
  · have hqueue := h.queue
    rw [hq] at hqueue
    refine queue_pop hqueue (List.prefix_refl _) ?_ fun _ => .inl (List.mem_append_right _ (List.mem_singleton_self _))
    rintro i (hex | hca)
    · exact .inl (List.mem_append_left _ hex)
    · exact .inr hca

theorem executeReady_tinv (h : TInv t) : TInv (t.step H .executeReady) := by
  have hinv := executeReady_inv h.loop
  rcases executeReady_cases t.loop with ⟨-, he⟩ | ⟨waitId, queue, hq, hcb, he⟩ | ⟨waitId, queue, cb, hq, hcb, he⟩
  · have hstep : t.step H .executeReady = t := by
      simp [step, note, Eventloop.step, he]
    rw [hstep]
    exact h
  · have hstep : t.step H .executeReady = { t with loop := { t.loop with readyQueue := queue } } := by
      simp [step, note, Eventloop.step, he]
    rw [hstep]
    rw [he] at hinv
    exact skip_tinv h hq hcb hinv
  · have hid := (h.loop.callback waitId cb hcb).1
    have hstep : t.step H .executeReady =
        { t with loop := t.loop.executeReady.2, executed := t.executed ++ [waitId] } := by
      simp [step, note, Eventloop.step, he, hid]
    rw [hstep]
    exact run_tinv h hq hcb (by rw [he]) hinv

/-- **One step** -/
theorem step_tinv (h : TInv t) (l : Label κ) : TInv (t.step H l) := by
  cases l with
  | callSoon handle cb => exact callSoon_tinv h handle cb
  | callAt time handle cb => exact (callAt_enrols t time handle cb).inv h (callAt_inv h.loop time handle cb)
  | addReader fd handle cb ctl =>
    exact (addWaiter_enrols h .read fd handle cb ctl).inv h (addWaiter_inv h.loop .read fd handle cb ctl)
  | addWriter fd handle cb ctl =>
    exact (addWaiter_enrols h .write fd handle cb ctl).inv h (addWaiter_inv h.loop .write fd handle cb ctl)
  | cancelWait waitId => exact (cancelWait_calm h waitId).inv h (cancelWait_inv h.loop waitId)
  | cancel handle => exact (cancel_calm h handle).inv h (cancel_inv h.loop handle)
  | epollEvent events => exact (epollEvent_calm h events).inv_nil h (epollEvent_inv h.loop events)
  | expiredTimeout now => exact (expire_calm h now _ (Calm.refl t)).inv_nil h (expire_inv h.loop now _)
  | executeReady => exact executeReady_tinv h
  | stop =>
    have hc := Calm.refl t
    have hstop : Calm t { t.loop with stopped := true } [] :=
      ⟨hc.next, hc.held, hc.pending, hc.waiters, hc.scheduled, hc.queue, hc.gone, hc.lost⟩
    exact hstop.inv_nil h (step_inv (H := H) h.loop .stop)

/-! ## Every run -/

/-- the history is one of the loop -/
theorem run_loop (t : Traced κ) (ls : List (Label κ)) :
    (Machine.run (step H) t ls).loop = Machine.run (Eventloop.step H) t.loop ls := by
  induction ls generalizing t with
  | nil => rfl
  | cons l ls ih => exact ih (t.step H l)

theorem run_tinv_of (h : TInv t) (ls : List (Label κ)) : TInv (Machine.run (step H) t ls) :=
  Machine.inv_run_of_step (I := TInv) (fun _ l h => step_tinv h l) h _

theorem step_cancelled (l : Label κ) : ∀ i ∈ t.cancelled, i ∈ (t.step H l).cancelled := by
  intro i hi
  cases l with
  | cancelWait waitId => exact List.mem_append_left _ hi
  | cancel handle => exact List.mem_append_left _ hi
  | _ => exact hi

/-- what is executed later is not what has been cancelled -/
theorem executed_later (h : TInv t) (ls : List (Label κ)) :
    ∃ later, (Machine.run (step H) t ls).executed = t.executed ++ later ∧ ∀ i ∈ t.cancelled, i ∉ later := by
  induction ls generalizing t with
  | nil => exact ⟨[], (List.append_nil _).symm, fun i _ hi => by cases hi⟩
  | cons l ls ih =>
    obtain ⟨later, hrun, hlater⟩ := ih (step_tinv (H := H) h l)
    obtain ⟨new, hnew, hp⟩ := step_executed (H := H) h l
    refine ⟨new ++ later, ?_, ?_⟩
    · calc (Machine.run (step H) t (l :: ls)).executed = (t.step H l).executed ++ later := hrun
        _ = t.executed ++ (new ++ later) := by rw [hnew, List.append_assoc]
    · intro i hi hmem
      rcases List.mem_append.1 hmem with hmem | hmem
      · exact (h.cancelled i hi).2 (hp i hmem)
      · exact hlater i (step_cancelled l i hi) hmem

/-- **Discipline**: in every run each id is given once and executed at most once, nothing that has been cancelled is
executed later, and the callbacks of call_soon that are not cancelled run in the order of their registration -/
theorem discipline (H : HeapAlgorithms) (ls : List (Label κ)) :
    ((Machine.run (step H) start ls).registered.map Prod.fst).Nodup ∧
      (Machine.run (step H) start ls).executed.Nodup ∧
      (∀ i ∈ (Machine.run (step H) start ls).executed, i ∈ (Machine.run (step H) start ls).registered.map Prod.fst) ∧
      (∀ ls', ∃ later, (Machine.run (step H) start (ls ++ ls')).executed =
          (Machine.run (step H) start ls).executed ++ later ∧
        ∀ i ∈ (Machine.run (step H) start ls).cancelled, i ∉ later) ∧
      InOrder (Machine.run (step H) (start : Traced κ) ls) := by
  have h := run_tinv_of (H := H) (start_inv (κ := κ)) ls
  refine ⟨?_, h.once, ?_, ?_, h.inOrder⟩
  · rw [h.ids]
    exact List.nodup_range
  · intro i hi
    rw [h.ids, List.mem_range]
    exact (h.executed i hi).1
  · intro ls'
    rw [Machine.run_append]
    exact executed_later h ls'

end Traced

end MCoroRpc.Eventloop
