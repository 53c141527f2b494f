/-
Which references to a coroutine live on when Task::cancel destroys it: every label, and every run.

Main results:
- `step_inv`: a harmless step keeps the invariant. `breaks`: any other leaves a dangling reference.
- `no_dangling_iff`: nothing refers to a destroyed coroutine in any state of a run exactly if no cancel hits a coroutine
  whose child has not ended, and no Channel takes a cancelled coroutine from its list.
- `parent_gone`: what happens otherwise.
-/
import MCoroRpc.Coro.References

namespace MCoroRpc.Tasks

open Multimap CInt
open Eventloop (Less)

variable {H : HeapAlgorithms} {s s' u : Tasks} {i : ℕ} {c c' : Coro} {loop : Eventloop Ref} {ts : List ℕ}

/-! ## A coroutine is resumed -/

/-- the callbacks change -/
theorem withLoop_inv (h : Inv s) (hloop : loop.Inv) (hsingle : Single loop)
    (hrefers : ∀ w cb, loop.waitCallback.lookup w = some cb → Refers s cb) : Inv (s.withLoop loop) where
  loop := hloop
  coroIds := h.coroIds
  timerIds := h.timerIds
  frame := h.frame
  refers := fun w cb hcb => (hrefers w cb hcb).mono (fun _ _ hk => hk) fun _ ht => ht
  single := hsingle
  parent := h.parent
  child := h.child
  listed := h.listed
  untouched := h.untouched

theorem fewer_inv (h : Inv s) (hloop : loop.Inv)
    (hsub : ∀ w cb, loop.waitCallback.lookup w = some cb → s.loop.waitCallback.lookup w = some cb) :
    Inv (s.withLoop loop) :=
  withLoop_inv h hloop (h.single.mono hsub) fun w cb hcb => h.refers w cb (hsub w cb hcb)

/-- the lists change -/
theorem lists_inv (h : Inv s) {lists : Finmap fun _ : ℕ => List ℕ} (hlisted : Listed { s with lists := lists }) :
    Inv { s with lists := lists } where
  loop := h.loop
  coroIds := h.coroIds
  timerIds := h.timerIds
  frame := h.frame
  refers := fun w cb hcb => (h.refers w cb hcb).mono (fun _ _ hk => hk) fun _ ht => ht
  single := h.single
  parent := h.parent
  child := h.child
  listed := hlisted
  untouched := h.untouched

/-- the callback or the list entry that resumes it has been taken, and a child has ended -/
theorem proceed_inv (h : Inv s) (hi : s.coros.lookup i = some c) (hnot : c.status ≠ .destroyed)
    (hchild : ∀ j cj, c.status = .onChild j → s.coros.lookup j = some cj → cj.status.live = false)
    (htimer : ∀ t, c.status = .onTimer t → t ∈ c.timers) (hlists : ∀ k l, s.lists.lookup k = some l → i ∉ l)
    (hquiet : ∀ w cb, s.loop.waitCallback.lookup w = some cb → cb.coroId ≠ i) : Inv (s.proceed H i) := by
  have hleave : ∀ (u : Tasks) (ts timers : List ℕ), Dropped s u ts → c.status.live = true → (∀ t ∈ ts, t ∈ c.timers) →
      (∀ t, t ∈ timers ↔ t ∈ c.timers ∧ t ∉ ts) → (∀ t ∈ c.timers, c.status = .onTimer t → t ∈ ts) →
      Inv (u.update i { c with status := .running, timers := timers }) := by
    intro u ts timers hd hlive hts htimers hsleep
    refine leave_inv h hd hi hlive hts rfl htimers (fun _ => rfl)
      ?_ (fun j hj => by cases hj) (fun k l hl hmem => absurd hmem (hlists k l hl)) hsleep ?_
    · intro j cj hs hj hl
      rw [hchild j cj hs hj] at hl
      cases hl
    · exact fun w cb hcb => hquiet w cb (hd.less.callback w cb hcb)
  have hsame : c.status.live = true → (∀ t, c.status ≠ .onTimer t) → ∀ u, Dropped s u [] →
      Inv (u.update i { c with status := .running }) := by
    intro hlive hno u hd
    exact hleave u [] c.timers hd hlive (fun t ht => by cases ht) (fun t => by simp) fun t _ hs => absurd hs (hno t)
  have hself : Dropped s s [] := withLoop_dropped id Less.refl
  unfold proceed
  rw [hi]
  dsimp only
  cases hs : c.status with
  | destroyed => exact absurd hs hnot
  | running => exact h
  | final => exact h
  | initial => exact hsame (by rw [hs]; rfl) (fun t ht => by cases hs.symm.trans ht) s hself
  | onChild j => exact hsame (by rw [hs]; rfl) (fun t ht => by cases hs.symm.trans ht) s hself
  | onChannel k => exact hsame (by rw [hs]; rfl) (fun t ht => by cases hs.symm.trans ht) s hself
  | onIo a =>
    have hd : Dropped s (s.withLoop (IoLoop.drop H a s.loop)) [] :=
      withLoop_dropped (fun hl => IoLoop.drop_inv hl a) (IoLoop.drop_less a)
    exact hsame (by rw [hs]; rfl) (fun t ht => by cases hs.symm.trans ht) _ hd
  | onTimer t =>
    apply hleave (s.dropTimer H t) [t] _ (dropTimer_dropped t) (by rw [hs]; rfl)
    · intro t' ht'
      rw [List.mem_singleton.1 ht']
      exact htimer t hs
    · intro t'
      simp
    · intro t' _ hs'
      obtain rfl : t = t' := by
        rw [hs] at hs'
        exact Status.onTimer.inj hs'
      exact List.mem_singleton_self t

/-- a timer whose callback has been taken is marked -/
theorem mark_inv (h : Inv s) {t : ℕ} {x : Timer} (ht : s.timers.lookup t = some x)
    (ho : s.coros.lookup x.owner = some c) (hlive : c.status.live = true)
    (hquiet : ∀ w cb, s.loop.waitCallback.lookup w = some cb → cb.coroId ≠ t) :
    Inv { s with timers := s.timers.insert t { x with cancelled := true, waitId := 0 } } := by
  have hother : ∀ t', t' ≠ t →
      (s.timers.insert t { x with cancelled := true, waitId := 0 }).lookup t' = s.timers.lookup t' :=
    fun t' hne => Finmap.lookup_insert_of_ne _ hne
  have hchange : Change s { s with timers := s.timers.insert t { x with cancelled := true, waitId := 0 } }
      x.owner c c := by
    refine ⟨ho, hlive, ?_, rfl, le_rfl, fun _ hmem => .inl hmem, ?_, ?_, fun _ _ hs _ _ => hs, fun _ hs => .inl hs, rfl⟩
    · intro k
      split_ifs with hk
      · rw [hk]
        exact ho
      · rfl
    · intro t' x' hx'
      dsimp only at hx'
      rw [lookup_insert_ite] at hx'
      split_ifs at hx' with hne
      · rw [hne, ← Option.some.inj hx']
        exact .inl ⟨x, ht, rfl⟩
      · exact .inl ⟨x', hx', rfl⟩
    · intro t' x' hne hx'
      have htt : t' ≠ t := by
        rintro rfl
        exact hne (by rw [Option.some.inj (ht.symm.trans hx')])
      exact (hother t' htt).trans hx'
  apply change_inv h hchange h.loop h.single h.listed
  intro w cb hcb
  exact .inl ((h.refers w cb hcb).mono (fun _ _ hk => hk) fun x' hx' => (hother _ (hquiet w cb hcb)).trans hx')

theorem runTimer_inv (h : Inv s) {t : ℕ} {x : Timer} (ht : s.timers.lookup t = some x)
    (ho : s.coros.lookup x.owner = some c) (hlive : c.status.live = true)
    (hsleep : x.resumes = true → c.status = .onTimer t ∧ t ∈ c.timers)
    (hquiet : ∀ w cb, s.loop.waitCallback.lookup w = some cb → cb.coroId ≠ t) : Inv (s.runTimer H t) := by
  unfold runTimer
  rw [ht]
  dsimp only
  split_ifs with hcancelled hresumes hgone
  · exact h
  · obtain ⟨hs, hmem⟩ := hsleep hresumes
    have hm := mark_inv h ht ho hlive hquiet
    apply proceed_inv hm ho
    · rw [hs]
      simp
    · intro j cj hs'
      cases hs.symm.trans hs'
    · intro t' hs'
      rw [hs] at hs'
      rwa [← Status.onTimer.inj hs']
    · intro k l hl hmem'
      obtain ⟨c', hc', hs'⟩ := (h.listed k l hl).2 _ hmem'
      obtain rfl := Option.some.inj (ho.symm.trans hc')
      rcases hs' with hs' | hs' <;> cases hs.symm.trans hs'
    · exact fun w cb hcb => h.idle ho (.inr (.inr ⟨t, hs⟩)) hcb
  · have hno : s.gone x.owner = false := not_gone ho fun hs => by rw [hs] at hlive; cases hlive
    cases hno.symm.trans hgone
  · exact mark_inv h ht ho hlive hquiet

/-- one that is in no Channel is in none of the lists -/
theorem Listed.not_mem (h : Listed s) (hi : s.coros.lookup i = some c) (hchannel : ∀ k, c.status ≠ .onChannel k)
    (hdestroyed : c.status ≠ .destroyed) {k : ℕ} {l : List ℕ} (hl : s.lists.lookup k = some l) : i ∉ l := by
  intro hmem
  obtain ⟨c', hc', hs⟩ := (h k l hl).2 i hmem
  obtain rfl := Option.some.inj (hi.symm.trans hc')
  rcases hs with hs | hs
  · exact hchannel k hs
  · exact hdestroyed hs

theorem executeReady_inv (h : Inv s) : Inv (s.executeReady H) := by
  have hinv := Eventloop.executeReady_inv h.loop
  unfold executeReady
  rcases Eventloop.executeReady_cases s.loop with ⟨-, he⟩ | ⟨w, queue, -, -, he⟩ | ⟨w, queue, cb, -, hcb, he⟩
  · rw [he]
    exact h
  · rw [he] at hinv ⊢
    exact fewer_inv h hinv fun _ _ hcb => hcb
  rw [he] at hinv ⊢
  dsimp only at hinv ⊢
  -- the callback has been taken, and with it the only one of its handle
  have hold : ∀ w' cb', (s.loop.waitCallback.erase w).lookup w' = some cb' →
      s.loop.waitCallback.lookup w' = some cb' ∧ cb'.coroId ≠ cb.coroId := by
    intro w' cb' hcb'
    rw [lookup_erase_ite] at hcb'
    split_ifs at hcb' with hw
    exact ⟨hcb', fun heq => hw (h.single w' w cb' cb hcb' hcb heq)⟩
  have htaken := fewer_inv h hinv fun w' cb' hcb' => (hold w' cb' hcb').1
  have hquiet := fun w' cb' hcb' => (hold w' cb' hcb').2
  cases h.refers w cb hcb with
  | begin hi hc =>
    refine proceed_inv htaken hi (by rw [hc]; simp) (fun j cj hs => ?_) (fun t hs => ?_) ?_ hquiet
    · cases hc.symm.trans hs
    · cases hc.symm.trans hs
    · exact fun k l => h.listed.not_mem hi (by rw [hc]; simp) (by rw [hc]; simp)
  | back hi hc hj hd =>
    refine proceed_inv htaken hi (by rw [hc]; simp) (fun j cj hs hcj => ?_) (fun t hs => ?_) ?_ hquiet
    · rw [hc] at hs
      obtain rfl := Status.onChild.inj hs
      rwa [Option.some.inj (hcj.symm.trans hj)]
    · cases hc.symm.trans hs
    · exact fun k l => h.listed.not_mem hi (by rw [hc]; simp) (by rw [hc]; simp)
  | io hi hc =>
    refine proceed_inv htaken hi (by rw [hc]; simp) (fun j cj hs => ?_) (fun t hs => ?_) ?_ hquiet
    · cases hc.symm.trans hs
    · cases hc.symm.trans hs
    · exact fun k l => h.listed.not_mem hi (by rw [hc]; simp) (by rw [hc]; simp)
  | sleep ht hx ho hm hc => exact runTimer_inv htaken ht ho (by rw [hc]; rfl) (fun _ => ⟨hc, hm⟩) hquiet
  | watch ht hx ho hm hc =>
    refine runTimer_inv htaken ht ho hc (fun hr => ?_) hquiet
    cases hx.symm.trans hr

theorem wake_inv (h : Inv s) {k : ℕ} (hs : Harmless s (.wake k)) : Inv (s.wake H k) := by
  unfold wake
  split
  swap
  · exact h
  rename_i i rest hl
  obtain ⟨hnodup, hmem⟩ := h.listed k _ hl
  obtain ⟨hnot, hrest⟩ := List.nodup_cons.1 hnodup
  obtain ⟨c, hi, hc⟩ := hmem i List.mem_cons_self
  have hchannel : c.status = .onChannel k := by
    refine hc.resolve_right fun hd => ?_
    have hgone := hs i rest hl
    rw [gone_eq hi, hd] at hgone
    cases hgone
  have hlisted : Listed { s with lists := s.lists.insert k rest } := by
    intro k' l hl'
    dsimp only at hl'
    rw [lookup_insert_ite] at hl'
    split_ifs at hl' with hk
    · rw [hk, ← Option.some.inj hl']
      exact ⟨hrest, fun j hj => hmem j (List.mem_cons_of_mem i hj)⟩
    · exact h.listed k' l hl'
  refine proceed_inv (lists_inv h hlisted) hi (by rw [hchannel]; simp) (fun j cj hs' => ?_) (fun t hs' => ?_) ?_ ?_
  · cases hchannel.symm.trans hs'
  · cases hchannel.symm.trans hs'
  · intro k' l hl' hi'
    dsimp only at hl'
    rw [lookup_insert_ite] at hl'
    split_ifs at hl' with hk
    · rw [← Option.some.inj hl'] at hi'
      exact hnot hi'
    · obtain ⟨c', hc', hs'⟩ := (h.listed k' l hl').2 i hi'
      obtain rfl := Option.some.inj (hi.symm.trans hc')
      rw [hchannel] at hs'
      rcases hs' with hs' | hs'
      · exact hk (Status.onChannel.inj hs').symm
      · cases hs'
  · exact fun w cb hcb => h.idle hi (.inr (.inl ⟨k, hchannel⟩)) hcb

/-! ## A coroutine that runs -/

/-- another callback is registered, for a handle that has none -/
theorem refers_enlist {handle : ℕ} {r : Ref} (hnew : Refers s' ⟨handle, s.loop.nextWaitId, r⟩)
    (hold : ∀ w cb, s.loop.waitCallback.lookup w = some cb → Refers s' cb) {w : ℕ} {cb : WaitCallback Ref}
    (hcb : (s.loop.enlist handle r).waitCallback.lookup w = some cb) : Refers s' cb := by
  rw [Eventloop.enlist_lookup] at hcb
  split_ifs at hcb
  · rw [← Option.some.inj hcb]
    exact hnew
  · exact hold w cb hcb

theorem Inv.unlisted (h : Inv s) (hi : s.coros.lookup i = some c) (hc : c.status = .running) {k : ℕ} {l : List ℕ}
    (hl : s.lists.lookup k = some l) : i ∉ l :=
  h.listed.not_mem hi (by rw [hc]; simp) (by rw [hc]; simp) hl

/-- what stands in the lists goes on standing there -/
theorem Change.listed (hch : Change s s' i c c') (h : Inv s) (hc : c.status = .running) (hlists : s'.lists = s.lists) :
    Listed s' :=
  h.listed.leave hlists (fun _ hk => hch.other hk) fun _ _ hl hmem => absurd hmem (h.unlisted hch.before hc hl)

/-- what a running coroutine has in the loop goes on -/
theorem Change.refers (hch : Change s s' i c c') (h : Inv s) (hc : c.status = .running) (hlive : c'.status.live = true)
    (htimers : ∀ t x, s.timers.lookup t = some x → s'.timers.lookup t = some x)
    (hframe : ∀ t ∈ c.timers, t ∈ c'.timers) {w : ℕ} {cb : WaitCallback Ref}
    (hcb : s.loop.waitCallback.lookup w = some cb) : Refers s' cb := by
  by_cases ht : s.Targets i cb.userCb
  · refine (h.refers w cb hcb).stays hch.before ht (h.idle hch.before (.inl hc) hcb) ?_ hch.self fun _ => hlive
    intro x hx hmem
    exact ⟨by rw [hc]; simp, htimers _ x hx, hframe _ hmem⟩
  · exact (h.refers w cb hcb).frame hch.before hch.live ht (fun k d hk hd => (hch.other hk).trans hd) hch.others

/-- a running coroutine is suspended, on nothing old -/
theorem suspend_change (hi : s.coros.lookup i = some c) (hc : c.status = .running) {status : Status}
    (hcoros : s'.coros = s.coros.insert i { c with status := status }) (htimers : s'.timers = s.timers)
    (hle : s.nextHandle ≤ s'.nextHandle)
    (henters : ∀ j, status = .onChild j → s.nextHandle ≤ j ∧ j < s'.nextHandle) (htouched : s'.touched = s.touched) :
    Change s s' i c { c with status := status } where
  before := hi
  live := by rw [hc]; rfl
  coros := fun k => by rw [hcoros]; exact lookup_insert_ite
  parent := rfl
  nextHandle := hle
  frame := fun _ hmem => .inl hmem
  timers := fun t x hx => .inl ⟨x, by rwa [htimers] at hx, rfl⟩
  others := fun t x _ hx => by rwa [htimers]
  leaves := fun j _ hs => by cases hc.symm.trans hs
  enters := fun j hs => .inr (henters j hs)
  touched := htouched

theorem newTimer_inv (h : Inv s) (resumes : Bool) (time : ℤ) (hi : s.coros.lookup i = some c)
    (hc : c.status = .running) : Inv (s.newTimer H resumes time i c) := by
  have hother : ∀ t x, s.timers.lookup t = some x → (s.newTimer H resumes time i c).timers.lookup t = some x := by
    intro t x hx
    exact (Finmap.lookup_insert_of_ne _ (Nat.ne_of_lt (h.timerIds t x hx).1)).trans hx
  have hchange : Change s (s.newTimer H resumes time i c) i c
      ⟨if resumes then .onTimer s.nextHandle else c.status, c.parent, c.timers ++ [s.nextHandle]⟩ := by
    refine ⟨hi, by rw [hc]; rfl, fun k => lookup_insert_ite, rfl, Nat.le_succ _, ?_, ?_, fun t x _ => hother t x,
      fun j cj hs => ?_, fun j hs => ?_, rfl⟩
    · intro t hmem
      rcases List.mem_append.1 hmem with hmem | hmem
      · exact .inl hmem
      · rw [List.mem_singleton.1 hmem]
        exact .inr ⟨le_rfl, Nat.lt_succ_self _⟩
    · intro t x hx
      unfold newTimer at hx
      dsimp only at hx
      rw [lookup_insert_ite] at hx
      split_ifs at hx with ht
      · rw [ht, ← Option.some.inj hx]
        exact .inr ⟨le_rfl, Nat.lt_succ_self _, rfl⟩
      · exact .inl ⟨x, hx, rfl⟩
    · cases hc.symm.trans hs
    · dsimp only at hs
      rw [hc] at hs
      split_ifs at hs
  have hfresh : ∀ w cb, s.loop.waitCallback.lookup w = some cb → cb.coroId ≠ s.nextHandle :=
    fun w cb hcb => Nat.ne_of_lt (h.handle_lt hcb)
  have htimer : (s.newTimer H resumes time i c).timers.lookup s.nextHandle =
      some ⟨i, s.loop.nextWaitId, false, resumes⟩ := Finmap.lookup_insert _
  have hmem : s.nextHandle ∈ c.timers ++ [s.nextHandle] := List.mem_append_right _ (List.mem_singleton_self _)
  apply change_inv h hchange (Eventloop.callAt_inv h.loop time _ _) (h.single.enlist _ hfresh)
  · exact hchange.listed h hc rfl
  · intro w cb hcb
    refine .inl (refers_enlist ?_ (fun w cb hcb => ?_) hcb)
    · cases resumes with
      | true => exact .sleep htimer rfl hchange.self hmem rfl
      | false => exact .watch htimer rfl hchange.self hmem (by rw [if_neg (by simp), hc]; rfl)
    · apply hchange.refers h hc _ hother _ hcb
      · rw [hc]
        cases resumes <;> rfl
      · exact fun t ht => List.mem_append_left _ ht

theorem awaitIo_inv (h : Inv s) (d : Dir) (fd : ℤ) (ctl : CtlOp → Bool) (hi : s.coros.lookup i = some c)
    (hc : c.status = .running) : Inv (s.awaitIo d fd ctl i c) := by
  have hchange : Change s (s.awaitIo d fd ctl i c) i c
      { c with status := .onIo ⟨d, fd, s.loop.nextWaitId, toInt (s.loop.addWaiter d fd i (.resume i) ctl).1⟩ } :=
    suspend_change hi hc rfl rfl le_rfl (fun j hs => by cases hs) rfl
  have hsub : ∀ w cb, (s.awaitIo d fd ctl i c).loop.waitCallback.lookup w = some cb →
      (s.loop.enlist i (.resume i)).waitCallback.lookup w = some cb := fun w cb => Eventloop.addWaiter_lookup
  apply change_inv h hchange (Eventloop.addWaiter_inv h.loop d fd i _ ctl)
  · exact (h.single.enlist _ fun w cb hcb => h.idle hi (.inl hc) hcb).mono hsub
  · exact hchange.listed h hc rfl
  · intro w cb hcb
    refine .inl (refers_enlist (.io hchange.self rfl) (fun w cb hcb => ?_) (hsub w cb hcb))
    exact hchange.refers h hc rfl (fun _ _ ht => ht) (fun _ ht => ht) hcb

theorem awaitChannel_inv (h : Inv s) (k : ℕ) (hi : s.coros.lookup i = some c) (hc : c.status = .running) :
    Inv (s.awaitChannel k i c) := by
  have hchange : Change s (s.awaitChannel k i c) i c { c with status := .onChannel k } :=
    suspend_change hi hc rfl rfl le_rfl (fun j hs => by cases hs) rfl
  -- what stands in a list goes on standing there
  have hkept : ∀ k' l, s.lists.lookup k' = some l → ∀ j ∈ l, ∃ d, (s.awaitChannel k i c).coros.lookup j = some d ∧
      (d.status = .onChannel k' ∨ d.status = .destroyed) := by
    intro k' l hl j hj
    obtain ⟨d, hd, hs⟩ := (h.listed k' l hl).2 j hj
    refine ⟨d, ?_, hs⟩
    rw [hchange.other fun hji => h.unlisted hi hc hl (hji ▸ hj), hd]
  apply change_inv h hchange h.loop h.single
  · intro k' l hl
    unfold awaitChannel at hl
    dsimp only at hl
    rw [lookup_insert_ite] at hl
    split_ifs at hl with hk
    · subst hk
      obtain rfl := Option.some.inj hl
      cases hold : s.lists.lookup k' with
      | none =>
        refine ⟨List.nodup_singleton i, ?_⟩
        intro j hj
        rw [List.mem_singleton.1 hj]
        exact ⟨_, hchange.self, .inl rfl⟩
      | some l =>
        refine ⟨?_, ?_⟩
        · exact List.nodup_append.2 ⟨(h.listed k' l hold).1, List.nodup_singleton i,
            fun a ha b hb hab => h.unlisted hi hc hold (by rwa [← List.mem_singleton.1 hb, ← hab])⟩
        · intro j hj
          rcases List.mem_append.1 hj with hj | hj
          · exact hkept k' l hold j hj
          · rw [List.mem_singleton.1 hj]
            exact ⟨_, hchange.self, .inl rfl⟩
    · exact ⟨(h.listed k' l hl).1, hkept k' l hl⟩
  · intro w cb hcb
    exact .inl (hchange.refers h hc rfl (fun _ _ ht => ht) (fun _ ht => ht) hcb)

/-- a coroutine is made and scheduled -/
theorem born_inv (h : Inv s) {n m : ℕ} {parent : Option ℕ} (hn : n < m) (hm : s.nextHandle ≤ m)
    (hcoro : s.coros.lookup n = none) (htimer : s.timers.lookup n = none)
    (hquiet : ∀ w cb, s.loop.waitCallback.lookup w = some cb → cb.coroId ≠ n)
    (hparent : ∀ p, parent = some p ↔ ∃ cp, s.coros.lookup p = some cp ∧ cp.status = .onChild n) :
    Inv { s with
      nextHandle := m
      coros := s.coros.insert n ⟨.initial, parent, []⟩
      loop := (s.loop.callSoon n (.run n)).2 } := by
  have hself : (s.coros.insert n ⟨.initial, parent, []⟩).lookup n = some ⟨.initial, parent, []⟩ := Finmap.lookup_insert _
  have hkeep : ∀ k d, s.coros.lookup k = some d → (s.coros.insert n ⟨.initial, parent, []⟩).lookup k = some d := by
    intro k d hd
    have hne : k ≠ n := by
      rintro rfl
      cases hcoro.symm.trans hd
    exact (Finmap.lookup_insert_of_ne _ hne).trans hd
  have hcases : ∀ k d, (s.coros.insert n ⟨.initial, parent, []⟩).lookup k = some d →
      (k = n ∧ d = ⟨.initial, parent, []⟩) ∨ s.coros.lookup k = some d := by
    intro k d hd
    rw [lookup_insert_ite] at hd
    split_ifs at hd with hk
    · exact .inl ⟨hk, (Option.some.inj hd).symm⟩
    · exact .inr hd
  refine ⟨Eventloop.callSoon_inv h.loop _ _, ?_, ?_, ?_, ?_, h.single.enlist _ hquiet, ?_, ?_, ?_, h.untouched⟩
  · intro k d hk
    rcases hcases k d hk with ⟨rfl, -⟩ | hd
    · exact hn
    · exact lt_of_lt_of_le (h.coroIds k d hd) hm
  · intro t x hx
    obtain ⟨hlt, hnone⟩ := h.timerIds t x hx
    refine ⟨lt_of_lt_of_le hlt hm, ?_⟩
    have hne : t ≠ n := by
      rintro rfl
      cases htimer.symm.trans hx
    exact (Finmap.lookup_insert_of_ne _ hne).trans hnone
  · intro k d t hk hmem
    rcases hcases k d hk with ⟨-, rfl⟩ | hd
    · cases hmem
    · exact ⟨lt_of_lt_of_le (h.frame k d t hd hmem).1 hm, (h.frame k d t hd hmem).2⟩
  · intro w cb hcb
    refine refers_enlist (.begin hself rfl) (fun w cb hcb => ?_) hcb
    exact (h.refers w cb hcb).mono hkeep fun _ hx => hx
  · intro j cj p hj hlive hp
    rcases hcases j cj hj with ⟨rfl, rfl⟩ | hd
    · obtain ⟨cp, hcp, hs⟩ := (hparent p).1 hp
      exact ⟨cp, hkeep p cp hcp, hs⟩
    · obtain ⟨cp, hcp, hs⟩ := h.parent j cj p hd hlive hp
      exact ⟨cp, hkeep p cp hcp, hs⟩
  · intro k d j hk hs
    rcases hcases k d hk with ⟨-, rfl⟩ | hd
    · cases hs
    · obtain ⟨hkj, hlt, hold⟩ := h.child k d j hd hs
      refine ⟨hkj, lt_of_lt_of_le hlt hm, ?_⟩
      intro cj hj hlive
      rcases hcases j cj hj with ⟨rfl, rfl⟩ | hd'
      · exact (hparent k).2 ⟨d, hd, hs⟩
      · exact hold cj hd' hlive
  · intro k l hl
    obtain ⟨hnodup, hmem⟩ := h.listed k l hl
    refine ⟨hnodup, ?_⟩
    intro j hj
    obtain ⟨d, hd, hs⟩ := hmem j hj
    exact ⟨d, hkeep j d hd, hs⟩

theorem spawn_inv (h : Inv s) : Inv s.spawn := by
  apply born_inv h (Nat.lt_succ_self _) (Nat.le_succ _) (h.no_coro le_rfl) (h.no_timer le_rfl)
  · exact fun w cb hcb => Nat.ne_of_lt (h.handle_lt hcb)
  · refine fun p => ⟨fun hp => (by cases hp), ?_⟩
    intro ⟨cp, hcp, hs⟩
    exact absurd (h.child p cp _ hcp hs).2.1 (lt_irrefl _)

theorem awaitChild_inv (h : Inv s) (hi : s.coros.lookup i = some c) (hc : c.status = .running) :
    Inv (s.awaitChild i c) := by
  have hlt := h.coroIds i c hi
  -- the parent is suspended, and then the child is made
  let t : Tasks :=
    { s with nextHandle := s.nextHandle + 1, coros := s.coros.insert i { c with status := .onChild s.nextHandle } }
  have hchange : Change s t i c { c with status := .onChild s.nextHandle } := by
    refine suspend_change hi hc rfl rfl (Nat.le_succ _) (fun j hs => ?_) rfl
    rw [← Status.onChild.inj hs]
    exact ⟨le_rfl, Nat.lt_succ_self _⟩
  have ht : Inv t := by
    apply change_inv h hchange h.loop h.single (hchange.listed h hc rfl)
    intro w cb hcb
    exact .inl (hchange.refers h hc rfl (fun _ _ ht => ht) (fun _ ht => ht) hcb)
  apply born_inv ht (Nat.lt_succ_self _) le_rfl
  · rw [hchange.other (Nat.ne_of_gt hlt)]
    exact h.no_coro le_rfl
  · exact h.no_timer le_rfl
  · exact fun w cb hcb => Nat.ne_of_lt (h.handle_lt hcb)
  · intro p
    constructor
    · intro hp
      rw [← Option.some.inj hp]
      exact ⟨_, hchange.self, rfl⟩
    · intro ⟨cp, hcp, hs⟩
      by_cases hpi : p = i
      · rw [hpi]
      · rw [hchange.other hpi] at hcp
        exact absurd (h.child p cp _ hcp hs).2.1 (lt_irrefl _)

theorem unwatch_inv (h : Inv s) (t : ℕ) (hi : s.coros.lookup i = some c) (hc : c.status = .running) :
    Inv (s.unwatch H t i c) := by
  unfold unwatch
  split_ifs with hmem
  swap
  · exact h
  have hd := dropTimer_dropped (H := H) (s := s) t
  refine leave_inv h hd hi (by rw [hc]; rfl) ?_ rfl ?_ (fun _ => by rw [hc]; rfl) (fun j cj hs => ?_) (fun j hs => hs) ?_
    (fun t _ hs => ?_) fun w cb hcb => h.idle hi (.inl hc) (hd.less.callback w cb hcb)
  · intro t' ht'
    rwa [List.mem_singleton.1 ht']
  · intro t'
    simp
  · cases hc.symm.trans hs
  · exact fun k l hl hmem => absurd hmem (h.unlisted hi hc hl)
  · cases hc.symm.trans hs

theorem finish_inv (h : Inv s) (hi : s.coros.lookup i = some c) (hc : c.status = .running) : Inv (s.finish H i c) := by
  have hlive : c.status.live = true := by rw [hc]; rfl
  have hd := dropTimers_dropped (H := H) (s := s) c.timers
  have hleft : Inv ((s.dropTimers H c.timers).update i { c with status := .final, timers := [] }) := by
    refine leave_inv h hd hi hlive (fun _ ht => ht) rfl ?_ (fun hne => absurd rfl hne) (fun j cj hs => ?_)
      (fun j hs => ?_) ?_ (fun _ ht _ => ht) fun w cb hcb => h.idle hi (.inl hc) (hd.less.callback w cb hcb)
    · simp
    · cases hc.symm.trans hs
    · cases hs
    · exact fun k l hl hmem => absurd hmem (h.unlisted hi hc hl)
  unfold finish
  dsimp only
  generalize hu : (s.dropTimers H c.timers).update i { c with status := .final, timers := [] } = u at hleft ⊢
  have hother : ∀ k, k ≠ i → u.coros.lookup k = s.coros.lookup k := by
    rw [← hu]
    exact fun k hk => hd.update_other hk
  have hself : u.coros.lookup i = some { c with status := .final, timers := [] } := by
    rw [← hu]
    exact update_self
  have hless : Less s.loop u.loop := by
    rw [← hu]
    exact hd.less
  cases hp : c.parent with
  | none => exact hleft
  | some p =>
    obtain ⟨cp, hcp, hs⟩ := h.parent i c p hi hlive hp
    have hpi : p ≠ i := by
      rintro rfl
      obtain rfl := Option.some.inj (hi.symm.trans hcp)
      cases hc.symm.trans hs
    have hcp' : u.coros.lookup p = some cp := (hother p hpi).trans hcp
    have hgone : u.gone p = false := not_gone hcp' (by rw [hs]; simp)
    -- while the child ran, the parent had no callback
    have hquiet : ∀ w cb, u.loop.waitCallback.lookup w = some cb → cb.coroId ≠ p := by
      rintro w cb hcb rfl
      rcases h.own (hless.callback w cb hcb) hcp with hs' | ⟨j, cj, hs', hj, hdead⟩ | ⟨a, hs'⟩
      · cases hs.symm.trans hs'
      · rw [hs] at hs'
        obtain rfl := Status.onChild.inj hs'
        obtain rfl := Option.some.inj (hi.symm.trans hj)
        cases hlive.symm.trans hdead
      · cases hs.symm.trans hs'
    dsimp only
    rw [if_neg (by rw [hgone]; simp), List.append_nil]
    apply withLoop_inv hleft (Eventloop.callSoon_inv hleft.loop p _) (hleft.single.enlist _ hquiet)
    intro w cb hcb
    exact refers_enlist (.back hcp' hs hself rfl) hleft.refers hcb

theorem cancel_eq (i : ℕ) (c : Coro) : ∃ u, Dropped s u c.timers ∧
    (s.loop.Inv → ∀ w cb, u.loop.waitCallback.lookup w = some cb → cb.coroId ≠ i) ∧
    s.cancel H i c = u.update i { c with status := .destroyed, timers := [] } := by
  have hwaits : Dropped s (s.withLoop (s.loop.cancel H i)) [] :=
    withLoop_dropped (fun h => Eventloop.cancel_inv h i) (Eventloop.cancel_less i)
  -- behind the awaiter: the timers, then the promise
  have hrest : ∀ {v : Tasks}, Dropped s v [] → ∃ u, Dropped s u c.timers ∧
      (s.loop.Inv → ∀ w cb, u.loop.waitCallback.lookup w = some cb → cb.coroId ≠ i) ∧
      ((v.dropTimers H c.timers).withLoop ((v.dropTimers H c.timers).loop.cancel H i)).update i
        { c with status := .destroyed, timers := [] } = u.update i { c with status := .destroyed, timers := [] } := by
    intro v hawaiter
    have htimers := hawaiter.trans (dropTimers_dropped (H := H) c.timers)
    have hpromise := htimers.trans
      (withLoop_dropped (fun h => Eventloop.cancel_inv (H := H) h i) (Eventloop.cancel_less i))
    rw [List.append_nil] at hpromise
    exact ⟨_, hpromise, fun h w cb hcb => Eventloop.cancel_none (htimers.loop h) hcb, rfl⟩
  unfold Tasks.cancel
  dsimp only
  split
  · exact hrest (hwaits.trans (withLoop_dropped (fun h => IoLoop.drop_inv h _) (IoLoop.drop_less _)))
  · exact hrest hwaits

theorem cancel_inv (h : Inv s) (hi : s.coros.lookup i = some c) (hlive : c.status.live = true)
    (hchild : ∀ j cj, c.status = .onChild j → s.coros.lookup j = some cj → cj.status.live = false) :
    Inv (s.cancel H i c) := by
  obtain ⟨u, hd, hquiet, he⟩ := cancel_eq (H := H) (s := s) i c
  rw [he]
  refine leave_inv h hd hi hlive (fun _ ht => ht) rfl ?_ (fun hne => absurd rfl hne) (fun j cj hs hj hl => ?_)
    (fun j hs => ?_) (fun _ _ _ _ => .inr rfl) (fun _ ht _ => ht) (hquiet h.loop)
  · simp
  · cases (hchild j cj hs hj).symm.trans hl
  · cases hs

/-! ## Runs -/

theorem whenRunning_inv (h : Inv s) {f : Coro → Tasks → Tasks}
    (hf : ∀ c, s.coros.lookup i = some c → c.status = .running → Inv (f c s)) : Inv (s.whenRunning i f) := by
  unfold whenRunning
  cases hi : s.coros.lookup i with
  | none => exact h
  | some c =>
    dsimp only
    split_ifs with hc
    · exact hf c hi hc
    · exact h

/-- **One step** -/
theorem step_inv (h : Inv s) {l : Label} (hs : Harmless s l) : Inv (s.step H l) := by
  cases l with
  | spawn => exact spawn_inv h
  | awaitChild i => exact whenRunning_inv h fun c => awaitChild_inv h
  | sleep i time => exact whenRunning_inv h fun c => newTimer_inv h true time
  | watch i time => exact whenRunning_inv h fun c => newTimer_inv h false time
  | unwatch i t => exact whenRunning_inv h fun c => unwatch_inv h t
  | awaitIo i d fd ctl => exact whenRunning_inv h fun c => awaitIo_inv h d fd ctl
  | awaitChannel i k => exact whenRunning_inv h fun c => awaitChannel_inv h k
  | wake k => exact wake_inv h hs
  | finish i => exact whenRunning_inv h fun c => finish_inv h
  | cancel i =>
    unfold step cancelTask
    dsimp only
    cases hi : s.coros.lookup i with
    | none => exact h
    | some c =>
      dsimp only
      split_ifs with hlive
      · exact cancel_inv h hi hlive.1 fun j cj hc hj => hs c j cj hi hc hj
      · exact h
  | executeReady => exact executeReady_inv h
  | epollEvent events => exact fewer_inv h (Eventloop.epollEvent_inv h.loop events) fun _ _ hcb => hcb
  | expiredTimeout now =>
    apply fewer_inv h (Eventloop.expire_inv h.loop now _)
    intro w cb hcb
    exact (Eventloop.expire_rest now _).2.1 ▸ hcb

/-- the child of a cancelled coroutine keeps its parent -/
theorem cancel_breaks (h : Inv s) (hs : ¬ Harmless s (.cancel i)) : ¬ NoDangling (s.step H (.cancel i)) := by
  simp only [Harmless] at hs
  push Not at hs
  obtain ⟨c, j, cj, hi, hc, hj, hlive⟩ := hs
  obtain ⟨hij, -, hparent⟩ := h.child i c j hi hc
  have hlive' : cj.status.live = true := by simpa using hlive
  have hstep : s.step H (.cancel i) = s.cancel H i c := by
    simp [step, cancelTask, hi, hc, Status.live]
  obtain ⟨u, hd, -, he⟩ := cancel_eq (H := H) (s := s) i c
  rw [hstep, he]
  intro hno
  have hgone := hno.parents j cj i ((hd.update_other (Nat.ne_of_gt hij)).trans hj) hlive' (hparent cj hj hlive')
  rw [gone_eq update_self] at hgone
  cases hgone

/-- a Channel resumes a destroyed coroutine -/
theorem wake_breaks {k : ℕ} (hs : ¬ Harmless s (.wake k)) : ¬ NoDangling (s.step H (.wake k)) := by
  simp only [Harmless] at hs
  push Not at hs
  obtain ⟨i, rest, hl, hgone⟩ := hs
  intro hno
  have htouched := hno.untouched
  unfold gone at hgone
  cases hi : s.coros.lookup i with
  | none => simp [hi] at hgone
  | some c =>
    have hc : c.status = .destroyed := by simpa [hi] using hgone
    have hstep : (s.step H (.wake k)).touched = s.touched ++ [i] := by
      simp [step, wake, proceed, hl, hi, hc]
    rw [hstep] at htouched
    exact absurd htouched (by simp)

theorem breaks (h : Inv s) {l : Label} (hs : ¬ Harmless s l) : ¬ NoDangling (s.step H l) := by
  cases l with
  | cancel i => exact cancel_breaks h hs
  | wake k => exact wake_breaks hs
  | _ => exact absurd trivial hs

/-- **Dangling references**: there are none in any state of a run exactly if each cancel and each operation of a Channel
is harmless -/
theorem no_dangling_iff (H : HeapAlgorithms) (ls : List Label) :
    (∀ n, NoDangling (Machine.run (step H) start (ls.take n))) ↔ Machine.Along (step H) Harmless start ls :=
  Machine.along_iff (L := fun _ => True) (I := Inv) (P := NoDangling) (C := Harmless) (fun _ h => h.noDangling)
    (fun _ _ _ h hs => step_inv h hs) (fun _ _ _ h hs => breaks h hs) start_inv fun _ _ => trivial

/-- the parent is cancelled while its child runs: the FinalAwaiter of the child writes to it and schedules it, and the
loop resumes it; a coroutine is cancelled in a Channel, and the Channel resumes it -/
theorem parent_gone :
    (¬ NoDangling (Machine.run (step sortedHeap) start [.spawn, .executeReady, .awaitChild 1, .cancel 1])) ∧
    (Machine.run (step sortedHeap) start
      [.spawn, .executeReady, .awaitChild 1, .cancel 1, .executeReady, .finish 2, .executeReady]).touched = [1, 1] ∧
    (Machine.run (step sortedHeap) start
      [.spawn, .executeReady, .awaitChannel 1 0, .cancel 1, .wake 0]).touched = [1] := by
  refine ⟨?_, by decide, by decide⟩
  intro h
  have hgone := h.parents 2 ⟨.initial, some 1, []⟩ 1 (by decide) rfl rfl
  revert hgone
  decide

end MCoroRpc.Tasks
