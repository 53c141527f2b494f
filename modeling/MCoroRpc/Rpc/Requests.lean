/-
The requests that CallMethod has put into m_request_chan (include/rpc/rpc_channel.inl).

workerLoop ends each request that it takes, on every path. close empties the queue with `cleanup`, which knows nothing of
the callbacks: what is queued then never ends.

- `Books`: every CallMethod so far has ended, is queued, is in the hands of a worker, or has been thrown away.
- `completed_iff`: when the channel is closed and no worker runs, each accepted request has ended exactly once exactly
  if the queue was empty at close.
- `close_loses`: a request that is queued at close.
-/
import MCoroRpc.Rpc.Connection

namespace MCoroRpc

/-- workerLoop has not ended -/
def Pc.works : Pc → Bool
  | .entering => true
  | .reconnect => true
  | .sleeping => true
  | .connecting => true
  | .reconnected => true
  | .asking => true
  | .waiting => true
  | .handed _ => true
  | .sending _ => true
  | .receiving _ => true
  | .crashed (some _) => true
  | _ => false

namespace Connection

/-- close has returned and workerLoop has ended -/
def Over (s : Connection) : Prop := s.chan.isActive = false ∧ ∀ pc ∈ s.coros, pc.works = false

/-- close finds no request in m_request_chan -/
def Emptied (s : Connection) (l : Label) : Prop := l = .close → s.chan.isActive = true → s.chan.buffer = []

/-! ## The books -/

def queued (s : Connection) : Multiset ℕ := s.chan.buffer.map Item.src

/-- the requests in the hands of coroutines -/
def held (t : List Pc) : Multiset ℕ := Table.total (fun _ => Pc.held) t

structure Books (s : Connection) : Prop where
  linked : Linked s
  law : (s.ended.map Prod.fst : Multiset ℕ) + s.queued + held s.coros + s.dropped = Multiset.range s.next
  accepted : ∀ r ∈ s.accepted, r < s.next
  queued : ∀ r ∈ s.queued, r ∈ s.accepted
  dropped : ∀ r ∈ s.dropped, r ∈ s.accepted
  closed : s.chan.isActive = false → s.chan.buffer = []

section
variable {s s' : Connection} {i : ℕ} {a : Awaited} {pc pc' : Pc} {t : List Pc}

theorem Pc.held_of_not_works (h : pc.works = false) : pc.held = 0 := by
  unfold Pc.works at h
  unfold Pc.held
  split at h <;> simp_all

theorem held_set (hi : t[i]? = some pc) (pc' : Pc) : held (t.modify i fun _ => pc') + pc.held = held t + pc'.held :=
  Table.total_modify (f := fun _ => Pc.held) (fun _ => pc') hi

theorem held_set_eq (pc' : Pc) (hi : t[i]? = some pc) (h : pc'.held = pc.held) :
    held (t.modify i fun _ => pc') = held t := by
  have hset := held_set hi pc'
  rw [h] at hset
  exact add_right_cancel hset

theorem held_gain (pc' : Pc) (hi : t[i]? = some pc) (h : pc.held = 0) :
    held (t.modify i fun _ => pc') = held t + pc'.held := by
  have hset := held_set hi pc'
  rw [h, add_zero] at hset
  exact hset

theorem held_append (t : List Pc) (pc : Pc) : held (t ++ [pc]) = held t + pc.held := Table.total_snoc

/-- the readers hold nothing, before and behind -/
theorem held_cancelReaders (h : Linked s) : held s.cancelReaders = held s.coros := by
  apply Table.total_setAll
  intro w hw pc hpc
  have heq := (h.waits w hw).symm.trans hpc
  cases heq
  rfl

theorem ended_snoc (ended : List (ℕ × Finish)) (r : ℕ) (f : Finish) :
    ((ended ++ [(r, f)]).map Prod.fst : Multiset ℕ) = (ended.map Prod.fst : Multiset ℕ) + {r} := by
  rw [List.map_append, ← Multiset.coe_add]
  rfl

theorem queued_cons {x : Item Unit} {xs : List (Item Unit)} (h : s.chan.buffer = x :: xs) :
    s.queued = {x.src} + (xs.map Item.src : Multiset ℕ) := by
  rw [Connection.queued, h]
  rfl

/-- a step between whose ends the same requests are queued and in hand -/
theorem same_books {stream connected : Bool} {retry : ℕ} {c : Channel Unit} (h : Books s)
    (hlinked : Linked { s with stream := stream, connected := connected, retry := retry, chan := c, coros := t })
    (hbuffer : c.buffer = s.chan.buffer) (hactive : c.isActive = s.chan.isActive) (hheld : held t = held s.coros) :
    Books { s with stream := stream, connected := connected, retry := retry, chan := c, coros := t } := by
  refine ⟨hlinked, ?_, h.accepted, ?_, h.dropped, ?_⟩
  · simp only [Connection.queued, hbuffer, hheld]
    exact h.law
  · simp only [Connection.queued, hbuffer]
    exact h.queued
  · simp only [hbuffer, hactive]
    exact h.closed

/-- what the coroutine has in its hands has ended -/
theorem ends_books {r : ℕ} {f : Finish} {stream connected : Bool} (h : Books s) (hi : s.coros[i]? = some pc)
    (hpc : pc.held = {r}) (hrests : pc'.held = 0)
    (hlinked : Linked
      { s with
        coros := s.coros.modify i fun _ => pc'
        stream := stream
        connected := connected
        ended := s.ended ++ [(r, f)] }) :
    Books
      { s with
        coros := s.coros.modify i fun _ => pc'
        stream := stream
        connected := connected
        ended := s.ended ++ [(r, f)] } := by
  refine ⟨hlinked, ?_, h.accepted, h.queued, h.dropped, h.closed⟩
  have hset := held_set hi pc'
  rw [hpc, hrests, add_zero] at hset
  calc ((s.ended ++ [(r, f)]).map Prod.fst : Multiset ℕ) + s.queued + held (s.coros.modify i fun _ => pc') + s.dropped
      = (s.ended.map Prod.fst : Multiset ℕ) + s.queued + (held (s.coros.modify i fun _ => pc') + {r}) + s.dropped := by
        rw [ended_snoc]
        abel
    _ = Multiset.range s.next := by rw [hset, h.law]

/-- the front of the buffer goes into the hands of the coroutine -/
theorem takes_books {x : Item Unit} {xs : List (Item Unit)} (h : Books s) (hi : s.coros[i]? = some .asking)
    (hbuffer : s.chan.buffer = x :: xs)
    (hlinked : Linked
      { s with
        chan := { s.chan with buffer := xs }
        coros := s.coros.modify i fun _ => .handed (some x.src) }) :
    Books
      { s with
        chan := { s.chan with buffer := xs }
        coros := s.coros.modify i fun _ => .handed (some x.src) } := by
  have hq : s.queued = {x.src} + (xs.map Item.src : Multiset ℕ) := queued_cons hbuffer
  have hset : held (s.coros.modify i fun _ => .handed (some x.src)) = held s.coros + {x.src} :=
    held_gain (.handed (some x.src)) hi rfl
  refine ⟨hlinked, ?_, h.accepted, ?_, h.dropped, ?_⟩
  · calc (s.ended.map Prod.fst : Multiset ℕ) + (xs.map Item.src : Multiset ℕ) +
          held (s.coros.modify i fun _ => .handed (some x.src)) + s.dropped
        = (s.ended.map Prod.fst : Multiset ℕ) + ({x.src} + (xs.map Item.src : Multiset ℕ)) + held s.coros +
            s.dropped := by
          rw [hset]
          abel
      _ = Multiset.range s.next := by rw [← hq, h.law]
  · intro r hr
    apply h.queued r
    rw [hq]
    exact Multiset.mem_add.2 (.inr hr)
  · intro hclosed
    rw [h.closed hclosed] at hbuffer
    cases hbuffer

theorem move_books (h : Books s) (hi : s.coros[i]? = some pc) (hm : Move s i a pc s') : Books s' := by
  have hlinked := h.linked.move hi hm
  cases hm with
  | idle => exact h
  | goes _ pc' _ _ _ hheld => exact same_books h hlinked rfl rfl (held_set_eq pc' hi hheld)
  | ends r f pc' _ _ hpc hrests => exact ends_books h hi hpc hrests.2.2 hlinked
  | takes hpc c t htake =>
    obtain ⟨xs, hbuffer, rfl⟩ := h.linked.take_eq htake
    subst hpc
    exact takes_books h hi hbuffer hlinked
  | blocks hpc =>
    subst hpc
    exact same_books h hlinked rfl rfl (held_set_eq .waiting hi rfl)
  | retries hpc => exact same_books h hlinked rfl rfl (held_set_eq .sleeping hi hpc.2.2.symm)
  | givesUp hpc hwait =>
    have hi' : s.cancelReaders[i]? = some pc :=
      (Table.getElem?_setAll_of_not_mem (h.linked.not_mem hi hwait)).trans hi
    have hheld : held (s.cancelReaders.modify i fun _ => .reconnected) = held s.coros :=
      (held_set_eq .reconnected hi' hpc.2.2.symm).trans (held_cancelReaders h.linked)
    exact same_books h hlinked rfl rfl hheld

theorem call_books (h : Books s) (hc : Call s s') : Books s' := by
  have hlinked := h.linked.call hc
  have hnew : ∀ r ∈ s.accepted ++ [s.next], r < s.next + 1 := by
    intro r hr
    rcases List.mem_append.1 hr with hr | hr
    · exact Nat.lt_succ_of_lt (h.accepted r hr)
    · rw [List.mem_singleton.1 hr]
      exact Nat.lt_succ_self _
  have hgrown : ∀ r ∈ s.accepted, r ∈ s.accepted ++ [s.next] := fun r hr => List.mem_append_left _ hr
  -- the new request is counted once more, wherever it goes
  have hnext : (s.ended.map Prod.fst : Multiset ℕ) + s.queued + held s.coros + s.dropped + {s.next} =
      Multiset.range (s.next + 1) := by
    rw [h.law, Multiset.range_succ, ← Multiset.singleton_add, add_comm]
  cases hc with
  | fails f =>
    refine ⟨hlinked, ?_, fun r hr => Nat.lt_succ_of_lt (h.accepted r hr), h.queued, h.dropped, h.closed⟩
    calc ((s.ended ++ [(s.next, f)]).map Prod.fst : Multiset ℕ) + s.queued + held s.coros + s.dropped
        = (s.ended.map Prod.fst : Multiset ℕ) + s.queued + held s.coros + s.dropped + {s.next} := by
          rw [ended_snoc]
          abel
      _ = Multiset.range (s.next + 1) := hnext
  | handed w ws _ hreaders =>
    have hw : s.coros[w]? = some .waiting := by
      apply h.linked.waits
      rw [hreaders]
      exact List.mem_cons_self
    have hset : held (s.coros.modify w fun _ => .handed (some s.next)) = held s.coros + {s.next} :=
      held_gain (.handed (some s.next)) hw rfl
    refine ⟨hlinked, ?_, hnew, fun r hr => hgrown r (h.queued r hr), fun r hr => hgrown r (h.dropped r hr), h.closed⟩
    calc (s.ended.map Prod.fst : Multiset ℕ) + s.queued + held (s.coros.modify w fun _ => .handed (some s.next)) +
          s.dropped
        = (s.ended.map Prod.fst : Multiset ℕ) + s.queued + held s.coros + s.dropped + {s.next} := by
          rw [hset]
          abel
      _ = Multiset.range (s.next + 1) := hnext
  | queued hactive =>
    have hq : ((s.chan.buffer ++ [Item.mk s.next ()]).map Item.src : Multiset ℕ) = s.queued + {s.next} := by
      rw [List.map_append, ← Multiset.coe_add]
      rfl
    refine ⟨hlinked, ?_, hnew, ?_, fun r hr => hgrown r (h.dropped r hr), ?_⟩
    · calc (s.ended.map Prod.fst : Multiset ℕ) + ((s.chan.buffer ++ [Item.mk s.next ()]).map Item.src : Multiset ℕ) +
            held s.coros + s.dropped
          = (s.ended.map Prod.fst : Multiset ℕ) + s.queued + held s.coros + s.dropped + {s.next} := by
            rw [hq]
            abel
        _ = Multiset.range (s.next + 1) := hnext
    · intro r hr
      have hr' : r ∈ s.queued + {s.next} := hq ▸ hr
      rcases Multiset.mem_add.1 hr' with hr' | hr'
      · exact hgrown r (h.queued r hr')
      · rw [Multiset.mem_singleton.1 hr']
        exact List.mem_append_right _ List.mem_cons_self
    · intro hclosed
      rw [hactive] at hclosed
      cases hclosed

theorem close_books (h : Books s) : Books s.close := by
  have hlinked := h.linked.close
  unfold close at hlinked ⊢
  split_ifs at hlinked ⊢ with hactive
  · refine ⟨hlinked, ?_, h.accepted, fun r hr => absurd hr (Multiset.notMem_zero r), ?_, fun _ => rfl⟩
    · calc (s.ended.map Prod.fst : Multiset ℕ) + 0 + held s.cancelReaders +
            ((s.dropped ++ s.chan.buffer.map Item.src : List ℕ) : Multiset ℕ)
          = (s.ended.map Prod.fst : Multiset ℕ) + s.queued + held s.cancelReaders + s.dropped := by
            rw [← Multiset.coe_add, Connection.queued]
            abel
        _ = Multiset.range s.next := by rw [held_cancelReaders h.linked, h.law]
    · intro r hr
      rcases List.mem_append.1 hr with hr | hr
      · exact h.dropped r hr
      · exact h.queued r hr
  · exact ⟨hlinked, h.law, h.accepted, h.queued, h.dropped, h.closed⟩

/-- a coroutine that starts holds nothing -/
theorem append_books (h : Books s) (hheld : pc.held = 0) : Books { s with coros := s.coros ++ [pc] } := by
  refine ⟨⟨h.linked.writers, h.linked.nodup, h.linked.append_waits pc⟩, ?_, h.accepted, h.queued, h.dropped, h.closed⟩
  have hlaw := h.law
  rw [show held s.coros = held (s.coros ++ [pc]) by rw [held_append, hheld, add_zero]] at hlaw
  exact hlaw

theorem step_books (h : Books s) (l : Label) : Books (s.step l) := by
  cases l with
  | connect =>
    apply append_books h
    split_ifs <;> rfl
  | callMethod serializes => exact call_books h (callMethod_call s serializes)
  | callMethodAsync serializes =>
    apply append_books h
    split_ifs <;> rfl
  | workerLoop => exact append_books h rfl
  | resume i a =>
    simp only [step]
    cases hi : s.coros[i]? with
    | none =>
      rw [resume_none hi]
      exact h
    | some pc => exact move_books h hi (resume_move hi)
  | close => exact close_books h

theorem start_books : Books start :=
  ⟨start_linked, rfl, fun _ hr => absurd hr List.not_mem_nil, fun r hr => absurd hr (Multiset.notMem_zero r),
    fun _ hr => absurd hr List.not_mem_nil, fun _ => rfl⟩

/-! ## What close throws away -/

def thrown (s : Connection) : Label → List ℕ
  | .close => if s.chan.isActive then s.chan.buffer.map Item.src else []
  | _ => []

theorem move_dropped (hm : Move s i a pc s') : s'.dropped = s.dropped := by
  cases hm <;> rfl

theorem call_dropped (hc : Call s s') : s'.dropped = s.dropped := by
  cases hc <;> rfl

theorem step_dropped (s : Connection) (l : Label) : (s.step l).dropped = s.dropped ++ s.thrown l := by
  cases l with
  | callMethod serializes => exact (call_dropped (callMethod_call s serializes)).trans (List.append_nil _).symm
  | resume i a =>
    simp only [step, thrown, List.append_nil]
    cases hi : s.coros[i]? with
    | none => rw [resume_none hi]
    | some pc => exact move_dropped (resume_move hi)
  | close =>
    simp only [step, thrown, close]
    split_ifs
    · rfl
    · exact (List.append_nil _).symm
  | _ => exact (List.append_nil _).symm

theorem emptied_iff {l : Label} : Emptied s l ↔ s.thrown l = [] := by
  unfold Emptied
  cases l with
  | close =>
    simp only [thrown, true_imp_iff]
    split_ifs with hactive
    · simp only [hactive, true_imp_iff, List.map_eq_nil_iff]
    · simp only [hactive, false_imp_iff, Bool.false_eq_true]
  | _ => exact ⟨fun _ => rfl, fun _ h => by cases h⟩

/-- what is thrown away stays so -/
theorem run_dropped (s : Connection) (ls : List Label) (h : (Machine.run step s ls).dropped = []) : s.dropped = [] := by
  induction ls generalizing s with
  | nil => exact h
  | cons l ls ih =>
    have hstep := ih _ h
    rw [step_dropped] at hstep
    exact (List.append_eq_nil_iff.1 hstep).1

/-- nothing is thrown away exactly if close finds nothing -/
theorem dropped_iff (s : Connection) (hs : s.dropped = []) (ls : List Label) :
    (Machine.run step s ls).dropped = [] ↔ Machine.Along step Emptied s ls := by
  induction ls generalizing s with
  | nil => exact ⟨fun _ => trivial, fun _ => hs⟩
  | cons l ls ih =>
    rw [Machine.run_cons, Machine.along_cons, emptied_iff]
    have hstep := step_dropped s l
    rw [hs, List.nil_append] at hstep
    constructor
    · intro h
      have hthrown := run_dropped _ ls h
      exact ⟨hstep ▸ hthrown, (ih _ hthrown).1 h⟩
    · intro ⟨hthrown, halong⟩
      exact (ih _ (hstep.trans hthrown)).2 halong

/-! ## At the end -/

theorem held_over (h : ∀ pc ∈ t, pc.works = false) : held t = 0 := by
  apply Multiset.eq_zero_of_forall_notMem
  intro r hr
  obtain ⟨j, pc, hj, hpc⟩ := Table.mem_total.1 hr
  rw [Pc.held_of_not_works (h pc (List.mem_of_getElem? hj))] at hpc
  exact Multiset.notMem_zero r hpc

/-- every CallMethod has ended or has been thrown away -/
theorem over_law (h : Books s) (hover : Over s) :
    (s.ended.map Prod.fst : Multiset ℕ) + s.dropped = Multiset.range s.next := by
  have hlaw := h.law
  rw [held_over hover.2, Connection.queued, h.closed hover.1, List.map_nil, Multiset.coe_nil, add_zero, add_zero] at hlaw
  exact hlaw

theorem over_iff (h : Books s) (hover : Over s) :
    (∀ r ∈ s.accepted, (s.ended.map Prod.fst).count r = 1) ↔ s.dropped = [] := by
  have hlaw := over_law h hover
  have hcount : ∀ r ∈ s.accepted, (s.ended.map Prod.fst).count r + s.dropped.count r = 1 := by
    intro r hr
    have hone := Multiset.count_eq_one_of_mem (Multiset.nodup_range s.next) (Multiset.mem_range.2 (h.accepted r hr))
    rw [← hlaw, Multiset.count_add, Multiset.coe_count, Multiset.coe_count] at hone
    exact hone
  constructor
  · intro hended
    apply List.eq_nil_iff_forall_not_mem.2
    intro r hr
    have hsum := hcount r (h.dropped r hr)
    have hpos := List.count_pos_iff.2 hr
    rw [hended r (h.dropped r hr)] at hsum
    omega
  · intro hdropped r hr
    have hsum := hcount r hr
    rw [hdropped, List.count_nil, add_zero] at hsum
    exact hsum

end

/-- **Accepted requests complete exactly once**: in every run at whose end the channel is closed and no worker runs, the
callback of each request that CallMethod has put into the channel has run exactly once, exactly if close has found the
channel empty. -/
theorem completed_iff (ls : List Label) (h : Over (Machine.run step start ls)) :
    (∀ r ∈ (Machine.run step start ls).accepted, ((Machine.run step start ls).ended.map Prod.fst).count r = 1) ↔
      Machine.Along step Emptied start ls := by
  have hbooks : Books (Machine.run step start ls) :=
    Machine.inv_run_of_step (I := Books) (fun _ l hs => step_books hs l) start_books _
  rw [← dropped_iff start rfl]
  exact over_iff hbooks h

/-- a worker takes the request of a call, writes it and reads; then the channel is closed -/
abbrev takenRun : List Label :=
  [.connect, .resume 0 awaited, .callMethod true, .workerLoop, .resume 1 awaited, .resume 1 awaited,
    .resume 1 awaited, .resume 1 awaited, .resume 1 awaited, .resume 1 awaited, .close, .resume 1 awaited]

theorem completed_iff_taken :
    (Machine.run step start takenRun).accepted = [0] ∧
      ∀ r ∈ (Machine.run step start takenRun).accepted,
        ((Machine.run step start takenRun).ended.map Prod.fst).count r = 1 :=
  ⟨by decide, (completed_iff takenRun ⟨by decide, by decide⟩).2
    ⟨nofun, nofun, nofun, nofun, nofun, nofun, nofun, nofun, nofun, nofun, fun _ _ => by decide, nofun, trivial⟩⟩

/-- a request that is queued when the channel is closed: its callback never runs -/
theorem close_loses :
    (Machine.run step start [.connect, .resume 0 awaited, .callMethod true, .close]).accepted = [0] ∧
      Over (Machine.run step start [.connect, .resume 0 awaited, .callMethod true, .close]) ∧
        (Machine.run step start [.connect, .resume 0 awaited, .callMethod true, .close]).ended = [] :=
  ⟨by decide, ⟨by decide, by decide⟩, by decide⟩

end Connection

end MCoroRpc
