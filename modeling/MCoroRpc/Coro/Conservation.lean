/-
No value of an open Channel is lost, doubled or made up.

`accepted` is what the send and sendSync operations hold that have been accepted: completed, or suspended as a waiting
writer. `handed` is what the receiving operations hold that have ended with a value. Both are read off the table of
operations.

- `Conserves`: the accepted values are those handed over, those in the buffer and those of the waiting writers.
- `conservation`: so in every run of send, sendSync, recv and tryRecv.
-/
import MCoroRpc.Coro.Waiting
import MCoroRpc.Core.Table

namespace MCoroRpc.Channel

open Table

variable {T : Type}

/-- the value of the operation `i`, once it has been accepted -/
def Op.accepted (i : ℕ) : Op T → Multiset (Item T)
  | ⟨.send v, .waiting⟩ => {⟨i, v⟩}
  | ⟨.send v, .done .returned⟩ => {⟨i, v⟩}
  | ⟨.sendSync v, .done (.synced true)⟩ => {⟨i, v⟩}
  | _ => 0

/-- the value that the operation has ended with -/
def Op.handed : Op T → Multiset (Item T)
  | ⟨_, .done (.received x)⟩ => {x}
  | ⟨_, .done (.tried (some x))⟩ => {x}
  | _ => 0

def accepted (ops : List (Op T)) : Multiset (Item T) := total Op.accepted ops

def handed (ops : List (Op T)) : Multiset (Item T) := total (fun _ => Op.handed) ops

/-- a step of `i` that changes nothing but where `i` stands -/
def Unchanged (s : System T) (i : ℕ) (s' : System T) : Prop :=
  s'.chan = s.chan ∧ ∀ k, k ≠ i → s'.ops[k]? = s.ops[k]?

structure Conserves (s : System T) : Prop where
  law : accepted s.ops = handed s.ops + s.chan.buffer + s.chan.writers
  /-- the union is disjoint, as the accepted values are all different -/
  nodup : (accepted s.ops).Nodup
  /-- no value is handed to two receivers -/
  single : ∀ (k k' : ℕ) (op op' : Op T) (x : Item T), s.ops[k]? = some op → s.ops[k']? = some op' →
    x ∈ op.handed → x ∈ op'.handed → k = k'
  /-- a send that has completed has no value among the waiting writers -/
  completed : ∀ i v, s.ops[i]? = some ⟨.send v, .done .returned⟩ → ⟨i, v⟩ ∈ handed s.ops ∨ ⟨i, v⟩ ∈ s.chan.buffer
  failed : ∀ i call o, (s.advance i).ops[i]? = some ⟨call, .done o⟩ → o = .synced false ∨ o = .tried none →
    Unchanged s i (s.advance i)
  /-- blocked receivers are served in the order in which they have blocked -/
  order : s.blocked = s.served ++ s.chan.readers

/-- neither closes the channel nor cancels its waiters -/
def Label.Open : Label T → Prop
  | .start .close => False
  | .start .cancelAllAwaiters => False
  | _ => True

/-! ## What the operations hold -/

section
variable {ops : List (Op T)} {i k : ℕ} {call : Call T} {pc : Pc T} {f : ℕ → Op T → Multiset (Item T)}

theorem total_gain (pc' : Pc T) (hop : ops[i]? = some ⟨call, pc⟩) (h0 : f i ⟨call, pc⟩ = 0) :
    total f (setPc ops i pc') = total f ops + f i ⟨call, pc'⟩ := by
  have h := total_modify (f := f) (fun op => { op with pc := pc' }) hop
  rw [h0, add_zero] at h
  exact h

theorem total_same (pc' : Pc T) (hop : ops[i]? = some ⟨call, pc⟩) (h : f i ⟨call, pc'⟩ = f i ⟨call, pc⟩) :
    total f (setPc ops i pc') = total f ops := by
  have hm := total_modify (f := f) (fun op => { op with pc := pc' }) hop
  have hm' : total f (setPc ops i pc') + f i ⟨call, pc⟩ = total f ops + f i ⟨call, pc'⟩ := hm
  rw [h] at hm'
  exact add_right_cancel hm'

theorem Op.accepted_src {op : Op T} {x : Item T} (h : x ∈ op.accepted i) : x.src = i := by
  unfold Op.accepted at h
  split at h
  all_goals first
    | exact congrArg Item.src (Multiset.mem_singleton.1 h)
    | exact absurd h (Multiset.notMem_zero x)

theorem Op.accepted_nodup (op : Op T) : (op.accepted i).Nodup := by
  unfold Op.accepted
  split
  all_goals first
    | exact Multiset.nodup_singleton _
    | exact Multiset.nodup_zero

theorem accepted_nodup (ops : List (Op T)) : (accepted ops).Nodup :=
  nodup_total (fun _ op => op.accepted_nodup) fun _ _ _ _ _ hi hj =>
    (Op.accepted_src hi).symm.trans (Op.accepted_src hj)

end

section
variable {c c' : Channel T} {i : ℕ} {x : Item T} {v : T} {call : Call T} {pc pc' : Pc T} {o : Outcome T}
  {got : List (Item T)} {log : List ℕ}

theorem Own.accepted (hact : c.isActive = true) (h : Own c call pc pc') :
    Op.accepted i ⟨call, pc⟩ = 0 ∧ Op.accepted i ⟨call, pc'⟩ = 0 := by
  cases h with
  | sendClosed ha => rw [hact] at ha; cases ha
  | recvClosed ha => rw [hact] at ha; cases ha
  | sendSyncClosed ha => rw [hact] at ha; cases ha
  | closeAgain ha => rw [hact] at ha; cases ha
  | _ => exact ⟨rfl, rfl⟩

theorem Own.handed (h : Own c call pc pc') : Op.handed ⟨call, pc⟩ = 0 ∧ Op.handed ⟨call, pc'⟩ = 0 := by
  cases h <;> exact ⟨rfl, rfl⟩

theorem Sends.accepted (hact : c.isActive = true) (h : Sends c i call pc v o log) :
    Op.accepted i ⟨call, pc⟩ = 0 ∧ Op.accepted i ⟨call, .done o⟩ = {⟨i, v⟩} := by
  cases h with
  | send => exact ⟨rfl, rfl⟩
  | sendSync => exact ⟨rfl, rfl⟩
  | pushWriter => rw [hact]; exact ⟨rfl, rfl⟩

theorem Sends.handed (h : Sends c i call pc v o log) : Op.handed ⟨call, .done o⟩ = Op.handed ⟨call, pc⟩ := by
  cases h with
  | send => rfl
  | sendSync => rfl
  | pushWriter => cases c.isActive <;> rfl

theorem Gets.accepted (h : Gets c i x call pc o got log) {k : ℕ} :
    Op.accepted k ⟨call, .done o⟩ = Op.accepted k ⟨call, pc⟩ := by
  cases h with
  | recv => rfl
  | tryRecv => rfl
  | pushReader => cases c.isActive <;> rfl

theorem Gets.handed (hact : c.isActive = true) (h : Gets c i x call pc o got log) :
    Op.handed ⟨call, pc⟩ = 0 ∧ Op.handed ⟨call, .done o⟩ = {x} ∧ got = [x] := by
  cases h with
  | recv => exact ⟨rfl, rfl, rfl⟩
  | tryRecv => exact ⟨rfl, rfl, rfl⟩
  | pushReader => rw [hact]; exact ⟨rfl, rfl, rfl⟩

theorem Sends.not_failed (h : Sends c i call pc v o log) : o ≠ .synced false ∧ o ≠ .tried none := by
  cases h with
  | send => simp
  | sendSync => simp
  | pushWriter => cases c.isActive <;> simp [writerResume]

theorem Gets.not_failed (h : Gets c i x call pc o got log) : o ≠ .synced false ∧ o ≠ .tried none := by
  cases h with
  | recv => simp
  | tryRecv => simp
  | pushReader => cases c.isActive <;> simp [readerResume]

end

/-! ## The law -/

/-- what holds of an open channel and its operations -/
structure Law (s : System T) : Prop where
  linked : Linked s
  isActive : s.chan.isActive = true
  calls : ∀ (k : ℕ) (op : Op T), s.ops[k]? = some op → op.call ≠ .close ∧ op.call ≠ .cancelAllAwaiters
  law : accepted s.ops = handed s.ops + s.chan.buffer + s.chan.writers
  order : s.blocked = s.served ++ s.chan.readers
  /-- the books agree with the operations -/
  effects : (s.effects : Multiset (Item T)) = accepted s.ops
  obtained : (s.obtained : Multiset (Item T)) = handed s.ops

section
variable {s s' : System T} {i k : ℕ}

variable {c : Channel T} {ops : List (Op T)} {call : Call T} {pc : Pc T} {v : T} {o : Outcome T} {x w : Item T}
  {got : List (Item T)} {log : List ℕ}

/-- the value of `i` is accepted -/
theorem totals_sent (hact : c.isActive = true) (hop : ops[i]? = some ⟨call, pc⟩) (hs : Sends c i call pc v o log) :
    accepted (setPc ops i (.done o)) = accepted ops + {⟨i, v⟩} ∧ handed (setPc ops i (.done o)) = handed ops := by
  obtain ⟨h0, h1⟩ := hs.accepted hact
  refine ⟨?_, total_same _ hop hs.handed⟩
  rw [accepted, accepted, total_gain _ hop h0, h1]

theorem totals_queued (hop : ops[i]? = some ⟨.send v, .push⟩) :
    accepted (setPc ops i .waiting) = accepted ops + {⟨i, v⟩} ∧ handed (setPc ops i .waiting) = handed ops :=
  ⟨total_gain .waiting hop rfl, total_same .waiting hop rfl⟩

theorem totals_blocked (hop : ops[i]? = some ⟨.recv, .push⟩) :
    accepted (setPc ops i .waiting) = accepted ops ∧ handed (setPc ops i .waiting) = handed ops :=
  ⟨total_same .waiting hop rfl, total_same .waiting hop rfl⟩

/-- the value `x` is handed to `i` -/
theorem totals_got (hact : c.isActive = true) (hop : ops[i]? = some ⟨call, pc⟩) (hg : Gets c i x call pc o got log) :
    accepted (setPc ops i (.done o)) = accepted ops ∧ handed (setPc ops i (.done o)) = handed ops + {x} := by
  obtain ⟨h0, h1, -⟩ := hg.handed hact
  refine ⟨total_same _ hop hg.accepted, ?_⟩
  rw [handed, handed, total_gain _ hop h0, h1]

/-- the waiting reader `k` is resumed with `x` -/
theorem totals_reader (hact : c.isActive = true) (hop : ops[k]? = some ⟨.recv, .waiting⟩) :
    accepted (setPc ops k (.done (readerResume c.isActive x))) = accepted ops ∧
      handed (setPc ops k (.done (readerResume c.isActive x))) = handed ops + {x} := by
  rw [hact]
  exact ⟨total_same (.done (.received x)) hop rfl, total_gain (.done (.received x)) hop rfl⟩

/-- the waiting writer `w` is resumed -/
theorem totals_writer (hact : c.isActive = true) (hop : ops[w.src]? = some ⟨.send w.val, .waiting⟩) :
    accepted (setPc ops w.src (.done (writerResume c.isActive))) = accepted ops ∧
      handed (setPc ops w.src (.done (writerResume c.isActive))) = handed ops := by
  rw [hact]
  exact ⟨total_same (.done .returned) hop rfl, total_same (.done .returned) hop rfl⟩

/-- the operations stay what they are -/
theorem Law.move_calls (h : Law s) (hm : Move s i s') {k : ℕ} (op : Op T) (hop : s'.ops[k]? = some op) :
    op.call ≠ .close ∧ op.call ≠ .cancelAllAwaiters := by
  obtain ⟨op', hop', he⟩ := move_call h.linked hm hop
  rw [← he]
  exact h.calls k op' hop'

theorem coe_snoc (l : List (Item T)) (x : Item T) : ((l ++ [x] : List (Item T)) : Multiset (Item T)) = l + {x} := by
  rw [← Multiset.coe_add, Multiset.coe_singleton]

/-- **Conservation**: one step -/
theorem move_law (h : Law s) (hm : Move s i s') : Law s' := by
  have hl := move_linked h.linked hm
  have hact := h.isActive
  have hlaw := h.law
  have hcalls := fun k => h.move_calls hm (k := k)
  cases hm with
  | idle => exact h
  | own hop ho =>
    obtain ⟨ha, ha'⟩ := ho.accepted (i := i) hact
    obtain ⟨hh, hh'⟩ := ho.handed
    have hacc : accepted (setPc s.ops i _) = accepted s.ops := total_same _ hop (ha'.trans ha.symm)
    have hhand : handed (setPc s.ops i _) = handed s.ops := total_same _ hop (hh'.trans hh.symm)
    refine ⟨hl, hact, hcalls, ?_, h.order, h.effects.trans hacc.symm, h.obtained.trans hhand.symm⟩
    rw [hacc, hhand]
    exact hlaw
  | @handed _ _ v _ _ _ _ hop hs hr =>
    obtain ⟨hopr, hne⟩ := h.linked.front_reader hop hs.moves.1 hr
    obtain ⟨ha, hh⟩ := totals_reader hact hopr
    obtain ⟨ha', hh'⟩ := totals_sent hact ((setPc_ne hne).trans hop) hs
    refine ⟨hl, hact, hcalls, ?_, ?_, ?_, ?_⟩
    · calc _ = accepted s.ops + {⟨i, v⟩} := by rw [ha', ha]
        _ = handed s.ops + s.chan.buffer + s.chan.writers + {⟨i, v⟩} := by rw [hlaw]
        _ = handed s.ops + {⟨i, v⟩} + s.chan.buffer + s.chan.writers := by abel
        _ = _ := by rw [hh', hh]
    · have := h.order
      rw [hr] at this
      simp [this]
    · rw [ha', ha, ← h.effects, coe_snoc]
    · rw [hh', hh, ← h.obtained, hact, kept, if_pos rfl, coe_snoc]
  | @buffered _ _ v _ _ hop hs hr hlt =>
    obtain ⟨ha, hh⟩ := totals_sent hact hop hs
    refine ⟨hl, hact, hcalls, ?_, h.order, ?_, h.obtained.trans hh.symm⟩
    · calc _ = accepted s.ops + {⟨i, v⟩} := ha
        _ = handed s.ops + s.chan.buffer + s.chan.writers + {⟨i, v⟩} := by rw [hlaw]
        _ = handed s.ops + (s.chan.buffer + {⟨i, v⟩}) + s.chan.writers := by abel
        _ = _ := by rw [hh, coe_snoc]
    · rw [ha, ← h.effects, coe_snoc]
  | @queued v hop hr hle =>
    obtain ⟨ha, hh⟩ := totals_queued hop
    refine ⟨hl, hact, hcalls, ?_, h.order, ?_, h.obtained.trans hh.symm⟩
    · calc _ = accepted s.ops + {⟨i, v⟩} := ha
        _ = handed s.ops + s.chan.buffer + s.chan.writers + {⟨i, v⟩} := by rw [hlaw]
        _ = handed s.ops + s.chan.buffer + (s.chan.writers + {⟨i, v⟩}) := by abel
        _ = _ := by rw [hh, coe_snoc]
    · rw [ha, ← h.effects, coe_snoc]
  | @fromWriter _ _ _ _ _ w ws hop hg hw =>
    obtain ⟨hopw, hne⟩ := h.linked.front_writer hop hg.moves.1 hw
    obtain ⟨ha, hh⟩ := totals_writer hact hopw
    obtain ⟨ha', hh'⟩ := totals_got hact ((setPc_ne hne).trans hop) hg
    refine ⟨hl, hact, hcalls, ?_, h.order, h.effects.trans (ha'.trans ha).symm, ?_⟩
    · rw [hw, ← Multiset.cons_coe, ← Multiset.singleton_add] at hlaw
      calc _ = accepted s.ops := by rw [ha', ha]
        _ = handed s.ops + s.chan.buffer + ({w} + ws) := hlaw
        _ = handed s.ops + {w} + s.chan.buffer + ws := by abel
        _ = _ := by rw [hh', hh]
    · rw [hh', hh, ← h.obtained, (hg.handed hact).2.2, coe_snoc]
  | @fromBuffer _ _ _ _ _ x xs hop hg hw hb =>
    obtain ⟨ha, hh⟩ := totals_got hact hop hg
    refine ⟨hl, hact, hcalls, ?_, h.order, h.effects.trans ha.symm, ?_⟩
    · rw [hb, ← Multiset.cons_coe, ← Multiset.singleton_add] at hlaw
      calc _ = accepted s.ops := ha
        _ = handed s.ops + ({x} + xs) + s.chan.writers := hlaw
        _ = handed s.ops + {x} + xs + s.chan.writers := by abel
        _ = _ := by rw [hh]
    · rw [hh, ← h.obtained, (hg.handed hact).2.2, coe_snoc]
  | blocked hop hw hb =>
    obtain ⟨ha, hh⟩ := totals_blocked hop
    refine ⟨hl, hact, hcalls, ?_, ?_, h.effects.trans ha.symm, h.obtained.trans hh.symm⟩
    · rw [ha, hh]
      exact hlaw
    · simp [h.order, enqueue]
  | closed hop ha => exact absurd rfl (h.calls i _ hop).1
  | cleared hop hc =>
    cases hc with
    | cancelAllAwaiters => exact absurd rfl (h.calls i _ hop).2
    | cleanup => exact absurd rfl (h.calls i _ hop).1

theorem start_law (h : Law s) {call : Call T} (hcall : call ≠ .close ∧ call ≠ .cancelAllAwaiters) :
    Law { s with ops := s.ops ++ [⟨call, .entry⟩] } := by
  have ha : accepted (s.ops ++ [⟨call, .entry⟩]) = accepted s.ops := by
    have h0 : Op.accepted s.ops.length (⟨call, .entry⟩ : Op T) = 0 := by cases call <;> rfl
    rw [accepted, total_snoc, h0, add_zero, accepted]
  have hh : handed (s.ops ++ [⟨call, .entry⟩]) = handed s.ops := by
    have h0 : Op.handed (⟨call, .entry⟩ : Op T) = 0 := by cases call <;> rfl
    rw [handed, total_snoc, h0, add_zero, handed]
  refine ⟨start_linked h.linked call, h.isActive, ?_, ?_, h.order, h.effects.trans ha.symm,
    h.obtained.trans hh.symm⟩
  · intro k op hop
    rcases some_of_snoc hop with hop | ⟨-, rfl⟩
    · exact h.calls k op hop
    · exact hcall
  · rw [ha, hh]
    exact h.law

theorem step_law (h : Law s) {l : Label T} (hl : l.Open) : Law (s.step l) := by
  cases l with
  | start call =>
    refine start_law h ⟨?_, ?_⟩
    all_goals
      rintro rfl
      exact hl
  | go i => exact move_law h (advance_move s i)

theorem run_law (capacity : ℕ) {ls : List (Label T)} (h : ∀ l ∈ ls, l.Open) :
    Law (Machine.run System.step (init capacity) ls) := by
  apply Machine.inv_run (I := Law) (fun s l hl hs => step_law hs hl) (Machine.along_of_mem h _)
  exact ⟨run_linked capacity [], rfl, fun k op hop => by simp [init] at hop, rfl, rfl, rfl, rfl⟩

/-- an operation that ends without success has changed nothing -/
theorem move_failed (hm : Move s i s') (hop' : s'.ops[i]? = some ⟨call, .done o⟩)
    (ho : o = .synced false ∨ o = .tried none) : Unchanged s i s' := by
  have hend : ∀ {ops : List (Op T)} {pc : Pc T}, (setPc ops i pc)[i]? = some ⟨call, .done o⟩ → pc = .done o :=
    fun h => (setPc_pc h).symm
  have hfail : ∀ {ops : List (Op T)} {o' : Outcome T}, o' ≠ .synced false ∧ o' ≠ .tried none →
      (setPc ops i (.done o'))[i]? ≠ some ⟨call, .done o⟩ := by
    intro ops o' ⟨h1, h2⟩ he
    have he' : o' = o := Pc.done.inj (hend he)
    rw [he'] at h1 h2
    exact ho.elim h1 h2
  cases hm with
  | idle => exact ⟨rfl, fun _ _ => rfl⟩
  | own hop hown => exact ⟨rfl, fun k hk => setPc_ne hk⟩
  | handed hop hs hr => exact absurd hop' (hfail hs.not_failed)
  | buffered hop hs hr hlt => exact absurd hop' (hfail hs.not_failed)
  | queued hop hr hle => exact absurd (hend hop') (by simp)
  | fromWriter hop hg hw => exact absurd hop' (hfail hg.not_failed)
  | fromBuffer hop hg hw hb => exact absurd hop' (hfail hg.not_failed)
  | blocked hop hw hb => exact absurd (hend hop') (by simp)
  | closed hop ha => exact absurd (hend hop') (by simp)
  | cleared hop hc => exact absurd hop' (hfail (by simp))

theorem Law.conserves (h : Law s) : Conserves s where
  law := h.law
  nodup := accepted_nodup s.ops
  single k k' op op' x hk hk' hx hx' := by
    have hle : handed s.ops ≤ accepted s.ops := by
      rw [h.law, add_assoc]
      exact Multiset.le_add_right _ _
    exact total_unique (f := fun _ => Op.handed) (Multiset.nodup_of_le hle (accepted_nodup s.ops)) hk hk' hx hx'
  completed i v hop := by
    have hacc : (⟨i, v⟩ : Item T) ∈ accepted s.ops := mem_total.2 ⟨i, _, hop, Multiset.mem_singleton_self _⟩
    rw [h.law, Multiset.mem_add, Multiset.mem_add] at hacc
    rcases hacc with (hh | hb) | hw
    · exact .inl hh
    · exact .inr (Multiset.mem_coe.1 hb)
    · have hwait := h.linked.writer _ (Multiset.mem_coe.1 hw)
      rw [hop] at hwait
      exact absurd (congrArg Op.pc (Option.some.inj hwait)) (by simp)
  failed i call o hop ho := move_failed (advance_move s i) hop ho
  order := h.order

/-- **Conservation**: in every run of send, sendSync, recv and tryRecv -/
theorem conservation (capacity : ℕ) {ls : List (Label T)} (h : ∀ l ∈ ls, l.Open) :
    Conserves (Machine.run System.step (init capacity) ls) :=
  (run_law capacity h).conserves

/-- a value is sent into the buffer and received -/
theorem conservation_send_recv : Conserves (Machine.run System.step (init 1)
    [.start (.send 7), .go 0, .go 0, .start .recv, .go 1] : System ℕ) :=
  conservation 1 (by simp [Label.Open])

end

end MCoroRpc.Channel
