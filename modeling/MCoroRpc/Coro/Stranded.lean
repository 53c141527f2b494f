/-
Who waits behind a close that has returned.

send and recv read the flag before they take the mutex for pushWriter and pushReader. An operation that has found the
flag set may come to its push behind cleanup, and then nobody takes it out of the lists again. A second close returns at
once, also before the cleanup of the first.

- `Op.Enqueues`: the next step of the operation puts it into a list.
- `none_left_iff`: nobody is left waiting behind a close that has returned, in every state of a run, exactly if no
  operation is put into a list behind one, and no second close returns while an operation waits.
-/
import MCoroRpc.Coro.Waiting

namespace MCoroRpc.Channel

variable {T : Type}

/-- a `close` has returned -/
def Closed (s : System T) : Prop := ∃ j : ℕ, s.ops[j]? = some ⟨.close, .done .returned⟩

/-- behind a close that has returned nobody waits -/
def NoneLeft (s : System T) : Prop :=
  Closed s → s.chan.writers = [] ∧ s.chan.readers = [] ∧ ∀ (k : ℕ) (call : Call T), s.ops[k]? ≠ some ⟨call, .waiting⟩

/-- the next step of the operation puts it into a list -/
inductive Op.Enqueues (c : Channel T) : Op T → Prop where
  | pushWriter {v : T} (hr : c.readers = []) (hle : c.capacity ≤ c.buffer.length) : Op.Enqueues c ⟨.send v, .push⟩
  | pushReader (hw : c.writers = []) (hb : c.buffer = []) : Op.Enqueues c ⟨.recv, .push⟩

/-- an operation that joins a list does so before a close has returned, and a close that finds the flag cleared finds
the lists empty -/
def InTime (s : System T) (l : Label T) : Prop :=
  ∀ (i : ℕ) (op : Op T), l = .go i → s.ops[i]? = some op →
    (op.Enqueues s.chan → ¬ Closed s) ∧
      (op = ⟨.close, .entry⟩ → s.chan.isActive = false → s.chan.writers = [] ∧ s.chan.readers = [])

section
variable {s s' : System T} {i : ℕ}

theorem noneLeft_of_linked (h : Linked s) (he : Closed s → s.chan.writers = [] ∧ s.chan.readers = []) : NoneLeft s := by
  intro hc
  obtain ⟨hw, hr⟩ := he hc
  refine ⟨hw, hr, ?_⟩
  intro k call hk
  have hmem := h.waits k call hk
  rw [awaiters, hw, hr] at hmem
  exact absurd hmem List.not_mem_nil

/-- a close returns behind its cleanup, or at once if it finds the flag cleared -/
theorem move_returns (h : Linked s) (hm : Move s i s') (hc : Closed s') :
    Closed s ∨ (s'.chan.writers = [] ∧ s'.chan.readers = []) ∨
      s.ops[i]? = some ⟨.close, .entry⟩ ∧ s.chan.isActive = false ∧ s'.chan = s.chan := by
  obtain ⟨j, hj⟩ := hc
  by_cases hji : j = i
  · subst hji
    cases hm with
    | idle => exact .inl ⟨j, hj⟩
    | own hop ho =>
      have hop' := (setPc_self hop).symm.trans hj
      cases ho with
      | closeAgain ha => exact .inr (.inr ⟨hop, ha, rfl⟩)
      | _ => cases hop'
    | handed hop hs hr =>
      have hop' := (setPc_self ((setPc_ne (h.front_reader hop hs.moves.1 hr).2).trans hop)).symm.trans hj
      cases hs <;> cases hop'
    | buffered hop hs hr hlt =>
      have hop' := (setPc_self hop).symm.trans hj
      cases hs <;> cases hop'
    | queued hop hr hle => cases (setPc_self hop).symm.trans hj
    | fromWriter hop hg hw =>
      have hop' := (setPc_self ((setPc_ne (h.front_writer hop hg.moves.1 hw).2).trans hop)).symm.trans hj
      cases hg <;> cases hop'
    | fromBuffer hop hg hw hb =>
      have hop' := (setPc_self hop).symm.trans hj
      cases hg <;> cases hop'
    | blocked hop hw hb => cases (setPc_self hop).symm.trans hj
    | closed hop ha => cases (setPc_self hop).symm.trans hj
    | cleared hop hcl => exact .inr (.inl hcl.moves.2)
  · rcases move_ne h hm hji with he | ⟨call, o, hop, hop', -, -⟩
    · exact .inl ⟨j, he.symm.trans hj⟩
    · obtain ⟨rfl, -⟩ : call = .close ∧ (Pc.done o : Pc T) = .done .returned := by
        cases hop'.symm.trans hj
        exact ⟨rfl, rfl⟩
      have hmem := h.waits j .close hop
      rcases List.mem_append.1 hmem with hmem | hmem
      · obtain ⟨w, hw, rfl⟩ := List.mem_map.1 hmem
        cases hop.symm.trans (h.writer w hw)
      · cases hop.symm.trans (h.reader j hmem)

/-- a step that puts nobody into a list leaves empty lists empty -/
theorem move_stays_empty (hm : Move s i s') (hno : ∀ op, s.ops[i]? = some op → ¬ op.Enqueues s.chan)
    (hw : s.chan.writers = []) (hr : s.chan.readers = []) : s'.chan.writers = [] ∧ s'.chan.readers = [] := by
  cases hm with
  | handed hop hs hr' => rw [hr'] at hr; cases hr
  | queued hop hr' hle => exact absurd (.pushWriter hr' hle) (hno _ hop)
  | fromWriter hop hg hw' => rw [hw'] at hw; cases hw
  | blocked hop hw' hb => exact absurd (.pushReader hw' hb) (hno _ hop)
  | cleared hop hc => exact hc.moves.2
  | _ => exact ⟨hw, hr⟩

theorem closed_start (call : Call T) (h : Closed { s with ops := s.ops ++ [⟨call, .entry⟩] }) : Closed s := by
  obtain ⟨j, hj⟩ := h
  rcases some_of_snoc hj with hj | ⟨-, hop⟩
  · exact ⟨j, hj⟩
  · cases hop

theorem step_noneLeft (h : Linked s) (hn : NoneLeft s) {l : Label T} (ht : InTime s l) : NoneLeft (s.step l) := by
  cases l with
  | start call =>
    apply noneLeft_of_linked (start_linked h call)
    intro hc
    obtain ⟨hw, hr, -⟩ := hn (closed_start call hc)
    exact ⟨hw, hr⟩
  | go i =>
    have hm := advance_move s i
    refine noneLeft_of_linked (move_linked h hm) ?_
    intro hc
    rcases move_returns h hm hc with hc | he | ⟨hop, ha, he⟩
    · obtain ⟨hw, hr, -⟩ := hn hc
      exact move_stays_empty hm (fun op hop hen => (ht i op rfl hop).1 hen hc) hw hr
    · exact he
    · rw [show (s.step (.go i)).chan = s.chan from he]
      exact (ht i _ rfl hop).2 rfl ha

theorem advance_enqueues {op : Op T} (hop : s.ops[i]? = some op) (hen : op.Enqueues s.chan) :
    (s.advance i).chan.writers ≠ [] ∨ (s.advance i).chan.readers ≠ [] := by
  cases hen with
  | pushWriter hr hle =>
    left
    simp [System.advance, hop, System.pushWriter, pushWriter_queued hr hle, System.put, System.moveTo]
  | pushReader hw hb =>
    right
    simp [System.advance, hop, System.pushReader, take_none hw hb, System.moveTo, enqueue]

/-- who joins a list late stays there, and who waits when a second close returns still waits then -/
theorem step_strands (h : Linked s) {l : Label T} (ht : ¬ InTime s l) : ¬ NoneLeft (s.step l) := by
  simp only [InTime, not_forall] at ht
  obtain ⟨i, op, rfl, hop, ht⟩ := ht
  have hm := advance_move s i
  intro hn
  rw [not_and_or] at ht
  rcases ht with ht | ht
  · obtain ⟨hen, ⟨j, hj⟩⟩ : op.Enqueues s.chan ∧ Closed s := by
      by_contra hcon
      exact ht fun hen hc => hcon ⟨hen, hc⟩
    obtain ⟨hw, hr, -⟩ := hn ⟨j, move_done h hm hj⟩
    rcases advance_enqueues hop hen with hne | hne
    · exact hne hw
    · exact hne hr
  · simp only [not_forall] at ht
    obtain ⟨rfl, ha, ht⟩ := ht
    have hstep : s.step (.go i) = s.finish i .returned := by
      simp [System.step, System.advance, hop, ha]
    rw [hstep] at hn
    obtain ⟨hw, hr, -⟩ := hn ⟨i, setPc_self hop⟩
    exact ht ⟨hw, hr⟩

end

/-- **No waiter is left**: nobody waits behind a close that has returned, in every state of a run, exactly if every
operation that joins a list does so before a close has returned, and no second close returns while someone waits -/
theorem none_left_iff (capacity : ℕ) (ls : List (Label T)) :
    (∀ n, NoneLeft (Machine.run System.step (init capacity) (ls.take n))) ↔
      Machine.Along System.step InTime (init capacity) ls := by
  refine Machine.along_iff (L := fun _ => True) (I := fun s => Linked s ∧ NoneLeft s) (fun _ h => h.2) ?_ ?_ ?_
    (fun _ _ => trivial)
  · intro s l _ ⟨h, hn⟩ ht
    refine ⟨?_, step_noneLeft h hn ht⟩
    cases l with
    | start call => exact start_linked h call
    | go i => exact move_linked h (advance_move s i)
  · intro s l _ ⟨h, _⟩ ht
    exact step_strands h ht
  · refine ⟨run_linked capacity [], ?_⟩
    intro ⟨j, hj⟩
    simp [init] at hj

/-- the receiver has found the flag set; close runs to its end, then pushReader -/
def late : List (Label ℕ) := [.start .recv, .go 0, .go 0, .start .close, .go 1, .go 1, .go 0]

theorem left_behind : ¬ ∀ n, NoneLeft (Machine.run System.step (init 0) (late.take n)) := by
  intro h
  obtain ⟨-, hr, -⟩ := h 7 ⟨1, rfl⟩
  cases hr

end MCoroRpc.Channel
