/-
Who waits in the lists of a Channel.

- `Linked`: the lists hold the suspended operations, all of them, each once.
- `Once`: an operation is resumed once at most, and is at its end then.
- `move_done`: an operation that has ended stays so.
-/
import MCoroRpc.Coro.Operations

namespace MCoroRpc.Channel

variable {T : Type}

/-! ## The table of operations -/

section
variable {ops : List (Op T)} {i k : ℕ} {call : Call T} {pc pc' : Pc T} {ids : List ℕ}

theorem getElem?_setPc : (setPc ops i pc)[k]? =
    if i = k then ops[k]?.map fun op => { op with pc := pc } else ops[k]? := by
  rw [setPc, List.getElem?_modify]
  split_ifs <;> simp

theorem setPc_self (h : ops[i]? = some ⟨call, pc⟩) : (setPc ops i pc')[i]? = some ⟨call, pc'⟩ := by
  rw [getElem?_setPc, if_pos rfl, h, Option.map_some]

theorem setPc_ne (h : k ≠ i) : (setPc ops i pc)[k]? = ops[k]? := by
  rw [getElem?_setPc, if_neg (Ne.symm h)]

theorem setPc_pc {op : Op T} (h : (setPc ops i pc)[i]? = some op) : op.pc = pc := by
  rw [getElem?_setPc, if_pos rfl] at h
  obtain ⟨op', -, rfl⟩ := Option.map_eq_some_iff.1 h
  rfl

theorem length_setPc : (setPc ops i pc).length = ops.length := by
  rw [setPc, List.length_modify]

theorem setPc_waiting (hpc : pc ≠ .waiting) (h : (setPc ops i pc)[k]? = some ⟨call, .waiting⟩) :
    k ≠ i ∧ ops[k]? = some ⟨call, .waiting⟩ := by
  by_cases hk : i = k
  · rw [getElem?_setPc, if_pos hk] at h
    obtain ⟨op, -, hop⟩ := Option.map_eq_some_iff.1 h
    exact absurd (congrArg Op.pc hop) hpc
  · rw [getElem?_setPc, if_neg hk] at h
    exact ⟨Ne.symm hk, h⟩

theorem getElem?_cancelOps : (cancelOps ops ids)[k]? =
    if k ∈ ids then ops[k]?.map fun op => { op with pc := .done .cancelledException } else ops[k]? := by
  induction ids generalizing ops with
  | nil => rfl
  | cons j ids ih =>
    have hcons : cancelOps ops (j :: ids) = cancelOps (setPc ops j (.done .cancelledException)) ids := rfl
    rw [hcons, ih, getElem?_setPc]
    by_cases hj : j = k
    · subst hj
      cases ops[j]? <;> simp
    · simp [hj, Ne.symm hj]

theorem cancelOps_not_mem (h : k ∉ ids) : (cancelOps ops ids)[k]? = ops[k]? := by
  rw [getElem?_cancelOps, if_neg h]

theorem cancelOps_mem (h : k ∈ ids) (hop : ops[k]? = some ⟨call, pc⟩) :
    (cancelOps ops ids)[k]? = some ⟨call, .done .cancelledException⟩ := by
  rw [getElem?_cancelOps, if_pos h, hop, Option.map_some]

theorem cancelOps_waiting (h : (cancelOps ops ids)[k]? = some ⟨call, .waiting⟩) :
    k ∉ ids ∧ ops[k]? = some ⟨call, .waiting⟩ := by
  by_cases hk : k ∈ ids
  · rw [getElem?_cancelOps, if_pos hk] at h
    obtain ⟨op, -, hop⟩ := Option.map_eq_some_iff.1 h
    exact absurd (congrArg Op.pc hop) (by simp)
  · rw [cancelOps_not_mem hk] at h
    exact ⟨hk, h⟩

end

/-- an operation that takes a step is neither suspended nor at its end -/
def Pc.Moves (pc : Pc T) : Prop := pc ≠ .waiting ∧ ∀ o, pc ≠ .done o

section
variable {c c' : Channel T} {i : ℕ} {x : Item T} {v : T} {call : Call T} {pc pc' : Pc T} {o : Outcome T}
  {got : List (Item T)} {log : List ℕ}

theorem Own.moves (h : Own c call pc pc') : pc.Moves ∧ pc' ≠ .waiting := by
  cases h <;> exact ⟨⟨by simp, by simp⟩, by simp⟩

theorem Sends.moves (h : Sends c i call pc v o log) : pc.Moves ∧ (log = [] ∨ log = [i]) := by
  cases h <;> exact ⟨⟨by simp, by simp⟩, by simp⟩

theorem Gets.moves (h : Gets c i x call pc o got log) : pc.Moves ∧ (log = [] ∨ log = [i]) := by
  cases h <;> exact ⟨⟨by simp, by simp⟩, by simp⟩

theorem Clears.moves (h : Clears c call pc c') : pc.Moves ∧ c'.writers = [] ∧ c'.readers = [] := by
  cases h <;> exact ⟨⟨by simp, by simp⟩, rfl, rfl⟩

end

/-! ## The lists and the operations -/

structure Linked (s : System T) : Prop where
  writer : ∀ w ∈ s.chan.writers, s.ops[w.src]? = some ⟨.send w.val, .waiting⟩
  reader : ∀ r ∈ s.chan.readers, s.ops[r]? = some ⟨.recv, .waiting⟩
  waits : ∀ k call, s.ops[k]? = some ⟨call, .waiting⟩ → k ∈ s.chan.awaiters
  nodup : s.chan.awaiters.Nodup

section
variable {s s' : System T} {i k : ℕ} {call : Call T} {pc : Pc T}

theorem Linked.waiting (h : Linked s) (hk : k ∈ s.chan.awaiters) : ∃ call, s.ops[k]? = some ⟨call, .waiting⟩ := by
  rcases List.mem_append.1 hk with hk | hk
  · obtain ⟨w, hw, rfl⟩ := List.mem_map.1 hk
    exact ⟨_, h.writer w hw⟩
  · exact ⟨_, h.reader k hk⟩

/-- who takes a step is in no list -/
theorem Linked.not_mem (h : Linked s) (hop : s.ops[i]? = some ⟨call, pc⟩) (hpc : pc.Moves) : i ∉ s.chan.awaiters := by
  intro hi
  obtain ⟨call', hw⟩ := h.waiting hi
  rw [hop] at hw
  exact hpc.1 (congrArg Op.pc (Option.some.inj hw))

/-- the front reader is another one -/
theorem Linked.front_reader (h : Linked s) (hop : s.ops[i]? = some ⟨call, pc⟩) (hpc : pc.Moves) {r : ℕ} {rs : List ℕ}
    (hr : s.chan.readers = r :: rs) : s.ops[r]? = some ⟨.recv, .waiting⟩ ∧ i ≠ r := by
  have hmem : r ∈ s.chan.readers := by rw [hr]; exact List.mem_cons_self
  exact ⟨h.reader r hmem, fun he => h.not_mem hop hpc (List.mem_append_right _ (he ▸ hmem))⟩

/-- the front writer is another one -/
theorem Linked.front_writer (h : Linked s) (hop : s.ops[i]? = some ⟨call, pc⟩) (hpc : pc.Moves) {w : Item T}
    {ws : List (Item T)} (hw : s.chan.writers = w :: ws) :
    s.ops[w.src]? = some ⟨.send w.val, .waiting⟩ ∧ i ≠ w.src := by
  have hmem : w ∈ s.chan.writers := by rw [hw]; exact List.mem_cons_self
  exact ⟨h.writer w hmem, fun he => h.not_mem hop hpc (List.mem_append_left _ (he ▸ List.mem_map_of_mem hmem))⟩

/-- a step that takes some operations out of the lists and out of their suspension -/
theorem Linked.shrink (h : Linked s) (hw : s'.chan.writers.Sublist s.chan.writers)
    (hr : s'.chan.readers.Sublist s.chan.readers) (hkeep : ∀ k ∈ s'.chan.awaiters, s'.ops[k]? = s.ops[k]?)
    (hgone : ∀ k call, s'.ops[k]? = some ⟨call, .waiting⟩ →
      s.ops[k]? = some ⟨call, .waiting⟩ ∧ (k ∈ s.chan.awaiters → k ∈ s'.chan.awaiters)) : Linked s' where
  writer w hmem := by
    rw [hkeep w.src (List.mem_append_left _ (List.mem_map_of_mem hmem))]
    exact h.writer w (hw.subset hmem)
  reader r hmem := by
    rw [hkeep r (List.mem_append_right _ hmem)]
    exact h.reader r (hr.subset hmem)
  waits k call hop := by
    obtain ⟨h1, h2⟩ := hgone k call hop
    exact h2 (h.waits k call h1)
  nodup := h.nodup.sublist ((hw.map Item.src).append hr)

/-- a step of the operation `i` that leaves the lists alone -/
theorem Linked.own (h : Linked s) (hop : s.ops[i]? = some ⟨call, pc⟩) (hpc : pc.Moves) {pc' : Pc T}
    (hpc' : pc' ≠ .waiting) (hw : s'.chan.writers = s.chan.writers) (hr : s'.chan.readers = s.chan.readers)
    (hops : s'.ops = setPc s.ops i pc') : Linked s' := by
  have haw : s'.chan.awaiters = s.chan.awaiters := by rw [awaiters, awaiters, hw, hr]
  refine h.shrink (by rw [hw]) (by rw [hr]) (?_) ?_
  · intro k hk
    rw [hops]
    refine setPc_ne fun he => h.not_mem hop hpc ?_
    rw [← he, ← haw]
    exact hk
  · intro k call' hk
    rw [hops] at hk
    exact ⟨(setPc_waiting hpc' hk).2, fun hmem => by rw [haw]; exact hmem⟩

/-- the suspended operation `r` leaves the lists and its suspension, then `i` goes on -/
theorem Linked.wake (h : Linked s) (hop : s.ops[i]? = some ⟨call, pc⟩) (hpc : pc.Moves) {pc1 pc2 : Pc T}
    (h1 : pc1 ≠ .waiting) (h2 : pc2 ≠ .waiting) {r : ℕ} (hw : s'.chan.writers.Sublist s.chan.writers)
    (hr : s'.chan.readers.Sublist s.chan.readers) (hmem : ∀ k, k ∈ s'.chan.awaiters ↔ k ∈ s.chan.awaiters ∧ k ≠ r)
    (hops : s'.ops = setPc (setPc s.ops r pc1) i pc2) : Linked s' := by
  refine h.shrink hw hr (?_) ?_
  · intro k hk
    obtain ⟨hk1, hk2⟩ := (hmem k).1 hk
    have hki : k ≠ i := fun he => h.not_mem hop hpc (by rw [← he]; exact hk1)
    rw [hops, setPc_ne hki, setPc_ne hk2]
  · intro k call' hk
    rw [hops] at hk
    obtain ⟨-, hk⟩ := setPc_waiting h2 hk
    obtain ⟨hkr, hk⟩ := setPc_waiting h1 hk
    exact ⟨hk, fun hk' => (hmem k).2 ⟨hk', hkr⟩⟩

theorem mem_awaiters_reader {r : ℕ} {rs : List ℕ} (h : s.chan.awaiters.Nodup) (hr : s.chan.readers = r :: rs) (k : ℕ) :
    k ∈ ({ s.chan with readers := rs } : Channel T).awaiters ↔ k ∈ s.chan.awaiters ∧ k ≠ r := by
  have hsplit : s.chan.awaiters = s.chan.writers.map Item.src ++ r :: rs := by rw [awaiters, hr]
  rw [hsplit] at h ⊢
  have hne := (List.nodup_middle.1 h).notMem
  simp only [awaiters]
  constructor
  · intro hk
    refine ⟨?_, fun he => hne (he ▸ hk)⟩
    rcases List.mem_append.1 hk with hk | hk
    · exact List.mem_append_left _ hk
    · exact List.mem_append_right _ (List.mem_cons_of_mem r hk)
  · intro ⟨hk, hkr⟩
    rcases List.mem_append.1 hk with hk | hk
    · exact List.mem_append_left _ hk
    · exact List.mem_append_right _ ((List.mem_cons.1 hk).resolve_left hkr)

theorem mem_awaiters_writer {w : Item T} {ws : List (Item T)} (h : s.chan.awaiters.Nodup) (hw : s.chan.writers = w :: ws)
    (k : ℕ) : k ∈ ({ s.chan with writers := ws } : Channel T).awaiters ↔ k ∈ s.chan.awaiters ∧ k ≠ w.src := by
  have hsplit : s.chan.awaiters = w.src :: (ws.map Item.src ++ s.chan.readers) := by rw [awaiters, hw]; rfl
  rw [hsplit] at h ⊢
  have hne := h.notMem
  simp only [awaiters]
  constructor
  · intro hk
    exact ⟨List.mem_cons_of_mem _ hk, fun he => hne (he ▸ hk)⟩
  · intro ⟨hk, hkw⟩
    exact (List.mem_cons.1 hk).resolve_left hkw

/-- `i` suspends itself and is put into one of the lists -/
theorem Linked.suspend (h : Linked s) (hop : s.ops[i]? = some ⟨call, pc⟩) (hpc : pc.Moves)
    (hw : ∀ w ∈ s'.chan.writers, w ∈ s.chan.writers ∨ w.src = i ∧ call = .send w.val)
    (hr : ∀ r ∈ s'.chan.readers, r ∈ s.chan.readers ∨ r = i ∧ call = .recv)
    (haw : s'.chan.awaiters.Perm (i :: s.chan.awaiters)) (hops : s'.ops = setPc s.ops i .waiting) : Linked s' := by
  have hi := h.not_mem hop hpc
  have hne : ∀ k ∈ s.chan.awaiters, s'.ops[k]? = s.ops[k]? := fun k hk => by
    rw [hops, setPc_ne fun he => hi (by rw [← he]; exact hk)]
  refine ⟨?_, ?_, ?_, haw.nodup_iff.2 (List.nodup_cons.2 ⟨hi, h.nodup⟩)⟩
  · intro w hmem
    rcases hw w hmem with hmem | ⟨hsrc, hcall⟩
    · rw [hne w.src (List.mem_append_left _ (List.mem_map_of_mem hmem))]
      exact h.writer w hmem
    · rw [hsrc, hops, ← hcall]
      exact setPc_self hop
  · intro r hmem
    rcases hr r hmem with hmem | ⟨hri, hcall⟩
    · rw [hne r (List.mem_append_right _ hmem)]
      exact h.reader r hmem
    · rw [hri, hops, ← hcall]
      exact setPc_self hop
  · intro k call hk
    rw [haw.mem_iff]
    by_cases hki : k = i
    · exact List.mem_cons.2 (.inl hki)
    · rw [hops, setPc_ne hki] at hk
      exact List.mem_cons_of_mem i (h.waits k call hk)

theorem Linked.queued (h : Linked s) {v : T} (hop : s.ops[i]? = some ⟨.send v, .push⟩)
    (hw : s'.chan.writers = s.chan.writers ++ [⟨i, v⟩]) (hr : s'.chan.readers = s.chan.readers)
    (hops : s'.ops = setPc s.ops i .waiting) : Linked s' := by
  refine h.suspend hop ⟨by simp, by simp⟩ (?_) (fun r hmem => .inl (hr ▸ hmem)) ?_ hops
  · intro w hmem
    rw [hw] at hmem
    rcases List.mem_append.1 hmem with hmem | hmem
    · exact .inl hmem
    · rw [List.mem_singleton.1 hmem]
      exact .inr ⟨rfl, rfl⟩
  · rw [awaiters, hw, hr, List.map_append, List.append_assoc]
    exact List.perm_middle

theorem Linked.blocked (h : Linked s) (hop : s.ops[i]? = some ⟨.recv, .push⟩)
    (hw : s'.chan.writers = s.chan.writers) (hr : s'.chan.readers = s.chan.readers ++ [i])
    (hops : s'.ops = setPc s.ops i .waiting) : Linked s' := by
  refine h.suspend hop ⟨by simp, by simp⟩ (fun w hmem => .inl (hw ▸ hmem)) (?_) ?_ hops
  · intro r hmem
    rw [hr] at hmem
    rcases List.mem_append.1 hmem with hmem | hmem
    · exact .inl hmem
    · exact .inr ⟨List.mem_singleton.1 hmem, rfl⟩
  · rw [awaiters, hw, hr, ← List.append_assoc]
    exact List.perm_append_comm

/-- all suspended operations leave the lists, then `i` goes on -/
theorem Linked.cleared (h : Linked s) (hw : s'.chan.writers = []) (hr : s'.chan.readers = []) {pc' : Pc T}
    (hpc' : pc' ≠ .waiting) (hops : s'.ops = setPc (cancelOps s.ops s.chan.awaiters) i pc') : Linked s' := by
  have haw : s'.chan.awaiters = [] := by rw [awaiters, hw, hr]; rfl
  refine h.shrink (by rw [hw]; exact List.nil_sublist _) (by rw [hr]; exact List.nil_sublist _) (?_)
    ?_
  · intro k hk
    rw [haw] at hk
    cases hk
  · intro k call hk
    rw [hops] at hk
    obtain ⟨hnot, hk⟩ := cancelOps_waiting (setPc_waiting hpc' hk).2
    exact absurd (h.waits k call hk) hnot

theorem move_linked (h : Linked s) (hm : Move s i s') : Linked s' := by
  cases hm with
  | idle => exact h
  | own hop ho => exact h.own hop ho.moves.1 ho.moves.2 rfl rfl rfl
  | handed hop hs hr =>
    exact h.wake hop hs.moves.1 (by simp) (by simp) (List.Sublist.refl _) (by rw [hr]; exact List.sublist_cons_self _ _)
      (mem_awaiters_reader h.nodup hr) rfl
  | buffered hop hs hr hlt => exact h.own hop hs.moves.1 (by simp) rfl rfl rfl
  | queued hop hr hle => exact h.queued hop rfl rfl rfl
  | fromWriter hop hg hw =>
    exact h.wake hop hg.moves.1 (by simp) (by simp) (by rw [hw]; exact List.sublist_cons_self _ _) (List.Sublist.refl _)
      (mem_awaiters_writer h.nodup hw) rfl
  | fromBuffer hop hg hw hb => exact h.own hop hg.moves.1 (by simp) rfl rfl rfl
  | blocked hop hw hb => exact h.blocked hop rfl rfl rfl
  | closed hop ha => exact h.own hop ⟨by simp, by simp⟩ (by simp) rfl rfl rfl
  | cleared hop hc => exact h.cleared hc.moves.2.1 hc.moves.2.2 (by simp) rfl

/-! ## A start -/

theorem snoc_of_some {ops : List (Op T)} {op op' : Op T} (h : ops[k]? = some op) : (ops ++ [op'])[k]? = some op := by
  rw [List.getElem?_append_left (List.getElem?_eq_some_iff.1 h).1, h]

theorem some_of_snoc {ops : List (Op T)} {op op' : Op T} (h : (ops ++ [op'])[k]? = some op) :
    ops[k]? = some op ∨ k = ops.length ∧ op = op' := by
  rcases lt_or_ge k ops.length with hlt | hge
  · rw [List.getElem?_append_left hlt] at h
    exact .inl h
  · rw [List.getElem?_append_right hge] at h
    obtain ⟨hlt, hop⟩ := List.getElem?_eq_some_iff.1 h
    have hk : k - ops.length = 0 := by simpa using hlt
    simp only [hk, List.getElem_cons_zero] at hop
    exact .inr ⟨by omega, hop.symm⟩

theorem start_linked (h : Linked s) (call : Call T) : Linked { s with ops := s.ops ++ [⟨call, .entry⟩] } where
  writer w hw := snoc_of_some (h.writer w hw)
  reader r hr := snoc_of_some (h.reader r hr)
  waits k call' hk := by
    rcases some_of_snoc hk with hk | ⟨-, hk⟩
    · exact h.waits k call' hk
    · exact absurd (congrArg Op.pc hk) (by simp)
  nodup := h.nodup

theorem run_linked (capacity : ℕ) (ls : List (Label T)) : Linked (Machine.run System.step (init capacity) ls) := by
  refine run_of_move (I := Linked) (fun _ call h => start_linked h call) (fun _ _ _ => move_linked) ?_ ls
  exact ⟨fun w hw => absurd hw List.not_mem_nil, fun r hr => absurd hr List.not_mem_nil,
    fun k call hk => by simp [init] at hk, List.nodup_nil⟩

/-! ## Resumed once -/

/-- an operation that has ended with an exception -/
def Outcome.Thrown (o : Outcome T) : Prop := o = .cancelledException ∨ o = .channelClosedException

/-- how an operation goes on in its own step -/
inductive Acts (c : Channel T) (i : ℕ) : Call T → Pc T → Pc T → Prop where
  | own {call : Call T} {pc pc' : Pc T} (h : Own c call pc pc') : Acts c i call pc pc'
  | sends {call : Call T} {pc : Pc T} {v : T} {o : Outcome T} {log : List ℕ} (h : Sends c i call pc v o log) :
      Acts c i call pc (.done o)
  | gets {call : Call T} {pc : Pc T} {x : Item T} {o : Outcome T} {got : List (Item T)} {log : List ℕ}
      (h : Gets c i x call pc o got log) : Acts c i call pc (.done o)
  | queued {v : T} : Acts c i (.send v) .push .waiting
  | blocked : Acts c i .recv .push .waiting
  | closed (h : c.isActive = true) : Acts c i .close .entry .lock
  | cleared {call : Call T} {pc : Pc T} {c' : Channel T} (h : Clears c call pc c') : Acts c i call pc (.done .returned)

theorem Acts.moves {c : Channel T} {pc' : Pc T} (h : Acts c i call pc pc') : pc.Moves := by
  cases h with
  | own ho => exact ho.moves.1
  | sends hs => exact hs.moves.1
  | gets hg => exact hg.moves.1
  | cleared hc => exact hc.moves.1
  | _ => exact ⟨by simp, by simp⟩

/-- what a step of `i` does to `i` -/
theorem move_self (h : Linked s) (hm : Move s i s') : s' = s ∨ ∃ call pc pc', s.ops[i]? = some ⟨call, pc⟩ ∧
    s'.ops[i]? = some ⟨call, pc'⟩ ∧ Acts s.chan i call pc pc' := by
  cases hm with
  | idle => exact .inl rfl
  | own hop ho => exact .inr ⟨_, _, _, hop, setPc_self hop, .own ho⟩
  | handed hop hs hr =>
    exact .inr ⟨_, _, _, hop, setPc_self ((setPc_ne (h.front_reader hop hs.moves.1 hr).2).trans hop), .sends hs⟩
  | buffered hop hs hr hlt => exact .inr ⟨_, _, _, hop, setPc_self hop, .sends hs⟩
  | queued hop hr hle => exact .inr ⟨_, _, _, hop, setPc_self hop, .queued⟩
  | fromWriter hop hg hw =>
    exact .inr ⟨_, _, _, hop, setPc_self ((setPc_ne (h.front_writer hop hg.moves.1 hw).2).trans hop), .gets hg⟩
  | fromBuffer hop hg hw hb => exact .inr ⟨_, _, _, hop, setPc_self hop, .gets hg⟩
  | blocked hop hw hb => exact .inr ⟨_, _, _, hop, setPc_self hop, .blocked⟩
  | closed hop ha => exact .inr ⟨_, _, _, hop, setPc_self hop, .closed ha⟩
  | cleared hop hc =>
    exact .inr ⟨_, _, _, hop, setPc_self ((cancelOps_not_mem (h.not_mem hop hc.moves.1)).trans hop), .cleared hc⟩

/-- what a step of `i` does to another operation: nothing, or it resumes it -/
theorem move_ne (h : Linked s) (hm : Move s i s') (hki : k ≠ i) : s'.ops[k]? = s.ops[k]? ∨
    ∃ call o, s.ops[k]? = some ⟨call, .waiting⟩ ∧ s'.ops[k]? = some ⟨call, .done o⟩ ∧ k ∈ s'.resumed ∧
      (s.chan.isActive = false → o.Thrown) := by
  cases hm with
  | idle => exact .inl rfl
  | @handed _ _ _ _ _ r _ hop hs hr =>
    obtain ⟨hopr, -⟩ := h.front_reader hop hs.moves.1 hr
    by_cases hkr : k = r
    · subst hkr
      refine .inr ⟨_, _, hopr, (setPc_ne hki).trans (setPc_self hopr), by simp, ?_⟩
      intro ha
      rw [ha]
      exact .inr rfl
    · exact .inl ((setPc_ne hki).trans (setPc_ne hkr))
  | @fromWriter _ _ _ _ _ w _ hop hg hw =>
    obtain ⟨hopw, -⟩ := h.front_writer hop hg.moves.1 hw
    by_cases hkw : k = w.src
    · subst hkw
      refine .inr ⟨_, _, hopw, (setPc_ne hki).trans (setPc_self hopw), by simp, ?_⟩
      intro ha
      rw [ha]
      exact .inr rfl
    · exact .inl ((setPc_ne hki).trans (setPc_ne hkw))
  | cleared hop hc =>
    by_cases hk : k ∈ s.chan.awaiters
    · obtain ⟨call, hopk⟩ := h.waiting hk
      exact .inr ⟨call, _, hopk, (setPc_ne hki).trans (cancelOps_mem hk hopk), List.mem_append_right _ hk,
        fun _ => .inl rfl⟩
    · exact .inl ((setPc_ne hki).trans (cancelOps_not_mem hk))
  | _ => exact .inl (setPc_ne hki)

/-- an operation that has ended stays so -/
theorem move_done (h : Linked s) (hm : Move s i s') {o : Outcome T} (hk : s.ops[k]? = some ⟨call, .done o⟩) :
    s'.ops[k]? = some ⟨call, .done o⟩ := by
  by_cases hki : k = i
  · subst hki
    rcases move_self h hm with rfl | ⟨call', pc, pc', hop, -, hact⟩
    · exact hk
    · rw [hk] at hop
      exact absurd (congrArg Op.pc (Option.some.inj hop)).symm (hact.moves.2 o)
  · rcases move_ne h hm hki with he | ⟨call', o', hop, -⟩
    · rw [he]
      exact hk
    · rw [hk] at hop
      exact absurd (congrArg Op.pc (Option.some.inj hop)) (by simp)

/-- a step changes no call -/
theorem move_call (h : Linked s) (hm : Move s i s') {op : Op T} (hk : s'.ops[k]? = some op) :
    ∃ op', s.ops[k]? = some op' ∧ op'.call = op.call := by
  by_cases hki : k = i
  · subst hki
    rcases move_self h hm with rfl | ⟨call, pc, pc', hop, hop', -⟩
    · exact ⟨op, hk, rfl⟩
    · rw [hk] at hop'
      exact ⟨_, hop, (congrArg Op.call (Option.some.inj hop')).symm⟩
  · rcases move_ne h hm hki with he | ⟨call, o, hop, hop', -⟩
    · exact ⟨op, by rw [← he]; exact hk, rfl⟩
    · rw [hk] at hop'
      exact ⟨_, hop, (congrArg Op.call (Option.some.inj hop')).symm⟩

theorem move_resumed (hm : Move s i s') : s.resumed <+: s'.resumed := by
  cases hm with
  | handed => exact List.prefix_append _ _
  | buffered => exact List.prefix_append _ _
  | fromWriter => exact List.prefix_append _ _
  | fromBuffer => exact List.prefix_append _ _
  | cleared => exact List.prefix_append _ _
  | _ => exact List.prefix_refl _

structure Once (s : System T) : Prop where
  count : ∀ k, s.resumed.count k = 0 ∨ s.resumed.count k = 1 ∧ ∃ call o, s.ops[k]? = some ⟨call, .done o⟩

theorem Once.zero (h : Once s) (hop : s.ops[k]? = some ⟨call, pc⟩) (hpc : ∀ o, pc ≠ .done o) :
    s.resumed.count k = 0 := by
  rcases h.count k with h0 | ⟨-, call', o, hd⟩
  · exact h0
  · rw [hop] at hd
    exact absurd (congrArg Op.pc (Option.some.inj hd)) (hpc o)

/-- a step that resumes `ids` -/
theorem Once.extend (h : Once s) (ids : List ℕ) (hids : ids.Nodup) (hres : s'.resumed = s.resumed ++ ids)
    (hzero : ∀ k ∈ ids, s.resumed.count k = 0) (hdone : ∀ k ∈ ids, ∃ call o, s'.ops[k]? = some ⟨call, .done o⟩)
    (hold : ∀ (k : ℕ) (call : Call T) (o : Outcome T), s.ops[k]? = some ⟨call, .done o⟩ →
      s'.ops[k]? = some ⟨call, .done o⟩) : Once s' := by
  refine ⟨?_⟩
  intro k
  rw [hres, List.count_append]
  by_cases hk : k ∈ ids
  · rw [hzero k hk, List.count_eq_one_of_mem hids hk]
    exact .inr ⟨rfl, hdone k hk⟩
  · rw [List.count_eq_zero_of_not_mem hk]
    rcases h.count k with h0 | ⟨h1, call, o, hop⟩
    · exact .inl h0
    · exact .inr ⟨h1, call, o, hold k call o hop⟩

/-- the suspended operation `r` is resumed; `i` may have been suspended as well -/
theorem Once.wake (h : Once s) (hl : Linked s) (hm : Move s i s') (hop : s.ops[i]? = some ⟨call, pc⟩) (hpc : pc.Moves)
    {r : ℕ} (hr : r ∈ s.chan.awaiters) {log : List ℕ} (hlog : log = [] ∨ log = [i]) {o1 o2 : Outcome T}
    (hops : s'.ops = setPc (setPc s.ops r (.done o1)) i (.done o2)) (hres : s'.resumed = s.resumed ++ r :: log) :
    Once s' := by
  obtain ⟨callr, hopr⟩ := hl.waiting hr
  have hri : r ≠ i := fun he => hl.not_mem hop hpc (by rw [← he]; exact hr)
  have hdr : s'.ops[r]? = some ⟨callr, .done o1⟩ := by rw [hops, setPc_ne hri]; exact setPc_self hopr
  have hdi : s'.ops[i]? = some ⟨call, .done o2⟩ := by
    rw [hops]
    exact setPc_self ((setPc_ne (Ne.symm hri)).trans hop)
  have hzr := h.zero hopr (by simp)
  have hzi := h.zero hop hpc.2
  have hmem : ∀ k ∈ r :: log, k = r ∨ k = i := by
    rcases hlog with rfl | rfl <;> simp
  refine h.extend (r :: log) ?_ hres (?_) (?_) fun k call o hd => move_done hl hm hd
  · rcases hlog with rfl | rfl
    · exact List.nodup_singleton r
    · simpa using hri
  · intro k hk
    rcases hmem k hk with rfl | rfl
    · exact hzr
    · exact hzi
  · intro k hk
    rcases hmem k hk with rfl | rfl
    · exact ⟨_, _, hdr⟩
    · exact ⟨_, _, hdi⟩

/-- only `i` may have been suspended -/
theorem Once.own (h : Once s) (hl : Linked s) (hm : Move s i s') (hop : s.ops[i]? = some ⟨call, pc⟩) (hpc : pc.Moves)
    {log : List ℕ} (hlog : log = [] ∨ log = [i]) {o : Outcome T} (hops : s'.ops = setPc s.ops i (.done o))
    (hres : s'.resumed = s.resumed ++ log) : Once s' := by
  have hmem : ∀ k ∈ log, k = i := by
    rcases hlog with rfl | rfl <;> simp
  refine h.extend log ?_ hres (?_) (?_) fun k call o hd => move_done hl hm hd
  · rcases hlog with rfl | rfl
    · exact List.nodup_nil
    · exact List.nodup_singleton i
  · intro k hk
    rw [hmem k hk]
    exact h.zero hop hpc.2
  · intro k hk
    rw [hmem k hk, hops]
    exact ⟨_, _, setPc_self hop⟩

/-- nobody is resumed -/
theorem Once.quiet (h : Once s) (hl : Linked s) (hm : Move s i s') (hres : s'.resumed = s.resumed) : Once s' :=
  h.extend [] List.nodup_nil (by rw [hres, List.append_nil]) (fun k hk => absurd hk List.not_mem_nil)
    (fun k hk => absurd hk List.not_mem_nil) fun k call o hd => move_done hl hm hd

theorem move_once (h : Once s) (hl : Linked s) (hm : Move s i s') : Once s' := by
  have hmove := hm
  cases hm with
  | idle => exact h
  | own hop ho => exact h.quiet hl hmove rfl
  | handed hop hs hr =>
    refine h.wake hl hmove hop hs.moves.1 (List.mem_append_right _ ?_) hs.moves.2 rfl rfl
    rw [hr]
    exact List.mem_cons_self
  | buffered hop hs hr hlt => exact h.own hl hmove hop hs.moves.1 hs.moves.2 rfl rfl
  | queued hop hr hle => exact h.quiet hl hmove rfl
  | fromWriter hop hg hw =>
    refine h.wake hl hmove hop hg.moves.1 (List.mem_append_left _ (List.mem_map_of_mem ?_)) hg.moves.2 rfl rfl
    rw [hw]
    exact List.mem_cons_self
  | fromBuffer hop hg hw hb => exact h.own hl hmove hop hg.moves.1 hg.moves.2 rfl rfl
  | blocked hop hw hb => exact h.quiet hl hmove rfl
  | closed hop ha => exact h.quiet hl hmove rfl
  | cleared hop hc =>
    refine h.extend s.chan.awaiters hl.nodup rfl (?_) (?_)
      fun k call o hd => move_done hl hmove hd
    · intro k hk
      obtain ⟨call, hw⟩ := hl.waiting hk
      exact h.zero hw (by simp)
    · intro k hk
      obtain ⟨call, hw⟩ := hl.waiting hk
      have hki : k ≠ i := fun he => hl.not_mem hop hc.moves.1 (by rw [← he]; exact hk)
      exact ⟨call, _, (setPc_ne hki).trans (cancelOps_mem hk hw)⟩

theorem start_once (h : Once s) (call : Call T) : Once { s with ops := s.ops ++ [⟨call, .entry⟩] } := by
  refine ⟨?_⟩
  intro k
  rcases h.count k with h0 | ⟨h1, call', o, hop⟩
  · exact .inl h0
  · exact .inr ⟨h1, call', o, snoc_of_some hop⟩

theorem run_once (capacity : ℕ) (ls : List (Label T)) : Once (Machine.run System.step (init capacity) ls) := by
  refine (run_of_move (I := fun s => Linked s ∧ Once s) (fun _ call h => ⟨start_linked h.1 call, start_once h.2 call⟩)
    (fun _ _ _ h hm => ⟨move_linked h.1 hm, move_once h.2 h.1 hm⟩) ⟨run_linked capacity [], ⟨fun k => .inl rfl⟩⟩ ls).2

end

end MCoroRpc.Channel
