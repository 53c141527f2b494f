/-
What becomes of a Channel when it is closed.

`close` sets the flag and then, in a section of its own, cancels all waiters and drops the buffer (`cleanup`). A send that
finds the flag set returns as if it had sent. A receiver that has looked at the flag before and comes to pushReader after
it takes a value from the buffer and throws it away with its exception.

- `Closes`: what the documentation of close and of ChannelClosedException promises.
- `blocked_resumed`: whoever is blocked when the flag is set is resumed once, with an exception.
- `close_keeps`: the rest holds in a run in which nobody starts a send on the closed channel, and cleanup and pushReader
  find the buffer empty.
- `close_discards`: a buffered value is lost and a late send returns.
-/
import MCoroRpc.Coro.Waiting

namespace MCoroRpc.Channel

variable {T : Type}

/-- what closing promises of a later state `t`, if the operation `j` sets the flag in the state `s` -/
structure Closes (s : System T) (j : ℕ) (t : System T) : Prop where
  /-- once a later recv has raised ChannelClosedException, the values that were in the buffer have been received, in
  order -/
  delivered : ∀ i, s.ops.length ≤ i → t.ops[i]? = some ⟨.recv, .done .channelClosedException⟩ →
    s.chan.buffer.Sublist (t.obtained.drop s.obtained.length)
  /-- a later send raises ChannelClosedException -/
  refused : ∀ i v o, s.ops.length ≤ i → t.ops[i]? = some ⟨.send v, .done o⟩ → o = .channelClosedException
  /-- once close has returned, who was blocked has been resumed exactly once, with an exception -/
  resumed : t.ops[j]? = some ⟨.close, .done .returned⟩ → ∀ (i : ℕ) (call : Call T), s.ops[i]? = some ⟨call, .waiting⟩ →
    ∃ o, t.ops[i]? = some ⟨call, .done o⟩ ∧ o.Thrown ∧ t.resumed.count i = 1

/-- the next step of the operation throws away what it finds in the buffer of a closed channel -/
inductive Op.Discards : Op T → Prop where
  | cleanup : Op.Discards ⟨.close, .lock⟩
  | pushReader : Op.Discards ⟨.recv, .push⟩

/-- no value is thrown away, and no send is started on a closed channel -/
def Keeps (s : System T) : Label T → Prop
  | .start (.send _) => s.chan.isActive = true
  | .start _ => True
  | .go i => ∀ op, s.ops[i]? = some op → op.Discards → s.chan.isActive = false → s.chan.buffer = []

section
variable {s t t' : System T} {i j k : ℕ}

/-- a channel is not opened again -/
theorem move_closed (hm : Move t i t') (h : t.chan.isActive = false) : t'.chan.isActive = false := by
  cases hm with
  | cleared hop hc => cases hc <;> exact h
  | closed => rfl
  | _ => exact h

/-! ## Who is blocked -/

/-- between the setting of the flag and now -/
structure Resumes (s : System T) (j : ℕ) (t : System T) : Prop where
  linked : Linked t
  once : Once t
  closed : t.chan.isActive = false
  blocked : ∀ (k : ℕ) (call : Call T), s.ops[k]? = some ⟨call, .waiting⟩ → t.ops[k]? = some ⟨call, .waiting⟩ ∨
    ∃ o, t.ops[k]? = some ⟨call, .done o⟩ ∧ o.Thrown ∧ t.resumed.count k = 1
  cleanup : t.ops[j]? = some ⟨.close, .lock⟩ ∨
    ∀ (k : ℕ) (call : Call T), s.ops[k]? = some ⟨call, .waiting⟩ → t.ops[k]? ≠ some ⟨call, .waiting⟩

theorem Once.one (h : Once t) (hk : k ∈ t.resumed) : t.resumed.count k = 1 := by
  rcases h.count k with h0 | ⟨h1, -⟩
  · exact absurd hk (List.count_eq_zero.1 h0)
  · exact h1

/-- who waits goes on waiting or is resumed -/
theorem move_waiting (h : Linked t) (hm : Move t i t') (hact : t.chan.isActive = false) {call : Call T}
    (hk : t.ops[k]? = some ⟨call, .waiting⟩) :
    t'.ops[k]? = some ⟨call, .waiting⟩ ∨ ∃ o, t'.ops[k]? = some ⟨call, .done o⟩ ∧ o.Thrown ∧ k ∈ t'.resumed := by
  by_cases hki : k = i
  · subst hki
    rcases move_self h hm with rfl | ⟨call', pc, pc', hop, -, ha⟩
    · exact .inl hk
    · rw [hk] at hop
      exact absurd (congrArg Op.pc (Option.some.inj hop)).symm ha.moves.1
  · rcases move_ne h hm hki with he | ⟨call', o, hop, hop', hmem, hthrown⟩
    · exact .inl (he.trans hk)
    · rw [hk] at hop
      obtain rfl : call = call' := congrArg Op.call (Option.some.inj hop)
      exact .inr ⟨o, hop', hthrown hact, hmem⟩

/-- the section of cleanup leaves nobody waiting -/
theorem move_cleanup (hm : Move t i t') (hop : t.ops[i]? = some ⟨.close, .lock⟩) :
    t' = t ∨ t'.chan.writers = [] ∧ t'.chan.readers = [] := by
  have hcall : ∀ {call : Call T} {pc : Pc T}, t.ops[i]? = some ⟨call, pc⟩ → call = .close ∧ pc = .lock := by
    intro call pc h
    rw [hop] at h
    exact ⟨(congrArg Op.call (Option.some.inj h)).symm, (congrArg Op.pc (Option.some.inj h)).symm⟩
  cases hm with
  | idle => exact .inl rfl
  | own hop' ho =>
    obtain ⟨rfl, rfl⟩ := hcall hop'
    cases ho
  | handed hop' hs =>
    obtain ⟨rfl, rfl⟩ := hcall hop'
    cases hs
  | buffered hop' hs =>
    obtain ⟨rfl, rfl⟩ := hcall hop'
    cases hs
  | queued hop' => exact absurd (hcall hop').1 (by simp)
  | fromWriter hop' hg =>
    obtain ⟨rfl, rfl⟩ := hcall hop'
    cases hg
  | fromBuffer hop' hg =>
    obtain ⟨rfl, rfl⟩ := hcall hop'
    cases hg
  | blocked hop' => exact absurd (hcall hop').1 (by simp)
  | closed hop' => exact absurd (hcall hop').2 (by simp)
  | cleared hop' hc => exact .inr hc.moves.2

theorem move_resumes (h : Resumes s j t) (hm : Move t i t') : Resumes s j t' := by
  have hl' := move_linked h.linked hm
  have ho' := move_once h.once h.linked hm
  have hblocked : ∀ (k : ℕ) (call : Call T), s.ops[k]? = some ⟨call, .waiting⟩ → t'.ops[k]? = some ⟨call, .waiting⟩ ∨
      ∃ o, t'.ops[k]? = some ⟨call, .done o⟩ ∧ o.Thrown ∧ t'.resumed.count k = 1 := by
    intro k call hk
    rcases h.blocked k call hk with hw | ⟨o, hd, ht, hc⟩
    · rcases move_waiting h.linked hm h.closed hw with hw' | ⟨o, hd, ht, hmem⟩
      · exact .inl hw'
      · exact .inr ⟨o, hd, ht, ho'.one hmem⟩
    · have hmem : k ∈ t.resumed := List.count_pos_iff.1 (by rw [hc]; exact Nat.one_pos)
      exact .inr ⟨o, move_done h.linked hm hd, ht, ho'.one ((move_resumed hm).subset hmem)⟩
  refine ⟨hl', ho', move_closed hm h.closed, hblocked, ?_⟩
  rcases h.cleanup with hj | hnone
  · by_cases hji : j = i
    · subst hji
      rcases move_cleanup hm hj with rfl | ⟨hw, hr⟩
      · exact .inl hj
      · right
        intro k call _ hk
        have hmem := hl'.waits k call hk
        rw [awaiters, hw, hr] at hmem
        exact List.not_mem_nil hmem
    · rcases move_ne h.linked hm hji with he | ⟨call, o, hop, -⟩
      · exact .inl (he.trans hj)
      · rw [hj] at hop
        exact absurd (congrArg Op.pc (Option.some.inj hop)) (by simp)
  · right
    intro k call hk hw'
    rcases h.blocked k call hk with hw | ⟨o, hd, -⟩
    · exact hnone k call hk hw
    · rw [move_done h.linked hm hd] at hw'
      exact absurd (congrArg Op.pc (Option.some.inj hw')) (by simp)

theorem start_resumes (h : Resumes s j t) (call : Call T) : Resumes s j { t with ops := t.ops ++ [⟨call, .entry⟩] } := by
  have hblocked : ∀ (k : ℕ) (call' : Call T), s.ops[k]? = some ⟨call', .waiting⟩ →
      (t.ops ++ [⟨call, .entry⟩])[k]? = some ⟨call', .waiting⟩ ∨
        ∃ o, (t.ops ++ [⟨call, .entry⟩])[k]? = some ⟨call', .done o⟩ ∧ o.Thrown ∧ t.resumed.count k = 1 := by
    intro k call' hk
    rcases h.blocked k call' hk with hw | ⟨o, hd, ht, hc⟩
    · exact .inl (snoc_of_some hw)
    · exact .inr ⟨o, snoc_of_some hd, ht, hc⟩
  refine ⟨start_linked h.linked call, start_once h.once call, h.closed, hblocked, ?_⟩
  rcases h.cleanup with hj | hnone
  · exact .inl (snoc_of_some hj)
  · right
    intro k call' hk hw'
    rcases some_of_snoc hw' with hw | ⟨-, hw⟩
    · exact hnone k call' hk hw
    · exact absurd (congrArg Op.pc hw) (by simp)

/-- the step in which `j` sets the flag -/
theorem advance_closes (hact : s.chan.isActive = true) (hop : s.ops[j]? = some ⟨.close, .entry⟩) :
    s.advance j = { s with chan := { s.chan with isActive := false }, ops := setPc s.ops j .lock } := by
  simp only [System.advance, hop, hact, if_true]
  rfl

theorem resumes_of_closes (hl : Linked s) (ho : Once s) (hact : s.chan.isActive = true)
    (hop : s.ops[j]? = some ⟨.close, .entry⟩) : Resumes s j (s.advance j) := by
  have hm := advance_move s j
  refine ⟨move_linked hl hm, move_once ho hl hm, ?_, fun k call hk => .inl ?_, .inl ?_⟩
  all_goals rw [advance_closes hact hop]
  · have hkj : k ≠ j := by
      rintro rfl
      rw [hop] at hk
      exact absurd (congrArg Op.pc (Option.some.inj hk)) (by simp)
    exact (setPc_ne hkj).trans hk
  · exact setPc_self hop

/-! ## What is left of the buffer -/

/-- an operation that was started on the closed channel: it is no send, and it comes to no pushReader -/
def Op.Late (op : Op T) : Prop :=
  (∀ v, op.call ≠ .send v) ∧ (op.call = .recv → op.pc ≠ .push ∧ op.pc ≠ .waiting)

/-- a recv that has found neither a value nor a writer, on the closed channel -/
def Op.Ended (op : Op T) : Prop := op = ⟨.recv, .check⟩ ∨ op = ⟨.recv, .done .channelClosedException⟩

/-- the values that were in the buffer have been received from its front on; what is left of them stands in front of what
has come since -/
structure Left (s t : System T) : Prop where
  linked : Linked t
  closed : t.chan.isActive = false
  late : ∀ (k : ℕ) (op : Op T), s.ops.length ≤ k → t.ops[k]? = some op → op.Late
  left : ∃ got rest more since, s.chan.buffer = got ++ rest ∧ t.chan.buffer = rest ++ more ∧
    t.obtained = s.obtained ++ since ∧ got.Sublist since ∧
    ∀ (k : ℕ) (op : Op T), s.ops.length ≤ k → t.ops[k]? = some op → op.Ended → rest = []

theorem Left.not_push (h : Left s t) (hk : s.ops.length ≤ k) : t.ops[k]? ≠ some ⟨.recv, .push⟩ :=
  fun hop => ((h.late k _ hk hop).2 rfl).1 rfl

theorem Left.not_waiting (h : Left s t) (hk : s.ops.length ≤ k) : t.ops[k]? ≠ some ⟨.recv, .waiting⟩ :=
  fun hop => ((h.late k _ hk hop).2 rfl).2 rfl

theorem move_late (h : Left s t) (hm : Move t i t') {op : Op T} (hk : s.ops.length ≤ k) (hop : t'.ops[k]? = some op) :
    op.Late := by
  by_cases hki : k = i
  · subst hki
    rcases move_self h.linked hm with rfl | ⟨call, pc, pc', hop1, hop2, ha⟩
    · exact h.late k op hk hop
    obtain rfl : op = ⟨call, pc'⟩ := Option.some.inj (hop.symm.trans hop2)
    refine ⟨(h.late k _ hk hop1).1, ?_⟩
    intro hrecv
    simp only at hrecv
    subst hrecv
    cases ha with
    | own ho =>
      cases ho with
      | recvEmpty hw hb => exact ⟨by simp, by simp⟩
      | recvOpen hact => exact absurd hact (by rw [h.closed]; simp)
      | recvClosed hact => exact ⟨by simp, by simp⟩
    | gets hg => exact ⟨by simp, by simp⟩
    | blocked => exact absurd hop1 (h.not_push hk)
    | cleared hc => exact ⟨by simp, by simp⟩
    | sends hs => cases hs
  · rcases move_ne h.linked hm hki with he | ⟨call, o, hop1, hop2, -⟩
    · exact h.late k op hk (he.symm.trans hop)
    · obtain rfl : op = ⟨call, .done o⟩ := Option.some.inj (hop.symm.trans hop2)
      exact ⟨(h.late k _ hk hop1).1, fun _ => ⟨by simp, by simp⟩⟩

/-- a recv comes to its end on the closed channel only if the buffer is empty -/
theorem move_ended (h : Left s t) (hm : Move t i t') {op : Op T} (hk : s.ops.length ≤ k) (hop : t'.ops[k]? = some op)
    (he : op.Ended) : t.chan.buffer = [] ∨ ∃ op', t.ops[k]? = some op' ∧ op'.Ended := by
  by_cases hki : k = i
  · subst hki
    rcases move_self h.linked hm with rfl | ⟨call, pc, pc', hop1, hop2, ha⟩
    · exact .inr ⟨op, hop, he⟩
    obtain rfl : op = ⟨call, pc'⟩ := Option.some.inj (hop.symm.trans hop2)
    have hcall : call = .recv := by
      rcases he with he | he <;> exact congrArg Op.call he
    subst hcall
    cases ha with
    | own ho =>
      cases ho with
      | recvEmpty hw hb => exact .inl hb
      | recvOpen hact => exact absurd hact (by rw [h.closed]; simp)
      | recvClosed hact => exact .inr ⟨_, hop1, .inl rfl⟩
    | gets hg =>
      cases hg with
      | recv => rcases he with he | he <;> exact absurd (congrArg Op.pc he) (by simp)
      | pushReader => exact absurd hop1 (h.not_push hk)
    | blocked => exact absurd hop1 (h.not_push hk)
    | cleared hc => cases hc
    | sends hs => cases hs
  · rcases move_ne h.linked hm hki with heq | ⟨call, o, hop1, hop2, -⟩
    · exact .inr ⟨op, heq.symm.trans hop, he⟩
    · obtain rfl : op = ⟨call, .done o⟩ := Option.some.inj (hop.symm.trans hop2)
      have hcall : call = .recv := by
        rcases he with he | he <;> exact congrArg Op.call he
      subst hcall
      exact absurd hop1 (h.not_waiting hk)

/-- what a step takes from the buffer is received, and what it adds comes behind -/
theorem move_buffer (h : t.chan.isActive = false) (hm : Move t i t')
    (hkeeps : ∀ op, t.ops[i]? = some op → op.Discards → t.chan.isActive = false → t.chan.buffer = []) :
    ∃ taken rest more since, t.chan.buffer = taken ++ rest ∧ t'.chan.buffer = rest ++ more ∧
      t'.obtained = t.obtained ++ since ∧ taken.Sublist since := by
  have hsame : t'.chan.buffer = t.chan.buffer → (∃ since, t'.obtained = t.obtained ++ since) →
      ∃ taken rest more since, t.chan.buffer = taken ++ rest ∧ t'.chan.buffer = rest ++ more ∧
        t'.obtained = t.obtained ++ since ∧ taken.Sublist since := by
    intro hb ⟨since, ho⟩
    exact ⟨[], t.chan.buffer, [], since, rfl, by rw [hb, List.append_nil], ho, List.nil_sublist _⟩
  cases hm with
  | idle => exact hsame rfl ⟨[], (List.append_nil _).symm⟩
  | own hop ho => exact hsame rfl ⟨[], (List.append_nil _).symm⟩
  | handed hop hs hr => exact hsame rfl ⟨_, rfl⟩
  | buffered hop hs hr hlt =>
    exact ⟨[], t.chan.buffer, _, [], rfl, rfl, (List.append_nil _).symm, List.nil_sublist _⟩
  | queued hop hr hle => exact hsame rfl ⟨[], (List.append_nil _).symm⟩
  | fromWriter hop hg hw => exact hsame rfl ⟨_, rfl⟩
  | @fromBuffer _ _ _ _ _ x xs hop hg hw hb =>
    cases hg with
    | recv => exact ⟨[x], xs, [], [x], hb, (List.append_nil _).symm, rfl, List.Sublist.refl _⟩
    | tryRecv => exact ⟨[x], xs, [], [x], hb, (List.append_nil _).symm, rfl, List.Sublist.refl _⟩
    | pushReader =>
      rw [hkeeps _ hop .pushReader h] at hb
      cases hb
  | blocked hop hw hb => exact hsame rfl ⟨[], (List.append_nil _).symm⟩
  | closed hop ha => exact hsame rfl ⟨[], (List.append_nil _).symm⟩
  | cleared hop hc =>
    cases hc with
    | cancelAllAwaiters => exact hsame rfl ⟨[], (List.append_nil _).symm⟩
    | cleanup => exact hsame (hkeeps _ hop .cleanup h).symm ⟨[], (List.append_nil _).symm⟩

theorem move_left (h : Left s t) (hm : Move t i t')
    (hkeeps : ∀ op, t.ops[i]? = some op → op.Discards → t.chan.isActive = false → t.chan.buffer = []) : Left s t' := by
  refine ⟨move_linked h.linked hm, move_closed hm h.closed, fun k op hk hop => move_late h hm hk hop, ?_⟩
  obtain ⟨got, rest, more, since, hs, hb, ho, hsub, hend⟩ := h.left
  obtain ⟨taken, rest1, more1, since1, hb1, hb', ho', hsub1⟩ := move_buffer h.closed hm hkeeps
  have hobt : t'.obtained = s.obtained ++ (since ++ since1) := by rw [ho', ho, List.append_assoc]
  rcases List.append_eq_append_iff.1 (hb.symm.trans hb1) with ⟨tail, htaken, hmore⟩ | ⟨tail, hrest, hrest1⟩
  · -- all that was left has been taken
    refine ⟨got ++ rest, [], rest1 ++ more1, since ++ since1, by rw [List.append_nil]; exact hs, hb', hobt, ?_,
      fun _ _ _ _ _ => rfl⟩
    refine hsub.append (List.Sublist.trans ?_ hsub1)
    rw [htaken]
    exact List.sublist_append_left _ _
  · refine ⟨got ++ taken, tail, more ++ more1, since ++ since1, ?_, ?_, hobt, hsub.append hsub1, ?_⟩
    · rw [hs, hrest, List.append_assoc]
    · rw [hb', hrest1, List.append_assoc]
    · intro k op hk hop he
      have hnil : rest = [] := by
        rcases move_ended h hm hk hop he with hempty | ⟨op', hop', he'⟩
        · rw [hb] at hempty
          exact (List.append_eq_nil_iff.1 hempty).1
        · exact hend k op' hk hop' he'
      rw [hnil] at hrest
      exact (List.append_eq_nil_iff.1 hrest.symm).2

theorem start_left (h : Left s t) {call : Call T} (hkeeps : Keeps t (.start call)) :
    Left s { t with ops := t.ops ++ [⟨call, .entry⟩] } := by
  refine ⟨start_linked h.linked call, h.closed, ?_, ?_⟩
  · intro k op hk hop
    rcases some_of_snoc hop with hop | ⟨-, rfl⟩
    · exact h.late k op hk hop
    · refine ⟨?_, fun _ => ⟨by simp, by simp⟩⟩
      rintro v rfl
      have hact : t.chan.isActive = true := hkeeps
      rw [h.closed] at hact
      cases hact
  · obtain ⟨got, rest, more, since, hs, hb, ho, hsub, hend⟩ := h.left
    refine ⟨got, rest, more, since, hs, hb, ho, hsub, ?_⟩
    intro k op hk hop he
    rcases some_of_snoc hop with hop | ⟨-, rfl⟩
    · exact hend k op hk hop he
    · rcases he with he | he <;> exact absurd (congrArg Op.pc he) (by simp)

theorem step_left (h : Left s t) {l : Label T} (hkeeps : Keeps t l) : Left s (t.step l) := by
  cases l with
  | start call => exact start_left h hkeeps
  | go i => exact move_left h (advance_move t i) hkeeps

theorem left_of_closes (hl : Linked s) (hact : s.chan.isActive = true) (hop : s.ops[j]? = some ⟨.close, .entry⟩) :
    Left s (s.advance j) := by
  have hlinked := move_linked hl (advance_move s j)
  rw [advance_closes hact hop] at hlinked ⊢
  have hnone : ∀ (k : ℕ) (op : Op T), s.ops.length ≤ k → (setPc s.ops j .lock)[k]? ≠ some op := by
    intro k op hk hop
    have hlt := (List.getElem?_eq_some_iff.1 hop).1
    rw [length_setPc] at hlt
    omega
  refine ⟨hlinked, rfl, fun k op hk hop => absurd hop (hnone k op hk), ?_⟩
  exact ⟨[], s.chan.buffer, [], [], rfl, (List.append_nil _).symm, (List.append_nil _).symm, List.nil_sublist _,
    fun k op hk hop _ => absurd hop (hnone k op hk)⟩

theorem Left.delivered (h : Left s t) (hk : s.ops.length ≤ k)
    (hop : t.ops[k]? = some ⟨.recv, .done .channelClosedException⟩) :
    s.chan.buffer.Sublist (t.obtained.drop s.obtained.length) := by
  obtain ⟨got, rest, more, since, hs, -, ho, hsub, hend⟩ := h.left
  rw [hs, hend k _ hk hop (.inr rfl), List.append_nil, ho, List.drop_left]
  exact hsub

end

/-- **Resumption**: in every run, whoever is blocked when the flag is set has been resumed exactly once when close has
returned, with an exception -/
theorem blocked_resumed (capacity : ℕ) (ls ls' : List (Label T)) {j : ℕ} :
    let s := Machine.run System.step (init capacity) ls
    let t := Machine.run System.step (s.advance j) ls'
    s.chan.isActive = true → s.ops[j]? = some ⟨.close, .entry⟩ → t.ops[j]? = some ⟨.close, .done .returned⟩ →
      ∀ (i : ℕ) (call : Call T), s.ops[i]? = some ⟨call, .waiting⟩ →
        ∃ o, t.ops[i]? = some ⟨call, .done o⟩ ∧ o.Thrown ∧ t.resumed.count i = 1 := by
  intro s t hact hop hret i call hi
  have h : Resumes s j t := run_of_move (I := Resumes s j) (fun _ call h => start_resumes h call)
    (fun _ _ _ h hm => move_resumes h hm) (resumes_of_closes (run_linked capacity ls) (run_once capacity ls) hact hop) ls'
  rcases h.cleanup with hj | hnone
  · rw [hj] at hret
    exact absurd (congrArg Op.pc (Option.some.inj hret)) (by simp)
  · exact (h.blocked i call hi).resolve_left (hnone i call hi)

/-- **Closing**: in every run in which nobody starts a send on the closed channel and cleanup and pushReader find its
buffer empty, closing does what it promises -/
theorem close_keeps (capacity : ℕ) (ls ls' : List (Label T)) {j : ℕ}
    (hact : (Machine.run System.step (init capacity) ls).chan.isActive = true)
    (hop : (Machine.run System.step (init capacity) ls).ops[j]? = some ⟨.close, .entry⟩)
    (hkeeps : Machine.Along System.step Keeps ((Machine.run System.step (init capacity) ls).advance j) ls') :
    Closes (Machine.run System.step (init capacity) ls) j
      (Machine.run System.step ((Machine.run System.step (init capacity) ls).advance j) ls') := by
  have hleft := Machine.inv_run (I := Left _) (fun _ _ hk h => step_left h hk) hkeeps
    (left_of_closes (run_linked capacity ls) hact hop)
  refine ⟨fun i hi hrecv => hleft.delivered hi hrecv, ?_, ?_⟩
  · intro i v o hi hsend
    exact absurd rfl ((hleft.late i _ hi hsend).1 v)
  · intro hret
    exact blocked_resumed capacity ls ls' hact hop hret

/-- the value 7 is in the buffer when the flag is cleared; a receiver takes it before the cleanup, and a later recv raises
ChannelClosedException -/
theorem close_keeps_buffered : Closes
    (Machine.run System.step (init 1) [.start (.send 7), .go 0, .go 0, .start .recv, .start .close]) 2
    (Machine.run System.step ((Machine.run System.step (init 1)
      [.start (.send 7), .go 0, .go 0, .start .recv, .start .close]).advance 2)
      [.go 1, .go 2, .start .recv, .go 3, .go 3] : System ℕ) := by
  refine close_keeps 1 _ _ rfl rfl ⟨?_, fun _ _ _ _ => rfl, trivial, fun _ _ _ _ => rfl, fun _ _ _ _ => rfl, trivial⟩
  -- the receiver takes the value out of the buffer and throws nothing away
  intro op hop hd
  cases hop
  cases hd

/-- capacity 1: the value 7 is in the buffer when the channel is closed; then a recv raises ChannelClosedException, and
a send returns -/
theorem close_discards :
    let s : System ℕ := Machine.run System.step (init 1) [.start (.send 7), .go 0, .go 0, .start .close]
    let t := Machine.run System.step (s.advance 1) [.go 1, .start .recv, .go 2, .go 2, .start (.send 8), .go 3]
    (t.ops[2]? = some ⟨.recv, .done .channelClosedException⟩ ∧
        ¬ s.chan.buffer.Sublist (t.obtained.drop s.obtained.length)) ∧
      t.ops[3]? = some ⟨.send 8, .done .returned⟩ ∧ ¬ Closes s 1 t := by
  intro s t
  refine ⟨⟨by decide, by decide⟩, by decide, ?_⟩
  intro h
  have hreturned := h.refused 3 8 .returned (by decide) rfl
  cases hreturned

end MCoroRpc.Channel
