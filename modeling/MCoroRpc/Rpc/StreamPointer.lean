/-
The pointer m_stream of an RpcChannel under close (include/rpc/rpc_channel.inl).

CallMethodAsync looks at m_stream once, before its first `co_await`, and workerLoop once for each request; both use it
again behind their awaits. close, the timeouts of workerLoop and reconnect reset it.

- `stream_found`: if m_stream is only reset while no other coroutine is going to use it, no coroutine finds it null.
- `reset_crashes`: behind any other reset a coroutine can run into null.
- `close_under_call`: instance removal while a call is writing.
-/
import MCoroRpc.Rpc.Connection

namespace MCoroRpc.Connection

/-- no coroutine but the one that resets m_stream is between its check of m_stream and its last use of it -/
def Undisturbed (s : Connection) (l : Label) : Prop :=
  Resets s l → ∀ (j : ℕ) (pc : Pc), s.coros[j]? = some pc → pc.uses = true → ∃ a, l = .resume j a

/-- the coroutine has not run into null, and what it is going to use is there -/
def Found (stream : Bool) (pc : Pc) : Prop := pc.isCrashed = false ∧ (pc.uses = true → stream = true)

def AllFound (stream : Bool) (t : List Pc) : Prop := ∀ (j : ℕ) (pc : Pc), t[j]? = some pc → Found stream pc

section
variable {s s' : Connection} {i : ℕ} {a : Awaited} {pc pc' : Pc} {t : List Pc} {stream : Bool}

theorem Found.of_unused (hcrash : pc.isCrashed = false) (huses : pc.uses = false) : Found stream pc :=
  ⟨hcrash, fun h => by rw [huses] at h; cases h⟩

/-- one coroutine moves; the stream may go if no other coroutine is going to use it -/
theorem set_found {stream' : Bool} (h : AllFound stream t) (hnew : Found stream' pc')
    (hothers : stream' = false → stream = false ∨ ∀ (j : ℕ) (pc : Pc), t[j]? = some pc → pc.uses = true → j = i) :
    AllFound stream' (t.modify i fun _ => pc') := by
  intro j pc hj
  rcases Table.of_getElem?_set hj with ⟨_, rfl⟩ | ⟨hji, hold⟩
  · exact hnew
  · obtain ⟨hcrash, huses⟩ := h j pc hold
    refine ⟨hcrash, fun hu => ?_⟩
    by_contra hne
    rcases hothers (by simpa using hne) with hs | hother
    · rw [huses hu] at hs
      cases hs
    · exact hji (hother j pc hold hu)

/-- the readers that wake up do not use the stream -/
theorem setAll_found {is : List ℕ} (h : AllFound stream t) (hnew : Found stream pc') :
    AllFound stream (Table.setAll pc' is t) := by
  intro j pc hj
  rcases Table.of_getElem?_setAll hj with ⟨_, rfl⟩ | ⟨_, hold⟩
  · exact hnew
  · exact h j pc hold

theorem append_found (h : AllFound stream t) (hnew : Found stream pc') : AllFound stream (t ++ [pc']) := by
  intro j pc hj
  rcases List.mem_append.1 (List.mem_of_getElem? hj) with hmem | hmem
  · obtain ⟨k, hk⟩ := List.mem_iff_getElem?.1 hmem
    exact h k pc hk
  · rw [List.mem_singleton.1 hmem]
    exact hnew

theorem move_found (h : AllFound s.stream s.coros) (hi : s.coros[i]? = some pc) (hu : Undisturbed s (.resume i a))
    (hm : Move s i a pc s') : AllFound s'.stream s'.coros := by
  have hothers : Resets s (.resume i a) → ∀ (j : ℕ) (pc : Pc), s.coros[j]? = some pc → pc.uses = true → j = i := by
    intro hr j pc hj huses
    obtain ⟨b, hb⟩ := hu hr j pc hj huses
    cases hb
    rfl
  -- a coroutine that uses the stream has found it
  have hown : pc.uses = true → s.stream = true := (h i pc hi).2
  cases hm with
  | idle => exact h
  | goes _ pc' stream _ _ _ huses hcrash hstream =>
    have hnew : Found stream pc' := by
      constructor
      · by_contra hne
        obtain ⟨hs, hpc⟩ := hcrash (by simpa using hne)
        rw [hown hpc] at hs
        cases hs
      · intro hpc'
        rcases huses hpc' with hs | hpc
        · exact hs
        · by_contra hne
          have hs := hstream (by simpa using hne)
          rw [hown hpc] at hs
          cases hs
    exact set_found h hnew fun hs => .inl (hstream hs)
  | ends _ _ pc' stream _ _ hrests hstream =>
    exact set_found h (.of_unused hrests.2.1 hrests.1) fun hs => (hstream hs).imp_right hothers
  | takes => exact set_found h (.of_unused rfl rfl) .inl
  | blocks => exact set_found h (.of_unused rfl rfl) .inl
  | retries _ _ stream _ _ hstream =>
    exact set_found h (.of_unused rfl rfl) fun hs => (hstream hs).imp_right hothers
  | givesUp _ _ stream _ _ hstream =>
    refine set_found (setAll_found h (.of_unused rfl rfl)) (.of_unused rfl rfl) fun hs => ?_
    refine (hstream hs).imp_right fun hr j pcj hj huses => ?_
    rcases Table.of_getElem?_setAll hj with ⟨_, rfl⟩ | ⟨_, hold⟩
    · cases huses
    · exact hothers hr j pcj hold huses

theorem call_found (h : AllFound s.stream s.coros) (hc : Call s s') : AllFound s'.stream s'.coros := by
  cases hc with
  | fails f => exact h
  | handed w ws => exact set_found h (.of_unused rfl rfl) .inl
  | queued => exact h

theorem close_found (h : AllFound s.stream s.coros) (hu : Undisturbed s .close) :
    AllFound s.close.stream s.close.coros := by
  have hnone : AllFound false s.coros := by
    intro j pc hj
    refine ⟨(h j pc hj).1, fun huses => ?_⟩
    obtain ⟨b, hb⟩ := hu trivial j pc hj huses
    cases hb
  unfold close
  split_ifs
  · exact setAll_found hnone (.of_unused rfl rfl)
  · exact hnone

theorem step_found (h : AllFound s.stream s.coros) {l : Label} (hu : Undisturbed s l) :
    AllFound (s.step l).stream (s.step l).coros := by
  cases l with
  | connect =>
    apply append_found h
    split_ifs <;> exact .of_unused rfl rfl
  | callMethod serializes => exact call_found h (callMethod_call s serializes)
  | callMethodAsync serializes =>
    refine append_found h ?_
    split_ifs with hfound
    · exact ⟨rfl, fun _ => hfound.2.1⟩
    · exact .of_unused rfl rfl
  | workerLoop => exact append_found h (.of_unused rfl rfl)
  | resume i a =>
    simp only [step]
    cases hi : s.coros[i]? with
    | none =>
      rw [resume_none hi]
      exact h
    | some pc => exact move_found h hi hu (resume_move hi)
  | close => exact close_found h hu

theorem undisturbed_of_unused {l : Label} (h : ∀ pc ∈ s.coros, pc.uses = false) : Undisturbed s l := by
  intro _ j pc hj huses
  rw [h pc (List.mem_of_getElem? hj)] at huses
  cases huses

theorem undisturbed_of_awaited (h : s.coros[i]? ≠ some .reconnect) : Undisturbed s (.resume i awaited) := by
  intro hr
  rcases hr with ⟨_, _, ht⟩ | ⟨hi, _⟩
  · cases ht
  · exact absurd hi h

theorem start_found : AllFound start.stream start.coros := by
  intro j pc hj
  cases hj

end

/-- **The stream pointer under close**: in every run in which m_stream is reset only while no other coroutine is going
to use it, no coroutine runs into null. -/
theorem stream_found (ls : List Label) (h : Machine.Along step Undisturbed start ls) :
    ∀ (n j : ℕ) (r : Option ℕ), (Machine.run step start (ls.take n)).coros[j]? ≠ some (.crashed r) := by
  intro n j r hj
  have hfound := Machine.inv_run (I := fun s => AllFound s.stream s.coros) (fun s l hu hs => step_found hs hu)
    (Machine.along_take h n) start_found
  cases (hfound j _ hj).1

/-- a call that is answered before its instance is removed -/
abbrev removalRun : List Label :=
  [.connect, .resume 0 awaited, .callMethodAsync true, .resume 1 awaited, .resume 1 awaited, .resume 1 awaited,
    .resume 1 awaited, .close]

theorem stream_found_removal :
    (Machine.run step start removalRun).stream = false ∧
      ∀ (n j : ℕ) (r : Option ℕ), (Machine.run step start (removalRun.take n)).coros[j]? ≠ some (.crashed r) :=
  ⟨by decide, stream_found removalRun
    ⟨undisturbed_of_unused (by decide), undisturbed_of_unused (by decide), undisturbed_of_unused (by decide),
      undisturbed_of_awaited (by decide), undisturbed_of_awaited (by decide), undisturbed_of_awaited (by decide),
      undisturbed_of_awaited (by decide), undisturbed_of_unused (by decide), trivial⟩⟩

/-! ## Any other reset -/

section
variable {s : Connection} {j : ℕ} {pc : Pc}

theorem moveTo_get (hj : s.coros[j]? = some pc) (pc' : Pc) : (s.moveTo j pc').coros[j]? = some pc' := by
  simp only [moveTo, List.getElem?_modify_eq, hj]
  rfl

/-- a coroutine that is going to use m_stream runs into null if nothing comes between -/
theorem uses_crashes (hs : s.stream = false) (hj : s.coros[j]? = some pc) (huses : pc.uses = true) :
    ∃ ls r, (Machine.run step s ls).coros[j]? = some (.crashed r) := by
  have hcrash : ∀ (s : Connection) (pc : Pc) (r : Option ℕ), s.coros[j]? = some pc →
      s.resume j awaited = s.moveTo j (.crashed r) →
      ∃ ls r, (Machine.run step s ls).coros[j]? = some (.crashed r) := by
    intro s pc r hj heq
    refine ⟨[.resume j awaited], r, ?_⟩
    simp only [Machine.run_cons, Machine.run_nil, step, heq]
    exact moveTo_get hj _
  cases pc with
  | opening => exact hcrash s _ none hj (by simp [resume, hj, hs])
  | writing => exact hcrash s _ none hj (by simp [resume, hj, hs, awaited])
  | reading =>
    have hmove : s.resume j awaited = s.moveTo j (.answered true) := by simp [resume, hj, awaited]
    have hj' : (s.moveTo j (.answered true)).coros[j]? = some (.answered true) := moveTo_get hj _
    have hs' : (s.moveTo j (.answered true)).stream = false := hs
    obtain ⟨ls, r, hr⟩ := hcrash _ _ none hj' (by simp [resume, hj', hs', awaited])
    refine ⟨.resume j awaited :: ls, r, ?_⟩
    simp only [Machine.run_cons, step, hmove]
    exact hr
  | answered ok =>
    obtain rfl : ok = true := huses
    exact hcrash s _ none hj (by simp [resume, hj, hs, awaited])
  | sending r => exact hcrash s _ (some r) hj (by simp [resume, hj, hs, awaited])
  | receiving r => exact hcrash s _ (some r) hj (by simp [resume, hj, hs, awaited])
  | _ => cases huses

theorem resets_stream {l : Label} (h : Resets s l) : (s.step l).stream = false := by
  cases l with
  | close => rfl
  | resume i a =>
    rcases h with ⟨⟨r, hi | hi⟩, hok, ht⟩ | ⟨hi, hstopped⟩
    · simp [step, resume, hi, hok, ht, roundEnds, moveTo, finish]
    · simp [step, resume, hi, hok, ht, roundEnds, moveTo, finish]
    · simp only [step, resume, hi, hstopped, Bool.false_eq_true, if_false, retryHead]
      split_ifs <;> rfl
  | _ => exact h.elim

theorem resets_frame (h : Linked s) {l : Label} (hr : Resets s l) (hl : ∀ a, l ≠ .resume j a)
    (hj : s.coros[j]? = some pc) (hwait : pc ≠ .waiting) : (s.step l).coros[j]? = some pc := by
  cases l with
  | close =>
    simp only [step, close]
    split_ifs
    · exact (Table.getElem?_setAll_of_not_mem (h.not_mem hj hwait)).trans hj
    · exact hj
  | resume i a =>
    have hne : j ≠ i := by
      rintro rfl
      exact hl a rfl
    simp only [step]
    cases hi : s.coros[i]? with
    | none =>
      rw [resume_none hi]
      exact hj
    | some pci => exact h.move_frame (resume_move hi) hne hj hwait
  | _ => exact hr.elim

/-- the condition of `stream_found` leaves out no more than it has to -/
theorem reset_crashes (h : Linked s) {l : Label} (hu : ¬ Undisturbed s l) :
    ∃ (ls : List Label) (j : ℕ) (r : Option ℕ), (Machine.run step (s.step l) ls).coros[j]? = some (.crashed r) := by
  simp only [Undisturbed, not_forall, not_exists] at hu
  obtain ⟨hr, j, pc, hj, huses, hl⟩ := hu
  have hwait : pc ≠ .waiting := by
    rintro rfl
    cases huses
  obtain ⟨ls, r, hcrash⟩ := uses_crashes (resets_stream hr) (resets_frame h hr hl hj hwait) huses
  exact ⟨ls, j, r, hcrash⟩

end

/-- a call that is writing when its instance is removed -/
theorem close_under_call :
    (Machine.run step start
      [.connect, .resume 0 awaited, .callMethodAsync true, .resume 1 awaited, .close, .resume 1 awaited]).coros[1]? =
      some (.crashed none) := by
  decide

end MCoroRpc.Connection
