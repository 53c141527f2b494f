/-
Generations of ready callbacks (src/event_loop.cc: call_soon, execute_ready_callback).

call_soon is said to put a callback into the next iteration; but a pass of execute_ready_callback goes on until the queue
is empty, and so takes what its own callbacks put in.

A pass is a list of rounds (Coro.RunOnce), finished or not. For each id that call_soon gives in a pass, one of three things
happens: it is executed, its callback is cancelled before its turn, or its turn has not come (`registered_fate`).

Main results:
- `next_iteration_iff`: a pass leaves what it registers to the next iteration exactly if all of it is cancelled before its
  turn.
- `endless_pass`: a callback that registers itself, and a pass that never ends.
-/
import MCoroRpc.Coro.RunOnce
import MCoroRpc.Coro.WaitIds

namespace MCoroRpc.Eventloop

open Multimap

variable {κ : Type*} (H : HeapAlgorithms)

/-! ## What happens in a pass -/

/-- the id that call_soon gives -/
def soonId (s : Eventloop κ) : Label κ → List ℕ
  | .callSoon handle cb => [(s.callSoon handle cb).1]
  | _ => []

/-- the ids that call_soon gives in a list of calls -/
def soonIds : Eventloop κ → List (Label κ) → List ℕ
  | _, [] => []
  | s, l :: ls => s.soonId l ++ soonIds (s.step H l) ls

/-- the id of the callback that the next round executes, if it has one -/
def ran (s : Eventloop κ) : List ℕ := (s.executeReady.1.map (·.waitId)).toList

/-- the ids that the callbacks of a pass are given by call_soon -/
def registered : Eventloop κ → List (List (Label κ)) → List ℕ
  | _, [] => []
  | s, calls :: rest => soonIds H s.executeReady.2 calls ++ registered (s.round H calls) rest

/-- the ids of the callbacks that a pass executes -/
def executed : Eventloop κ → List (List (Label κ)) → List ℕ
  | _, [] => []
  | s, calls :: rest => s.ran ++ executed (s.round H calls) rest

/-- the call takes away the callback of the id -/
def Withdraws (w : ℕ) (s : Eventloop κ) (l : Label κ) : Prop :=
  s.Pending w ∧
    match l with
    | .cancelWait w' => w' = w
    | .cancel c => Holds s.coroWaits c w
    | _ => False

def WithdrawnBy (w : ℕ) : Eventloop κ → List (Label κ) → Prop
  | _, [] => False
  | s, l :: ls => s.Withdraws w l ∨ WithdrawnBy w (s.step H l) ls

/-- the callback is cancelled in the pass, before its turn -/
def Withdrawn (w : ℕ) : Eventloop κ → List (List (Label κ)) → Prop
  | _, [] => False
  | s, calls :: rest => WithdrawnBy H w s.executeReady.2 calls ∨ Withdrawn w (s.round H calls) rest

/-- its turn is still to come -/
structure Waiting (w : ℕ) (s : Eventloop κ) : Prop where
  queued : w ∈ s.readyQueue
  pending : s.Pending w

/-- no callback that a pass registers with call_soon is executed in it, and no more callbacks are executed than have been
ready when it begins -/
structure NextIteration (s : Eventloop κ) (pass : List (List (Label κ))) : Prop where
  deferred : ∀ w ∈ registered H s pass, w ∉ executed H s pass
  finite : (executed H s pass).length ≤ s.readyQueue.length

variable {H} {s : Eventloop κ} {l : Label κ} {w : ℕ} {calls : List (Label κ)} {pass : List (List (Label κ))}

/-! ## One call -/

/-- callbacks put into the queue what they register with call_soon, and nothing else -/
theorem step_queue (hl : l.byCallback = true) : (s.step H l).readyQueue = s.readyQueue ++ s.soonId l := by
  cases l with
  | callSoon handle cb => rfl
  | addReader fd handle cb ctl | addWriter fd handle cb ctl =>
    simp only [step, addReader, addWriter, addWaiter, soonId, List.append_nil]
    split_ifs <;> rfl
  | cancel c =>
    have hready := (@cancel_less κ H s c).ready
    simpa only [step, soonId, List.append_nil] using hready
  | callAt time handle cb => exact (List.append_nil _).symm
  | cancelWait w => exact (List.append_nil _).symm
  | stop => exact (List.append_nil _).symm
  | _ => cases hl

/-- an id that has been given keeps its callback until it is cancelled -/
theorem step_pending (hl : l.byCallback = true) (hw : w < s.nextWaitId) :
    (s.step H l).Pending w ↔ s.Pending w ∧ ¬ s.Withdraws w l := by
  have hne : w ≠ s.nextWaitId := Nat.ne_of_lt hw
  have henlist : ∀ handle cb, (s.enlist handle cb).Pending w ↔ s.Pending w := fun handle cb => by
    rw [enlist_pending, or_iff_left hne]
  -- the id that a refused registration takes back is not the one in question
  have haddWaiter : ∀ d fd handle cb ctl,
      (s.addWaiter d fd handle cb ctl).2.Pending w ↔ (s.enlist handle cb).Pending w := fun d fd handle cb ctl => by
    simp only [addWaiter]
    split_ifs
    · exact Iff.rfl
    · simp only [Pending, lookup_erase_ite, hne, if_false]
  cases l with
  | callSoon handle cb | callAt time handle cb =>
    simp only [Withdraws, and_false, not_false_eq_true, and_true]
    exact henlist handle cb
  | addReader fd handle cb ctl | addWriter fd handle cb ctl =>
    simp only [Withdraws, and_false, not_false_eq_true, and_true]
    exact (haddWaiter _ fd handle cb ctl).trans (henlist handle cb)
  | cancelWait w' =>
    simp only [step, Pending, cancelWait_lookup, Withdraws]
    by_cases he : w = w' <;> simp [he, eq_comm]
  | cancel c =>
    simp only [step, Withdraws]
    rcases @cancel_lookup κ H s c w with ⟨hnone, hheld⟩ | ⟨hsame, hheld⟩
    · simp [Pending, hnone, hheld]
    · simp [Pending, hsame, hheld]
  | stop => simp [step, Pending, Withdraws]
  | _ => cases hl

/-! ## The calls of a callback -/

/-- the id has been given, and its callback is gone -/
structure Gone (w : ℕ) (s : Eventloop κ) : Prop where
  given : w < s.nextWaitId
  none : ¬ s.Pending w

theorem Gone.step (h : Gone w s) (hl : l.byCallback = true) : Gone w (s.step H l) :=
  ⟨lt_of_lt_of_le h.given (next_le_step _ _), fun hp => h.none ((step_pending hl h.given).1 hp).1⟩

theorem calls_gone (h : Gone w s) (hc : ∀ l ∈ calls, l.byCallback = true) :
    ¬ WithdrawnBy H w s calls ∧ Gone w (Machine.run (step H) s calls) := by
  induction calls generalizing s with
  | nil => exact ⟨id, h⟩
  | cons l calls ih =>
    have hl := hc l List.mem_cons_self
    obtain ⟨hno, hend⟩ := ih (h.step hl) fun l' h' => hc l' (List.mem_cons_of_mem l h')
    exact ⟨fun hw => hw.elim (fun hw => h.none hw.1) hno, hend⟩

/-- a callback that waits is cancelled by the calls, or waits behind them -/
theorem calls_waiting (hinv : Inv s) (h : Waiting w s) (hc : ∀ l ∈ calls, l.byCallback = true) :
    WithdrawnBy H w s calls ∧ Gone w (Machine.run (step H) s calls) ∨
      ¬ WithdrawnBy H w s calls ∧ Waiting w (Machine.run (step H) s calls) := by
  induction calls generalizing s with
  | nil => exact .inr ⟨id, h⟩
  | cons l calls ih =>
    have hl := hc l List.mem_cons_self
    have hrest : ∀ l' ∈ calls, l'.byCallback = true := fun l' h' => hc l' (List.mem_cons_of_mem l h')
    have hlt := hinv.pending_lt h.pending
    by_cases hw : s.Withdraws w l
    · have hgone : Gone w (s.step H l) :=
        ⟨lt_of_lt_of_le hlt (next_le_step _ _), fun hp => ((step_pending hl hlt).1 hp).2 hw⟩
      exact .inl ⟨.inl hw, (calls_gone hgone hrest).2⟩
    · have hwait : Waiting w (s.step H l) :=
        ⟨by rw [step_queue hl]; exact List.mem_append_left _ h.queued, (step_pending hl hlt).2 ⟨h.pending, hw⟩⟩
      rcases ih (step_inv hinv l) hwait hrest with ⟨h1, h2⟩ | ⟨h1, h2⟩
      · exact .inl ⟨.inr h1, h2⟩
      · exact .inr ⟨fun h' => h'.elim hw h1, h2⟩

theorem le_of_mem_soonIds (hc : ∀ l ∈ calls, l.byCallback = true) (hw : w ∈ soonIds H s calls) : s.nextWaitId ≤ w := by
  induction calls generalizing s with
  | nil => cases hw
  | cons l calls ih =>
    rcases List.mem_append.1 hw with hw | hw
    · cases l with
      | callSoon handle cb => exact (List.mem_singleton.1 hw).ge
      | _ => cases hw
    · have hle := ih (fun l' h' => hc l' (List.mem_cons_of_mem l h')) hw
      exact (next_le_step _ _).trans hle

/-- a callback that the calls register is cancelled by them, or waits behind them -/
theorem calls_soon (hinv : Inv s) (hc : ∀ l ∈ calls, l.byCallback = true) (hw : w ∈ soonIds H s calls) :
    WithdrawnBy H w s calls ∧ Gone w (Machine.run (step H) s calls) ∨
      ¬ WithdrawnBy H w s calls ∧ Waiting w (Machine.run (step H) s calls) := by
  have hle := le_of_mem_soonIds hc hw
  induction calls generalizing s with
  | nil => cases hw
  | cons l calls ih =>
    have hl := hc l List.mem_cons_self
    have hrest : ∀ l' ∈ calls, l'.byCallback = true := fun l' h' => hc l' (List.mem_cons_of_mem l h')
    -- before it is given the id has no callback to take away
    have hno : ¬ s.Withdraws w l := fun h' => absurd (hinv.pending_lt h'.1) (not_lt.2 hle)
    have hbehind : WithdrawnBy H w (s.step H l) calls ∧ Gone w (Machine.run (step H) (s.step H l) calls) ∨
        ¬ WithdrawnBy H w (s.step H l) calls ∧ Waiting w (Machine.run (step H) (s.step H l) calls) := by
      rcases List.mem_append.1 hw with hw | hw
      · cases l with
        | callSoon handle cb =>
          obtain rfl := List.mem_singleton.1 hw
          refine calls_waiting (step_inv hinv _) ⟨?_, ?_⟩ hrest
          · exact List.mem_append_right _ (List.mem_singleton_self _)
          · exact ⟨_, Finmap.lookup_insert _⟩
        | _ => cases hw
      · exact ih (step_inv hinv l) hrest hw (le_of_mem_soonIds hrest hw)
    rcases hbehind with ⟨h1, h2⟩ | ⟨h1, h2⟩
    · exact .inl ⟨.inr h1, h2⟩
    · exact .inr ⟨fun h' => h'.elim hno h1, h2⟩

/-! ## The rounds of a pass -/

/-- an id has a callback until it is executed -/
theorem executeReady_pending (h : Inv s) : s.executeReady.2.Pending w ↔ s.Pending w ∧ w ∉ s.ran := by
  rcases executeReady_cases s with ⟨-, he⟩ | ⟨waitId, queue, -, -, he⟩ | ⟨waitId, queue, cb, -, hcb, he⟩
  · simp [ran, he]
  · simp [ran, he, Pending]
  · obtain ⟨hid, -⟩ := h.callback _ _ hcb
    simp only [ran, he, Pending, lookup_erase_ite, Option.map_some, Option.toList_some, List.mem_singleton, hid]
    by_cases hw : w = waitId <;> simp [hw]

/-- what is executed has had a callback -/
theorem pending_of_ran (h : Inv s) (hw : w ∈ s.ran) : s.Pending w ∧ w ∈ s.readyQueue := by
  rcases executeReady_cases s with ⟨-, he⟩ | ⟨waitId, queue, -, -, he⟩ | ⟨waitId, queue, cb, hq, hcb, he⟩
  · simp [ran, he] at hw
  · simp [ran, he] at hw
  · obtain ⟨hid, -⟩ := h.callback _ _ hcb
    simp only [ran, he, Option.map_some, Option.toList_some, List.mem_singleton, hid] at hw
    subst hw
    exact ⟨⟨cb, hcb⟩, by rw [hq]; exact List.mem_cons_self⟩

/-- the front of the queue is executed or dropped, and the rest stays -/
theorem executeReady_queue (h : Inv s) : ∃ front, s.readyQueue = front ++ s.executeReady.2.readyQueue ∧
    s.ran.Sublist front ∧ (s.readyQueue ≠ [] → s.executeReady.2.readyQueue.length < s.readyQueue.length) := by
  rcases executeReady_cases s with ⟨hq, he⟩ | ⟨waitId, queue, hq, -, he⟩ | ⟨waitId, queue, cb, hq, hcb, he⟩
  · exact ⟨[], by rw [he]; rfl, by simp [ran, he], fun hne => absurd hq hne⟩
  · exact ⟨[waitId], by rw [he, hq]; rfl, by simp [ran, he], fun _ => by rw [he, hq]; exact Nat.lt_succ_self _⟩
  · obtain ⟨hid, -⟩ := h.callback _ _ hcb
    refine ⟨[waitId], by rw [he, hq]; rfl, ?_, fun _ => by rw [he, hq]; exact Nat.lt_succ_self _⟩
    simp [ran, he, hid]

theorem calls_queue (hc : ∀ l ∈ calls, l.byCallback = true) :
    (Machine.run (step H) s calls).readyQueue = s.readyQueue ++ soonIds H s calls := by
  induction calls generalizing s with
  | nil => exact (List.append_nil _).symm
  | cons l calls ih =>
    rw [Machine.run_cons, ih fun l' h' => hc l' (List.mem_cons_of_mem l h'), step_queue (hc l List.mem_cons_self),
      List.append_assoc]
    rfl

theorem calls_next (hc : ∀ l ∈ calls, l.byCallback = true) :
    s.nextWaitId ≤ (Machine.run (step H) s calls).nextWaitId := by
  induction calls generalizing s with
  | nil => exact le_rfl
  | cons l calls ih =>
    exact (next_le_step _ _).trans (ih fun l' h' => hc l' (List.mem_cons_of_mem l h'))

theorem calls_inv (h : Inv s) (calls : List (Label κ)) : Inv (Machine.run (step H) s calls) :=
  Machine.inv_run_of_step (I := Inv) (fun _ l h => step_inv h l) h _

theorem round_inv (h : Inv s) (calls : List (Label κ)) : Inv (s.round H calls) := calls_inv (executeReady_inv h) calls

/-- a callback that is gone is neither executed nor cancelled any more -/
theorem gone_fate (hinv : Inv s) (h : Gone w s) (hp : Machine.Along (round H) InPass s pass) :
    w ∉ executed H s pass ∧ ¬ Withdrawn H w s pass ∧ Gone w (Machine.run (round H) s pass) := by
  induction pass generalizing s with
  | nil => exact ⟨List.not_mem_nil, id, h⟩
  | cons calls pass ih =>
    have hran : w ∉ s.ran := fun hr => h.none (pending_of_ran hinv hr).1
    have hgone : Gone w s.executeReady.2 :=
      ⟨by rw [(executeReady_rest s).1]; exact h.given, fun hp' => h.none ((executeReady_pending hinv).1 hp').1⟩
    obtain ⟨hno, hround⟩ := calls_gone (H := H) hgone hp.1.calls
    obtain ⟨h1, h2, h3⟩ := ih (round_inv hinv calls) hround hp.2
    exact ⟨fun hw => (List.mem_append.1 hw).elim hran h1, fun hw => hw.elim hno h2, h3⟩

/-- a callback that waits is executed, or else cancelled or still waiting -/
theorem waiting_fate (hinv : Inv s) (h : Waiting w s) (hp : Machine.Along (round H) InPass s pass) :
    w ∈ executed H s pass ∧ ¬ (Withdrawn H w s pass ∨ Waiting w (Machine.run (round H) s pass)) ∨
      w ∉ executed H s pass ∧ (Withdrawn H w s pass ∨ Waiting w (Machine.run (round H) s pass)) := by
  induction pass generalizing s with
  | nil => exact .inr ⟨List.not_mem_nil, .inr h⟩
  | cons calls pass ih =>
    have hinv' := round_inv (H := H) hinv calls
    have hlt := hinv.pending_lt h.pending
    by_cases hran : w ∈ s.ran
    · have hgone : Gone w s.executeReady.2 :=
        ⟨by rw [(executeReady_rest s).1]; exact hlt, fun hp' => ((executeReady_pending hinv).1 hp').2 hran⟩
      obtain ⟨hno, hround⟩ := calls_gone (H := H) hgone hp.1.calls
      obtain ⟨-, h2, h3⟩ := gone_fate hinv' hround hp.2
      exact .inl ⟨List.mem_append_left _ hran, fun hw => hw.elim (fun hw => hw.elim hno h2) fun hw => h3.none hw.pending⟩
    · have hpending : s.executeReady.2.Pending w := (executeReady_pending hinv).2 ⟨h.pending, hran⟩
      have hqueued : w ∈ s.executeReady.2.readyQueue := by
        rcases executeReady_cases s with ⟨hq, -⟩ | ⟨waitId, queue, hq, hcb, he⟩ | ⟨waitId, queue, cb, hq, hcb, he⟩
        · have hnil := h.queued
          rw [hq] at hnil
          cases hnil
        all_goals
          have hmem := h.queued
          rw [hq] at hmem
          rw [he]
          refine (List.mem_cons.1 hmem).resolve_left ?_
          rintro rfl
        · obtain ⟨cb, hcb'⟩ := h.pending
          cases hcb.symm.trans hcb'
        · obtain ⟨hid, -⟩ := hinv.callback _ _ hcb
          exact hran (by simp [ran, he, hid])
      rcases calls_waiting (H := H) (executeReady_inv hinv) ⟨hqueued, hpending⟩ hp.1.calls with ⟨h1, h2⟩ | ⟨h1, h2⟩
      · obtain ⟨hno, -, -⟩ := gone_fate hinv' h2 hp.2
        exact .inr ⟨fun hw => (List.mem_append.1 hw).elim hran hno, .inl (.inl h1)⟩
      · rcases ih hinv' h2 hp.2 with ⟨hex, hfate⟩ | ⟨hex, hfate⟩
        · refine .inl ⟨List.mem_append_right _ hex, fun hw => hfate ?_⟩
          exact hw.imp_left fun hw => hw.resolve_left h1
        · exact .inr ⟨fun hw => (List.mem_append.1 hw).elim hran hex, hfate.imp_left .inr⟩

theorem le_of_mem_registered (hp : Machine.Along (round H) InPass s pass) (hw : w ∈ registered H s pass) :
    s.nextWaitId ≤ w := by
  induction pass generalizing s with
  | nil => cases hw
  | cons calls pass ih =>
    have hnext := (executeReady_rest s).1
    rcases List.mem_append.1 hw with hw | hw
    · exact hnext.ge.trans (le_of_mem_soonIds hp.1.calls hw)
    · have hcalls := calls_next (H := H) (s := s.executeReady.2) hp.1.calls
      exact hnext.ge.trans (hcalls.trans (ih hp.2 hw))

/-- **What a pass registers** with call_soon it executes, unless it is cancelled or its turn has not come -/
theorem registered_fate (hinv : Inv s) (hp : Machine.Along (round H) InPass s pass) (hw : w ∈ registered H s pass) :
    w ∈ executed H s pass ∧ ¬ (Withdrawn H w s pass ∨ Waiting w (Machine.run (round H) s pass)) ∨
      w ∉ executed H s pass ∧ (Withdrawn H w s pass ∨ Waiting w (Machine.run (round H) s pass)) := by
  have hle := le_of_mem_registered hp hw
  induction pass generalizing s with
  | nil => cases hw
  | cons calls pass ih =>
    have hinv' := round_inv (H := H) hinv calls
    have hran : w ∉ s.ran := fun hr => absurd (hinv.pending_lt (pending_of_ran hinv hr).1) (not_lt.2 hle)
    rcases List.mem_append.1 hw with hw | hw
    · rcases calls_soon (H := H) (executeReady_inv hinv) hp.1.calls hw with ⟨h1, h2⟩ | ⟨h1, h2⟩
      · obtain ⟨hno, -, -⟩ := gone_fate hinv' h2 hp.2
        exact .inr ⟨fun hw => (List.mem_append.1 hw).elim hran hno, .inl (.inl h1)⟩
      · rcases waiting_fate hinv' h2 hp.2 with ⟨hex, hfate⟩ | ⟨hex, hfate⟩
        · refine .inl ⟨List.mem_append_right _ hex, fun hw => hfate ?_⟩
          exact hw.imp_left fun hw => hw.resolve_left h1
        · exact .inr ⟨fun hw => (List.mem_append.1 hw).elim hran hex, hfate.imp_left .inr⟩
    · have hle' := le_of_mem_registered hp.2 hw
      have hno : ¬ WithdrawnBy H w s.executeReady.2 calls := by
        -- the calls of this round end before the id is given
        have hbefore : ∀ (calls : List (Label κ)) (t : Eventloop κ), Inv t → (∀ l ∈ calls, l.byCallback = true) →
            (Machine.run (step H) t calls).nextWaitId ≤ w → ¬ WithdrawnBy H w t calls := by
          intro calls
          induction calls with
          | nil => exact fun _ _ _ _ => id
          | cons l calls ih =>
            intro t ht hc hend hwith
            have hcalls : ∀ l' ∈ calls, l'.byCallback = true := fun l' h' => hc l' (List.mem_cons_of_mem l h')
            rcases hwith with hwith | hwith
            · have hlt := ht.pending_lt hwith.1
              have hstep := next_le_step (H := H) t l
              have hrest := calls_next (H := H) (s := t.step H l) hcalls
              rw [Machine.run_cons] at hend
              omega
            · exact ih (t.step H l) (step_inv ht l) hcalls hend hwith
        exact hbefore calls _ (executeReady_inv hinv) hp.1.calls hle'
      rcases ih hinv' hp.2 hw hle' with ⟨hex, hfate⟩ | ⟨hex, hfate⟩
      · refine .inl ⟨List.mem_append_right _ hex, fun hw => hfate ?_⟩
        exact hw.imp_left fun hw => hw.resolve_left hno
      · exact .inr ⟨fun hw => (List.mem_append.1 hw).elim hran hex, hfate.imp_left .inr⟩

/-- what a pass executes has been in the queue, or is registered in it, in this order -/
theorem executed_sublist (hinv : Inv s) (hp : Machine.Along (round H) InPass s pass) :
    (executed H s pass).Sublist (s.readyQueue ++ registered H s pass) := by
  induction pass generalizing s with
  | nil => exact List.nil_sublist _
  | cons calls pass ih =>
    obtain ⟨front, hq, hran, -⟩ := executeReady_queue hinv
    have hqueue : (s.round H calls).readyQueue = s.executeReady.2.readyQueue ++ soonIds H s.executeReady.2 calls :=
      calls_queue hp.1.calls
    have hrest := ih (round_inv hinv calls) hp.2
    rw [hqueue, List.append_assoc] at hrest
    rw [hq, List.append_assoc]
    exact hran.append hrest

theorem executed_length (hinv : Inv s) (hp : Machine.Along (round H) InPass s pass)
    (h : ∀ w ∈ registered H s pass, w ∉ executed H s pass) : (executed H s pass).length ≤ s.readyQueue.length := by
  have hsub := (executed_sublist hinv hp).filter (· ∉ registered H s pass)
  have hall : (executed H s pass).filter (· ∉ registered H s pass) = executed H s pass :=
    List.filter_eq_self.2 fun w hw => by simpa using fun hr => h w hr hw
  have hnone : (registered H s pass).filter (· ∉ registered H s pass) = [] :=
    List.filter_eq_nil_iff.2 fun w hw => by simpa using hw
  rw [hall, List.filter_append, hnone, List.append_nil] at hsub
  exact hsub.length_le.trans (List.length_filter_le _ _)

/-- **The next iteration**: a pass of execute_ready_callback leaves to it what its callbacks register with call_soon
exactly if all of that is cancelled before its turn; what waits at the end of a pass that has not ended has not had its
turn -/
theorem next_iteration_iff (H : HeapAlgorithms) (ls : List (Label κ)) {pass : List (List (Label κ))}
    (hp : Machine.Along (round H) InPass (Machine.run (step H) make ls) pass) :
    NextIteration H (Machine.run (step H) make ls) pass ↔
      ∀ w ∈ registered H (Machine.run (step H) make ls) pass,
        Withdrawn H w (Machine.run (step H) make ls) pass ∨
          Waiting w (Machine.run (round H) (Machine.run (step H) make ls) pass) := by
  have hinv : Inv (Machine.run (step H) make ls) := run_inv ls
  constructor
  · intro h w hw
    rcases registered_fate hinv hp hw with ⟨hex, -⟩ | ⟨-, hfate⟩
    · exact absurd hex (h.deferred w hw)
    · exact hfate
  · intro h
    have hdeferred : ∀ w ∈ registered H (Machine.run (step H) make ls) pass,
        w ∉ executed H (Machine.run (step H) make ls) pass := by
      intro w hw
      rcases registered_fate hinv hp hw with ⟨-, hno⟩ | ⟨hex, -⟩
      · exact absurd (h w hw) hno
      · exact hex
    exact ⟨hdeferred, executed_length hinv hp hdeferred⟩

/-- a callback registers another one and cancels it -/
theorem next_iteration_cancelled :
    NextIteration sortedHeap (Machine.run (step sortedHeap) (make : Eventloop ℕ) [.callSoon 1 7])
      [[.callSoon 2 8, .cancelWait 1], []] := by
  have hp : Machine.Along (round sortedHeap) InPass (Machine.run (step sortedHeap) (make : Eventloop ℕ) [.callSoon 1 7])
      [[.callSoon 2 8, .cancelWait 1], []] :=
    ⟨⟨by decide, by decide, by decide⟩, ⟨by decide, by decide, by decide⟩, trivial⟩
  refine (next_iteration_iff sortedHeap _ hp).2 ?_
  intro w hw
  obtain rfl : w = 1 := by
    have hids : registered sortedHeap (Machine.run (step sortedHeap) (make : Eventloop ℕ) [.callSoon 1 7])
        [[.callSoon 2 8, .cancelWait 1], []] = [1] := by decide
    rw [hids] at hw
    exact List.mem_singleton.1 hw
  exact .inl (.inl (.inr (.inl ⟨⟨⟨2, 1, 8⟩, by decide⟩, rfl⟩)))

/-! ## A pass without end -/

/-- one callback is ready, the one that has been registered last -/
structure Lone (k : ℕ) (s : Eventloop ℕ) : Prop where
  queue : s.readyQueue = [k]
  next : s.nextWaitId = k + 1
  callback : s.waitCallback.lookup k = some ⟨1, k, 7⟩

/-- it registers itself again -/
theorem Lone.round {k : ℕ} {s : Eventloop ℕ} (h : Lone k s) :
    InPass s [.callSoon 1 7] ∧ s.ran = [k] ∧ Lone (k + 1) (s.round sortedHeap [.callSoon 1 7]) := by
  have he : s.executeReady = (some ⟨1, k, 7⟩, { s with
      readyQueue := []
      waitCallback := s.waitCallback.erase k
      coroWaits := take 1 k s.coroWaits }) := by
    unfold executeReady
    simp only [h.queue, h.callback]
  refine ⟨⟨?_, ?_, by decide⟩, ?_, ?_, ?_, ?_⟩
  · rw [h.queue]
    exact List.cons_ne_nil _ _
  · intro hn
    rw [he] at hn
    cases hn
  · simp [ran, he]
  · simp [Eventloop.round, he, step, callSoon, h.next]
  · simp [Eventloop.round, he, step, callSoon, enlist, h.next]
  · simp only [Eventloop.round, he, Machine.run_cons, Machine.run_nil, step, callSoon, enlist, h.next]
    exact Finmap.lookup_insert _

theorem Lone.endless {k : ℕ} {s : Eventloop ℕ} (h : Lone k s) (n : ℕ) :
    Machine.Along (Eventloop.round sortedHeap) InPass s (List.replicate n [.callSoon 1 7]) ∧
      (executed sortedHeap s (List.replicate n [.callSoon 1 7])).length = n := by
  induction n generalizing k s with
  | zero => exact ⟨trivial, rfl⟩
  | succ n ih =>
    obtain ⟨hin, hran, hnext⟩ := h.round
    obtain ⟨halong, hlen⟩ := ih hnext
    refine ⟨⟨hin, halong⟩, ?_⟩
    simp only [List.replicate_succ, executed, hran, List.length_append, List.length_singleton, hlen]
    omega

/-- one callback is ready and registers itself with call_soon: it is executed in the same pass, as often as one likes -/
theorem endless_pass :
    let s := Machine.run (step sortedHeap) (make : Eventloop ℕ) [.callSoon 1 7]
    ¬ NextIteration sortedHeap s [[.callSoon 1 7], []] ∧
      ∀ n, Machine.Along (round sortedHeap) InPass s (List.replicate n [.callSoon 1 7]) ∧
        (executed sortedHeap s (List.replicate n [.callSoon 1 7])).length = n := by
  intro s
  refine ⟨fun h => h.deferred 1 (by decide) (by decide), ?_⟩
  have hlone : Lone 0 s := ⟨by decide, by decide, by decide⟩
  exact hlone.endless

end MCoroRpc.Eventloop
