/-
The order in which the values of an open Channel are received.

A send takes effect when its value is buffered, queued with a waiting writer or handed to a waiting reader (`effects`).
recv, tryRecv and pushReader look at the waiting writers before they look at the buffer; a writer waits only behind a
full buffer, so its value overtakes all values in the buffer.

- `Queue`: while no receiver has found both, what has taken effect and has not been received is the buffer and, behind
  it, the waiting writers.
- `received_in_order_iff`: the values are received in order in every state of a run exactly if no receiver finds values
  in the buffer and a waiting writer.
-/
import MCoroRpc.Coro.Conservation

namespace MCoroRpc.Channel

variable {T : Type}

/-- no receiver has got a value before one whose send has taken effect earlier -/
def InOrder (s : System T) : Prop := ∀ a b, [a, b].Sublist s.effects → b ∈ s.obtained → a ∈ s.obtained

/-- the next step of the operation receives -/
inductive Op.Receives : Op T → Prop where
  | recv : Op.Receives ⟨.recv, .entry⟩
  | pushReader : Op.Receives ⟨.recv, .push⟩
  | tryRecv : Op.Receives ⟨.tryRecv, .entry⟩

/-- no receiver finds values in the buffer and a waiting writer -/
def Orderly (s : System T) (l : Label T) : Prop :=
  ∀ i op, l = .go i → s.ops[i]? = some op → op.Receives → s.chan.buffer = [] ∨ s.chan.writers = []

structure Queue (s : System T) : Prop where
  law : Law s
  shape : Shape s.chan
  queue : s.effects = s.obtained ++ (s.chan.buffer ++ s.chan.writers)

section
variable {s s' : System T} {i : ℕ}

theorem Queue.nodup (h : Queue s) : (s.obtained ++ (s.chan.buffer ++ s.chan.writers)).Nodup := by
  rw [← h.queue, ← Multiset.coe_nodup, h.law.effects]
  exact accepted_nodup s.ops

theorem Queue.inOrder (h : Queue s) : InOrder s := by
  intro a b hab hb
  rw [h.queue] at hab
  obtain ⟨l1, l2, he, h1, h2⟩ := List.sublist_append_iff.1 hab
  cases l1 with
  | nil =>
    -- both wait, so the later one has not been received
    rw [List.nil_append] at he
    have hb2 : b ∈ s.chan.buffer ++ s.chan.writers := h2.subset (by rw [← he]; simp)
    exact absurd hb2 (List.disjoint_of_nodup_append h.nodup hb)
  | cons c l1 =>
    obtain rfl : a = c := (List.cons.inj he).1
    exact h1.subset List.mem_cons_self

theorem Gets.receives {c : Channel T} {x : Item T} {call : Call T} {pc : Pc T} {o : Outcome T} {got : List (Item T)}
    {log : List ℕ} (h : Gets c i x call pc o got log) : Op.Receives (⟨call, pc⟩ : Op T) := by
  cases h with
  | recv => exact .recv
  | tryRecv => exact .tryRecv
  | pushReader => exact .pushReader

/-- **Order**: one step -/
theorem move_queue (h : Queue s) (hm : Move s i s')
    (hbehind : ∀ op, s.ops[i]? = some op → op.Receives → s.chan.buffer = [] ∨ s.chan.writers = []) : Queue s' := by
  have hlaw := move_law h.law hm
  have hshape := move_shape h.shape hm
  have hact := h.law.isActive
  have hq := h.queue
  cases hm with
  | idle => exact h
  | own hop ho => exact ⟨hlaw, hshape, hq⟩
  | handed hop hs hr =>
    obtain ⟨hb, hw⟩ := h.shape.of_reader hr
    refine ⟨hlaw, hshape, ?_⟩
    rw [hb, hw, List.append_nil, List.append_nil] at hq
    simp only [hq, hact, kept, if_true, hb, hw, List.append_nil]
  | buffered hop hs hr hlt =>
    have hw := h.shape.of_room hlt
    refine ⟨hlaw, hshape, ?_⟩
    simp only [hq, hw, List.append_nil, List.append_assoc]
  | queued hop hr hle =>
    refine ⟨hlaw, hshape, ?_⟩
    simp only [hq, List.append_assoc]
  | fromWriter hop hg hw =>
    have hb := (hbehind _ hop hg.receives).resolve_right (by rw [hw]; exact List.cons_ne_nil _ _)
    refine ⟨hlaw, hshape, ?_⟩
    simp only [hq, (hg.handed hact).2.2, hb, hw, List.nil_append, List.append_assoc, List.singleton_append]
  | fromBuffer hop hg hw hb =>
    refine ⟨hlaw, hshape, ?_⟩
    simp only [hq, (hg.handed hact).2.2, hb, hw, List.append_nil, List.append_assoc, List.singleton_append]
  | blocked hop hw hb => exact ⟨hlaw, hshape, hq⟩
  | closed hop ha => exact absurd rfl (h.law.calls i _ hop).1
  | cleared hop hc =>
    cases hc with
    | cancelAllAwaiters => exact absurd rfl (h.law.calls i _ hop).2
    | cleanup => exact absurd rfl (h.law.calls i _ hop).1

theorem step_queue (h : Queue s) {l : Label T} (hl : l.Open) (ho : Orderly s l) : Queue (s.step l) := by
  cases l with
  | start call => exact ⟨step_law h.law hl, h.shape, h.queue⟩
  | go i => exact move_queue h (advance_move s i) fun op hop hr => ho i op rfl hop hr

/-- a receiver takes the value of the front writer -/
theorem advance_writer {op : Op T} (hop : s.ops[i]? = some op) (hr : op.Receives) (hact : s.chan.isActive = true)
    {w : Item T} {ws : List (Item T)} (hw : s.chan.writers = w :: ws) :
    (s.advance i).effects = s.effects ∧ (s.advance i).obtained = s.obtained ++ [w] := by
  cases hr with
  | recv =>
    simp only [System.advance, hop, System.recv, take_writer hw]
    exact ⟨rfl, rfl⟩
  | tryRecv =>
    simp only [System.advance, hop, System.tryRecv, take_writer hw]
    exact ⟨rfl, rfl⟩
  | pushReader =>
    simp only [System.advance, hop, System.pushReader, take_writer hw, System.release, System.resume,
      System.resumeWithValue, System.finish, System.moveTo, hact, kept, if_true]
    exact ⟨trivial, trivial⟩

/-- the value of a waiting writer overtakes the front of the buffer -/
theorem step_overtakes (h : Queue s) {l : Label T} (ho : ¬ Orderly s l) : ¬ InOrder (s.step l) := by
  simp only [Orderly, not_forall, not_or] at ho
  obtain ⟨i, op, rfl, hop, hr, hb, hw⟩ := ho
  obtain ⟨x, xs, hb⟩ := List.exists_cons_of_ne_nil hb
  obtain ⟨w, ws, hw⟩ := List.exists_cons_of_ne_nil hw
  obtain ⟨heff, hobt⟩ := advance_writer hop hr h.law.isActive hw
  intro hin
  have hnodup := h.nodup
  rw [hb, hw] at hnodup
  have hsub : [x, w].Sublist s.effects := by
    rw [h.queue, hb, hw]
    refine List.Sublist.trans ?_ (List.sublist_append_right _ _)
    rw [List.cons_append]
    exact ((List.nil_sublist ws).cons_cons w).trans (List.sublist_append_right xs _) |>.cons_cons x
  have hgot := hin x w (by rw [System.step, heff]; exact hsub) (by rw [System.step, hobt]; simp)
  rw [System.step, hobt, List.mem_append, List.mem_singleton] at hgot
  rcases hgot with hgot | rfl
  · exact List.disjoint_of_nodup_append hnodup hgot (by simp)
  · have hbw := (List.nodup_append.1 hnodup).2.1
    exact List.disjoint_of_nodup_append hbw List.mem_cons_self List.mem_cons_self

end

theorem init_queue (capacity : ℕ) : Queue (init capacity : System T) :=
  ⟨run_law capacity (fun _ hl => absurd hl List.not_mem_nil), Shape.make capacity, rfl⟩

/-- **Order**: the values are received in order in every state of a run exactly if no receiver finds values in the
buffer and a waiting writer -/
theorem received_in_order_iff (capacity : ℕ) (ls : List (Label T)) (hopen : ∀ l ∈ ls, l.Open) :
    (∀ n, InOrder (Machine.run System.step (init capacity) (ls.take n))) ↔
      Machine.Along System.step Orderly (init capacity) ls := by
  refine Machine.along_iff (L := Label.Open) (I := Queue) (fun _ h => h.inOrder) ?_ ?_ (init_queue capacity) hopen
  · intro s l hl h ho
    exact step_queue h hl ho
  · intro s l _ h ho
    exact step_overtakes h ho

theorem orderly_of_writers {s : System T} (h : s.chan.writers = []) (l : Label T) : Orderly s l :=
  fun _ _ _ _ _ => .inr h

/-- two values are buffered and received -/
def handingOn : List (Label ℕ) :=
  [.start (.send 7), .go 0, .go 0, .start (.send 8), .go 1, .go 1, .start .recv, .go 2, .start .recv, .go 3]

theorem received_in_order_two : InOrder (Machine.run System.step (init 2) handingOn) :=
  (received_in_order_iff 2 handingOn (by simp [handingOn, Label.Open])).2 ⟨orderly_of_writers rfl _,
    orderly_of_writers rfl _, orderly_of_writers rfl _, orderly_of_writers rfl _, orderly_of_writers rfl _,
    orderly_of_writers rfl _, orderly_of_writers rfl _, orderly_of_writers rfl _, orderly_of_writers rfl _,
    orderly_of_writers rfl _, trivial⟩ 10

/-- capacity 1: the value 1 is in the buffer and a sender waits with 2; the receiver gets 2 -/
def overtaking : List (Label ℕ) :=
  [.start (.send 1), .go 0, .go 0, .start (.send 2), .go 1, .go 1, .go 1, .start .recv, .go 2]

theorem received_out_of_order :
    (∀ l ∈ overtaking, l.Open) ∧ ¬ InOrder (Machine.run System.step (init 1) overtaking) := by
  refine ⟨by simp [overtaking, Label.Open], ?_⟩
  intro h
  have hgot := h ⟨0, 1⟩ ⟨1, 2⟩ (by decide) (by decide)
  exact absurd hgot (by decide)

end MCoroRpc.Channel
