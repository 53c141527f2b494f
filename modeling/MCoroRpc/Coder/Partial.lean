/-
Incomplete frames: whole frames in the buffer, and behind them the beginning of one more.

What stands behind the write index is left over from earlier traffic, and the scan reads it: the length of a frame that
has just begun, and the byte at the write index itself. Bytes of the payload are read as frames of their own.

Main results:
- `partial_kept`: decode delivers the whole frames and keeps the beginning of the next, exactly if the scan finds no
  frame in what is left of the buffer behind them.
- `partial_not_kept`: two bytes behind a whole frame in a fresh buffer, and decode goes round for ever.
-/
import MCoroRpc.Coder.RoundTrip
import MCoroRpc.Coder.Scan

namespace MCoroRpc.TinyPB

open CInt TcpBuffer Result

/-- decode delivers the messages in order and leaves `p` to be read -/
def KeepsPartial (out ms : List TinyPBProtocol) (p : List UInt8) (b : TcpBuffer) : Prop :=
  ∃ b', Decodes out b (.ok (out ++ ms.map sent, b')) ∧ b'.WF ∧ b'.content = p

/-- every position on the whole frames is an `int`, and behind them there is nothing that reads like a frame -/
def Undisturbed (ms : List TinyPBProtocol) (b : TcpBuffer) : Prop :=
  PositionsFit b.size b.readIndex (lens ms) ∧ ∃ b', skip (lens ms) b = .ok b' ∧ Quiet .storage b'

/-- every frame that decode takes from here on declares a positive length -/
def PositiveFrames (mode : Mode) (s : List TinyPBProtocol × TcpBuffer) : Prop :=
  ∀ t, Loop.Reach (decodeTurn mode) s t → ∀ i j n, First mode t.2 i j n → 0 < n

section
variable {mode : Mode} {b b' : TcpBuffer} {p : List UInt8} {ms out out' : List TinyPBProtocol}

/-- a turn takes a positive number of bytes, or is refused and changes nothing -/
theorem turn_readAble (hpos : ∀ i j n, First mode b i j n → 0 < n)
    (h : Loop.Turn (decodeTurn mode) (out, b) (out', b')) : b' = b ∨ b'.readAble < b.readAble := by
  obtain ⟨i, j, n, o, hf, hmove, -, -⟩ := decodeTurn_turns.1 h
  rcases moveReadIndex_readAble hmove with ⟨h1, -⟩ | h1
  · exact .inl h1
  · have := hpos i j n hf
    exact .inr (by omega)

/-- with positive lengths, a loop that ends with as many readable bytes as it began with has not gone round -/
theorem quiet_of_ends (hpos : PositiveFrames mode (out, b)) (h : Loop.Ends (decodeTurn mode) (out, b) (.ok (out', b')))
    (hra : b'.readAble = b.readAble) : Quiet mode b := by
  by_cases hturn : ∃ s, Loop.Turn (decodeTurn mode) (out, b) s
  · exfalso
    obtain ⟨⟨out1, b1⟩, hturn⟩ := hturn
    rcases turn_readAble (hpos _ (Loop.Reach.refl _)) hturn with rfl | hlt
    · exact not_ends_of_refused hturn ⟨_, h⟩
    · -- from here on the number of readable bytes stays below
      have hinv : ∀ t u, (Loop.Reach (decodeTurn mode) (out, b) t ∧ t.2.readAble < b.readAble) →
          Loop.Turn (decodeTurn mode) t u → Loop.Reach (decodeTurn mode) (out, b) u ∧ u.2.readAble < b.readAble := by
        intro t u ⟨hr, ht⟩ htu
        refine ⟨hr.snoc htu, ?_⟩
        rcases turn_readAble (hpos t hr) htu with h1 | h1
        · rw [h1]; exact ht
        · omega
      obtain ⟨⟨out2, b2⟩, ⟨-, ht⟩, -, hno, hend⟩ := Loop.ends_inv hinv ((Loop.ends_turn hturn).1 h)
        ⟨(Loop.Reach.refl _).snoc hturn, hlt⟩
      obtain ⟨-, hret⟩ := decodeTurn_returns.1 (Loop.returns_of_ends hno hend)
      rw [← (Prod.mk.inj hret).2, hra] at ht
      exact lt_irrefl _ ht
  · exact (decodeTurn_returns.1 (Loop.returns_of_ends (fun s hs => hturn ⟨s, hs⟩) h)).1

end

section
variable {b : TcpBuffer} {p : List UInt8} {m : TinyPBProtocol} {ms : List TinyPBProtocol} (out : List TinyPBProtocol)

theorem partial_kept_of_undisturbed (hm : ∀ m ∈ ms, WithinLimits m) (hb : b.WF) (hc : b.content = wire ms ++ p)
    (h : Undisturbed ms b) : KeepsPartial out ms p b := by
  obtain ⟨hfit, b1, hskip, hquiet⟩ := h
  have hl : Layout b b.consumed (wire ms ++ p) b.rest := hc ▸ hb.layout
  rw [hl.read] at hfit
  obtain ⟨b', pre', post', hreach, hskip', hl', -, -⟩ := reach_wire out .storage hm hl hfit
  rw [hskip] at hskip'
  obtain rfl := Except.ok.inj hskip'
  exact ⟨b1, (Loop.ends_reach hreach).2 (Loop.ends_of_return (decodeTurn_returns.2 ⟨hquiet, rfl⟩)), hl'.wf,
    hl'.content_eq⟩

theorem undisturbed_of_partial_kept (hm : ∀ m ∈ ms, WithinLimits m) (hb : b.WF) (hc : b.content = wire ms ++ p)
    (hlens : ∀ n ∈ lens ms, n < 2147483648) (hk : b.readIndex < 4294967296)
    (hpos : PositiveFrames .storage (out, b)) (h : KeepsPartial out ms p b) : Undisturbed ms b := by
  obtain ⟨b', hd, hwf, hcont⟩ := h
  have hl : Layout b b.consumed (wire ms ++ p) b.rest := hc ▸ hb.layout
  have hpre := hl.read
  by_cases hfit : PositionsFit b.size b.consumed.length (lens ms)
  · obtain ⟨b1, pre1, post1, hreach, hskip, hl1, -, -⟩ := reach_wire out .storage hm hl hfit
    refine ⟨by rw [hpre]; exact hfit, b1, hskip, ?_⟩
    apply quiet_of_ends (fun t ht => hpos t (hreach.trans ht)) ((Loop.ends_reach hreach).1 hd)
    rw [hl1.readAble_eq, hwf.layout.readAble_eq, hcont]
  · obtain ⟨e, he⟩ := decode_faults out hm hl hlens (by omega) hfit
    exact absurd (Loop.Ends.unique he hd) (by simp)

/-- **Incomplete trailing frame**: it is kept, behind the messages of the whole frames, exactly if nothing that is left
in the buffer reads like a frame -/
theorem partial_kept {k : ℕ} (hm : ∀ m ∈ ms, WithinLimits m) (hb : b.WF)
    (hc : b.content = wire ms ++ (frame (withId m)).take k) :
    (Undisturbed ms b → KeepsPartial out ms ((frame (withId m)).take k) b) ∧
      ((∀ n ∈ lens ms, n < 2147483648) → b.readIndex < 4294967296 → PositiveFrames .storage (out, b) →
        KeepsPartial out ms ((frame (withId m)).take k) b → Undisturbed ms b) :=
  ⟨partial_kept_of_undisturbed out hm hb hc, undisturbed_of_partial_kept out hm hb hc⟩

end

/-- one whole frame, the first `k` bytes of another and zeros -/
def begun (k : ℕ) : TcpBuffer :=
  ⟨frame (withId {}) ++ ((frame (withId {})).take k ++ List.replicate (115 - k) 0), 0, 35 + k⟩

theorem begun_layout {k : ℕ} (hk : k ≤ 35) :
    Layout (begun k) [] (wire [{}] ++ (frame (withId {})).take k) (List.replicate (115 - k) 0) := by
  have hlen : (frame (withId {})).length = 35 := by decide
  refine ⟨by simp [begun], rfl, ?_⟩
  simp only [begun, wire_cons, wire_nil, List.append_nil, List.length_append, List.length_take, hlen, List.length_nil]
  omega

set_option maxRecDepth 4096 in
theorem partial_kept_ten : KeepsPartial [] [{}] ((frame (withId {})).take 10) (begun 10) := by
  have hl := begun_layout (k := 10) (by decide)
  refine (partial_kept [] ?_ hl.wf hl.content_eq).1 ⟨?_, { begun 10 with readIndex := 35 }, by decide, ?_⟩
  · intro m hm
    rw [List.mem_singleton.1 hm]
    exact ⟨by decide, by decide, by decide, by decide, by decide, by decide, by decide⟩
  · exact positionsFit_of_sum (by decide) (by decide)
  · exact scan_quiet.1 (by decide)

/-- the two bytes read as a frame of length zero that ends with the END of the whole frame -/
theorem partial_not_kept :
    WF (begun 2) ∧ (begun 2).content = wire [{}] ++ (frame (withId {})).take 2 ∧
      ¬ KeepsPartial [] [{}] ((frame (withId {})).take 2) (begun 2) := by
  have hl := begun_layout (k := 2) (by decide)
  refine ⟨hl.wf, hl.content_eq, ?_⟩
  intro ⟨b', hd, _⟩
  have h1 : Loop.Turn (decodeTurn .storage) ([], begun 2) ([sent {}], { begun 2 with readIndex := 35 }) := by
    unfold Loop.Turn; decide +kernel
  have h2 : Loop.Turn (decodeTurn .storage) ([sent {}], { begun 2 with readIndex := 35 })
      ([sent {}], { begun 2 with readIndex := 35 }) := by
    unfold Loop.Turn; decide +kernel
  exact Loop.not_ends_of_fixed h2 ⟨_, (Loop.ends_turn h1).1 hd⟩

end MCoroRpc.TinyPB
