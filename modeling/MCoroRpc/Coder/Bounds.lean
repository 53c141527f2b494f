/-
Hostile input: what the bytes have to be for every read of decode to stay between the indices of the buffer and for
every field to fit its array.

`InBounds` says it of one buffer, by the lengths that its first frame declares; in `readable` mode decode checks it on
the way and stops in a fault otherwise.

Main results:
- `decodeTurn_succeeds`: a turn keeps to the bounds exactly if the buffer is `InBounds`.
- `decode_in_bounds`: decode does exactly if every buffer that the run comes to is.
- `decode_refines`: what decode gives under these checks, it gives on the machine.
- `decode_out_of_bounds`: a START as the last but one byte is enough to leave the readable bytes.
-/
import MCoroRpc.Coder.Scan

namespace MCoroRpc.TinyPB

open CInt TcpBuffer Result

/-- the length that a field declares at `k` -/
def lenAt (b : TcpBuffer) (k : ℤ) : ℤ := ofNet (b.bytes k 4)

/-- where the next field starts -/
def behind (b : TcpBuffer) (k : ℤ) : ℤ := k + 4 + lenAt b k

/-- length and string of a field lie between the indices, and the string fits an array of `cap` bytes with its NUL -/
structure FieldFits (b : TcpBuffer) (cap k : ℤ) : Prop where
  length : Inside .readable b k 4
  nonneg : 0 ≤ lenAt b k
  room : lenAt b k < cap
  body : Inside .readable b (k + 4) (lenAt b k)
  int : IsInt (behind b k)

/-- the fields of a frame that starts at `i`, ends at `j` and declares the length `n`; nothing is read behind a position
that falls on the end of the frame -/
def FieldsFit (b : TcpBuffer) (i j n : ℤ) : Prop :=
  IsInt (i + 5) ∧ (i + 5 < j → FieldFits b 100 (i + 5) ∧
    let k1 := behind b (i + 5)
    (k1 < j → FieldFits b 512 k1 ∧
      let k2 := behind b k1
      (k2 < j → Inside .readable b k2 4 ∧ IsInt (k2 + 4) ∧
        (k2 + 4 < j → FieldFits b 512 (k2 + 4) ∧
          let m := n - lenAt b (k2 + 4) - lenAt b (i + 5) - lenAt b k1 - 26
          0 ≤ m ∧ Inside .readable b (behind b (k2 + 4)) m))))

/-- the scan finds no frame, or one whose fields fit -/
def InBounds (b : TcpBuffer) : Prop :=
  Quiet .readable b ∨ ∃ i j n, First .readable b i j n ∧ FieldsFit b i j n

section
variable {b b' : TcpBuffer} {i j k n cap : ℤ} {out : List TinyPBProtocol}

theorem loadInt_eq_ok {mode : Mode} {x : ℤ} : loadInt mode b k = .ok x ↔ Inside mode b k 4 ∧ lenAt b k = x := by
  rw [loadInt_eq, lenAt]
  split_ifs with h
  · simp only [Except.ok.injEq, h, true_and]
  · simp only [h, false_and]

theorem addInt_eq_ok {x y z : ℤ} : addInt x y = .ok z ↔ IsInt (x + y) ∧ z = x + y := by
  by_cases h : IsInt (x + y)
  · simp only [addInt_ok h, Except.ok.injEq, h, true_and, eq_comm]
  · simp only [addInt_overflow h, reduceCtorEq, h, false_and]

/-- nothing is read before the readable bytes -/
theorem loadInt_negative (hr : 0 ≤ b.readIndex) (hk : k < 0) : ∃ e, loadInt .readable b k = .error e := by
  have h : ¬ Inside .readable b k 4 := by simp only [Inside]; omega
  exact ⟨_, by rw [loadInt_eq, if_neg h]⟩

theorem copyField_succeeds : Succeeds (copyField .readable b cap k n) ↔
    0 ≤ n ∧ n < cap ∧ (n = 0 ∨ Inside .readable b k n) := by
  simp only [copyField, room]
  by_cases h1 : n < 0 ∨ cap < n + 1
  · simp only [h1, if_true, throw_error, error_bind, not_succeeds_error, false_iff]
    omega
  · have h2 : ¬ (n = cap ∧ 0 ∉ b.bytes k n) := by omega
    by_cases h3 : n = 0 ∨ Inside .readable b k n
    · simp only [h1, if_false, load, h3, if_true, ok_bind, h2, pure_ok, succeeds_ok, true_iff]
      exact ⟨by omega, by omega, trivial⟩
    · simp only [h1, if_false, load, h3, error_bind, not_succeeds_error, and_false]

/-- narrowing a position moves it before the readable bytes or not at all -/
theorem toInt_add {c : ℤ} (hk : IsInt k) (h0 : 0 ≤ c) (hc : c < 2147483648) :
    IsInt (k + c) ∧ toInt (k + c) = k + c ∨ 2147483648 ≤ k + c ∧ toInt (k + c) < 0 := by
  unfold IsInt at hk
  by_cases h : k + c < 2147483648
  · have hi : IsInt (k + c) := ⟨by omega, h⟩
    exact .inl ⟨hi, toInt_of_isInt hi⟩
  · rw [toInt_neg (by omega) (by omega)]
    exact .inr ⟨by omega, by omega⟩

/-- a field is read exactly if it fits, provided that what follows does not go on before the readable bytes -/
theorem lenField_succeeds {β : Type} {f : ℤ × List UInt8 × ℤ → Except Fault β} {P : Prop}
    (hr : 0 ≤ b.readIndex) (hk : IsInt k) (hneg : 2147483648 ≤ k + 4 → ∀ s x, x < 0 → ¬ Succeeds (f (0, s, x)))
    (hf : ∀ s, FieldFits b cap k → (Succeeds (f (lenAt b k, s, behind b k)) ↔ P)) :
    Succeeds (lenField .readable b cap k >>= f) ↔ FieldFits b cap k ∧ P := by
  constructor
  · intro ⟨r, h⟩
    obtain ⟨⟨len, s, next⟩, h, hres⟩ := bind_eq_ok.1 h
    simp only [lenField, bind_eq_ok, pure_ok, Except.ok.injEq, Prod.mk.injEq] at h
    obtain ⟨_, h1, _, h2, _, h3, rfl, rfl, rfl⟩ := h
    obtain ⟨hin, rfl⟩ := loadInt_eq_ok.1 h1
    obtain ⟨h0, hcap, hbody⟩ := copyField_succeeds.1 ⟨_, h2⟩
    obtain ⟨hint, rfl⟩ := addInt_eq_ok.1 h3
    rcases toInt_add (c := 4) hk (by omega) (by omega) with ⟨-, heq⟩ | ⟨hbig, hlt⟩
    · rw [heq] at hbody hint hres
      have hfit : FieldFits b cap k := by
        refine ⟨hin, h0, hcap, ?_, hint⟩
        rcases hbody with hz | hin'
        · rw [hz]
          exact ⟨by have := hin.1; omega, by have := hin.2; omega⟩
        · exact hin'
      exact ⟨hfit, (hf _ hfit).1 ⟨_, hres⟩⟩
    · exfalso
      -- the position wrapped to one before the readable bytes: nothing can be copied from there
      have hz : lenAt b k = 0 := by
        rcases hbody with hz | hin'
        · exact hz
        · have h4 := hin'.1
          omega
      rw [hz, add_zero] at hres
      exact hneg hbig _ _ hlt ⟨_, hres⟩
  · intro ⟨hfit, hp⟩
    have hint : IsInt (k + 4) := by
      have h1 := hfit.int; have h2 := hfit.nonneg
      unfold IsInt behind at *
      omega
    obtain ⟨s, hs⟩ := copyField_succeeds.2 ⟨hfit.nonneg, hfit.room, .inr hfit.body⟩
    have hadd : addInt (k + 4) (lenAt b k) = .ok (behind b k) := addInt_ok hfit.int
    have hfield : lenField .readable b cap k = .ok (lenAt b k, s, behind b k) := by
      simp only [lenField, loadInt_eq_ok.2 ⟨hfit.length, rfl⟩, ok_bind, toInt_of_isInt hint, hs, hadd, pure_ok]
    rw [hfield, ok_bind]
    exact (hf s hfit).2 hp

/-- a position that falls on the end of the frame ends the reading -/
theorem succeeds_unless {β : Type} {x : β} {y : Except Fault β} :
    Succeeds (if j ≤ k then .ok x else y) ↔ (k < j → Succeeds y) := by
  by_cases h : j ≤ k
  · simp only [h, if_true, succeeds_ok, not_lt.2 h, false_implies]
  · simp only [h, if_false, not_le.1 h, true_implies]

/-- a position before the readable bytes is neither the end of the frame nor read -/
theorem stuck_loadInt {β : Type} {x : β} {f : ℤ → Except Fault β} (hr : 0 ≤ b.readIndex) (hj : 0 ≤ j) (hk : k < 0) :
    ¬ Succeeds (if j ≤ k then .ok x else loadInt .readable b k >>= f) := by
  obtain ⟨e, he⟩ := loadInt_negative hr hk
  rw [if_neg (by omega), he, error_bind]
  exact not_succeeds_error e

theorem stuck_lenField {β : Type} {x : β} {f : ℤ × List UInt8 × ℤ → Except Fault β} (hr : 0 ≤ b.readIndex) (hj : 0 ≤ j)
    (hk : k < 0) : ¬ Succeeds (if j ≤ k then .ok x else lenField .readable b cap k >>= f) := by
  obtain ⟨e, he⟩ := loadInt_negative hr hk
  rw [if_neg (by omega), lenField, he, error_bind, error_bind]
  exact not_succeeds_error e

/-- the position is computed, compared with the end of the frame and read from -/
theorem early_lenField {β : Type} {x : β} {f : ℤ × List UInt8 × ℤ → Except Fault β} {P : Prop} {c : ℤ}
    (hr : 0 ≤ b.readIndex) (hj : 0 ≤ j) (hk : IsInt k) (h0 : 0 ≤ c) (hc : c < 2147483648)
    (hf : IsInt (k + c) → (Succeeds (lenField .readable b cap (k + c) >>= f) ↔ P)) :
    Succeeds (if j ≤ toInt (k + c) then .ok x else lenField .readable b cap (toInt (k + c)) >>= f) ↔
      IsInt (k + c) ∧ (k + c < j → P) := by
  rcases toInt_add hk h0 hc with ⟨hint, heq⟩ | ⟨hbig, hneg⟩
  · rw [heq, succeeds_unless, and_iff_right hint]
    exact imp_congr_right fun _ => hf hint
  · constructor
    · intro h
      exact absurd h (stuck_lenField hr hj hneg)
    · intro ⟨hint, _⟩
      exact absurd hint.2 (not_lt.2 hbig)

theorem loadInt_succeeds {β : Type} {f : ℤ → Except Fault β} {P : Prop} (hf : ∀ x, Succeeds (f x) ↔ P) :
    Succeeds (loadInt .readable b k >>= f) ↔ Inside .readable b k 4 ∧ P := by
  rw [succeeds_bind]
  constructor
  · intro ⟨x, hx, hp⟩
    exact ⟨(loadInt_eq_ok.1 hx).1, (hf x).1 hp⟩
  · intro ⟨hin, hp⟩
    exact ⟨_, loadInt_eq_ok.2 ⟨hin, rfl⟩, (hf _).2 hp⟩

/-- **parse** keeps to the bounds exactly if the fields fit -/
theorem parse_succeeds (hr : 0 ≤ b.readIndex) (hj : 0 ≤ j) (hi : IsInt i) (hlast : IsInt (i + n)) :
    Succeeds (parse .readable b i j n) ↔ FieldsFit b i j n := by
  simp only [parse, pure_ok, throw_error, FieldsFit]
  apply early_lenField hr hj hi (by omega) (by omega)
  intro h5
  -- the id
  refine lenField_succeeds hr h5 (fun _ s x hx => stuck_lenField hr hj hx) (?_)
  intro s1 f1
  dsimp only
  refine succeeds_unless.trans (imp_congr_right ?_)
  intro h1
  -- the name
  refine lenField_succeeds hr f1.int (fun _ s x hx => stuck_loadInt hr hj hx) (?_)
  intro s2 f2
  dsimp only
  refine succeeds_unless.trans (imp_congr_right ?_)
  intro h2
  -- the error code and its text
  apply loadInt_succeeds
  intro x
  apply early_lenField hr hj f2.int (by omega) (by omega)
  intro h4
  refine lenField_succeeds hr h4 (?_) (?_)
  · intro hbig s x hx
    -- a position that wrapped leaves no room for the payload
    have hneg : n - 0 - lenAt b (i + 5) - lenAt b (behind b (i + 5)) - 26 < 0 := by
      have := hlast.2
      unfold behind at *
      omega
    simp only [hneg, if_true, error_bind]
    exact not_succeeds_error _
  intro s3 f3
  -- the payload
  dsimp only
  set m := n - lenAt b (behind b (behind b (i + 5)) + 4) - lenAt b (i + 5) - lenAt b (behind b (i + 5)) - 26
  set k := behind b (behind b (behind b (i + 5)) + 4) with hk
  by_cases hm : m < 0
  · simp only [hm, if_true, error_bind]
    exact ⟨fun h => absurd h (not_succeeds_error _), fun h => absurd h.1 (not_le.2 hm)⟩
  by_cases hin : Inside .readable b k m
  · have hload : load .readable b k m = .ok (b.bytes k m) := by simp only [load, hin, or_true, if_true]
    simp only [hm, if_false, hload, ok_bind, hin, and_true]
    exact ⟨fun _ => not_lt.1 hm, fun _ => succeeds_ok _⟩
  · have h0 : ¬ (m = 0 ∨ Inside .readable b k m) := by
      rintro (h0 | h0)
      · apply hin
        have h3 := f3.body
        have h6 := f3.nonneg
        rw [h0, hk]
        unfold behind Inside at *
        omega
      · exact hin h0
    have hload : load .readable b k m = .error .outOfBounds := by simp only [load, h0, if_false]
    simp only [hm, if_false, hload, error_bind, hin, and_false, not_succeeds_error]

/-! ## The turn and the run -/

theorem First.bounds (hb : b.WF) (h : First .readable b i j n) : IsInt i ∧ 0 ≤ j ∧ n ≤ b.readAble := by
  obtain ⟨-, -, -, hf⟩ := h
  have h1 := hf.inside
  have h2 := hf.insideEnd
  have h3 := hf.next.1
  have h4 := hf.last
  have h5 := hb.read
  simp only [Inside, readAble, IsInt] at *
  omega

/-- a turn keeps to the bounds exactly if the buffer is in bounds -/
theorem decodeTurn_succeeds (out : List TinyPBProtocol) (hb : b.WF) :
    Succeeds (decodeTurn .readable (out, b)) ↔ InBounds b := by
  constructor
  · intro ⟨o, ho⟩
    cases o with
    | inr r => exact .inl (decodeTurn_returns.1 ho).1
    | inl s =>
      obtain ⟨i, j, n, o, hf, -, hp, -⟩ := decodeTurn_turns.1 ho
      obtain ⟨hi, hj, -⟩ := hf.bounds hb
      exact .inr ⟨i, j, n, hf, (parse_succeeds hb.read hj hi hf.2.frame.ints.1).1 ⟨o, hp⟩⟩
  · rintro (hq | ⟨i, j, n, hf, hfit⟩)
    · exact ⟨_, decodeTurn_returns.2 ⟨hq, rfl⟩⟩
    · obtain ⟨hi, hj, hn⟩ := hf.bounds hb
      obtain ⟨o, hp⟩ := (parse_succeeds hb.read hj hi hf.2.frame.ints.1).2 hfit
      obtain ⟨b', hmove, -⟩ := moveReadIndex_wf hb hn
      exact ⟨_, decodeTurn_turns.2 ⟨i, j, n, o, hf, hmove, hp, rfl⟩⟩

/-- the checked turn keeps the order of the indices -/
theorem turn_wf {s t : List TinyPBProtocol × TcpBuffer} (hs : s.2.WF) (h : Loop.Turn (decodeTurn .readable) s t) :
    t.2.WF := by
  obtain ⟨i, j, n, o, hf, hmove, -, -⟩ := decodeTurn_turns.1 h
  obtain ⟨b', hmove', hb'⟩ := moveReadIndex_wf hs (hf.bounds hs).2.2
  rw [hmove] at hmove'
  rwa [Except.ok.inj hmove']

/-- no read of decode leaves the readable bytes, no field its array, no position `int` -/
def StaysInside (out : List TinyPBProtocol) (b : TcpBuffer) : Prop :=
  ∀ e, ¬ Loop.Ends (decodeTurn .readable) (out, b) (.error e)

/-- **In-bounds safety** of a run: exactly if every buffer that it comes to is in bounds -/
theorem decode_in_bounds (hb : b.WF) :
    StaysInside out b ↔ ∀ t, Loop.Reach (decodeTurn .readable) (out, b) t → InBounds t.2 := by
  have hwf : ∀ t, Loop.Reach (decodeTurn .readable) (out, b) t → t.2.WF :=
    fun t ht => Loop.inv_reach (fun _ _ => turn_wf) ht hb
  constructor
  · intro h t ht
    by_contra hbad
    obtain ⟨e, he⟩ := not_succeeds (mt (decodeTurn_succeeds t.1 (hwf t ht)).1 hbad)
    exact h e ((Loop.ends_reach ht).2 (Loop.ends_of_error he))
  · intro h e he
    obtain ⟨t, -, ht, hno, hend⟩ := Loop.ends_inv (I := fun _ => True) (fun _ _ _ _ => trivial) he trivial
    obtain ⟨o, ho⟩ := (decodeTurn_succeeds t.1 (hwf t ht)).2 (h t ht)
    rw [Loop.error_of_ends hno hend] at ho
    cases ho

end

/-! ## The checks and the machine -/

section
variable {b : TcpBuffer} {i j k n cap : ℤ} {out : List TinyPBProtocol}

theorem load_refines (hb : b.WF) : Refines (load .readable b k n) (load .storage b k n) := by
  have hin : Inside .readable b k n → Inside .storage b k n := by
    obtain ⟨h1, h2, h3⟩ := hb
    unfold Inside
    omega
  unfold load
  by_cases h : n = 0 ∨ Inside .readable b k n
  · rw [if_pos h, if_pos (h.imp_right hin)]
    exact Refines.refl _
  · rw [if_neg h]
    exact refines_error _ _

theorem loadInt_refines (hb : b.WF) : Refines (loadInt .readable b k) (loadInt .storage b k) :=
  (load_refines hb).bind fun _ _ => Refines.refl _

/-- a field that leaves room for its NUL is a string in either case -/
theorem lenField_refines (hb : b.WF) : Refines (lenField .readable b cap k) (lenField .storage b cap k) := by
  refine (loadInt_refines hb).bind fun len _ => Refines.bind ?_ fun _ _ => Refines.refl _
  by_cases h1 : len < 0 ∨ cap < len + 1
  · simp only [copyField, room, h1, if_true, throw_error, error_bind]
    exact refines_error _ _
  · have h2 : ¬ (len < 0 ∨ cap < len + 0) := by omega
    simp only [copyField, room, h1, h2, if_false]
    exact (load_refines hb).bind fun _ _ => Refines.refl _

theorem probe_refines (hb : b.WF) : Refines (probe .readable b i) (probe .storage b i) := by
  refine (load_refines hb).bind fun _ _ => Refines.ite (Refines.bind (Refines.refl _) ?_) (Refines.refl _)
  intro i1 _
  refine Refines.ite ((loadInt_refines hb).bind ?_) (Refines.refl _)
  intro n _
  refine Refines.bind (Refines.refl _) fun s _ => Refines.bind (Refines.refl _) ?_
  intro j _
  exact Refines.ite (Refines.refl _) ((load_refines hb).bind fun _ _ => Refines.refl _)

theorem scan_refines (hb : b.WF) (m : ℕ) : Refines (scan .readable b m i) (scan .storage b m i) := by
  induction m generalizing i with
  | zero => exact Refines.refl _
  | succ m ih =>
    apply (probe_refines hb).bind
    intro o _
    cases o with
    | none => exact Refines.bind (Refines.refl _) fun _ _ => ih
    | some jn => exact Refines.refl _

theorem parse_refines (hb : b.WF) : Refines (parse .readable b i j n) (parse .storage b i j n) := by
  unfold parse
  refine Refines.ite (Refines.refl _) ((lenField_refines hb).bind ?_)
  intro f1 _
  refine Refines.ite (Refines.refl _) ((lenField_refines hb).bind ?_)
  intro f2 _
  refine Refines.ite (Refines.refl _) ((loadInt_refines hb).bind ?_)
  intro x _
  refine Refines.ite (Refines.refl _) ((lenField_refines hb).bind ?_)
  intro f3 _
  refine Refines.ite ?_ ((load_refines hb).bind fun _ _ => Refines.refl _)
  simp only [throw_error, error_bind]
  exact refines_error _ _

/-- a turn that keeps to the readable bytes is a turn of the machine -/
theorem decodeTurn_refines (hb : b.WF) : Refines (decodeTurn .readable (out, b)) (decodeTurn .storage (out, b)) := by
  apply (scan_refines hb _).bind
  intro o _
  cases o with
  | none => exact Refines.refl _
  | some f =>
    exact Refines.bind (Refines.refl _) fun b' _ => (parse_refines hb).bind fun _ _ => Refines.refl _

/-- **The checks change nothing**: what decode gives under them, it gives on the machine -/
theorem decode_refines (hb : b.WF) {r : List TinyPBProtocol × TcpBuffer}
    (h : Loop.Ends (decodeTurn .readable) (out, b) (.ok r)) : Decodes out b (.ok r) :=
  Loop.ends_refines (I := fun s => s.2.WF) (fun _ _ => turn_wf) (fun _ ht => decodeTurn_refines ht) hb h

end

/-- a junk byte and a frame without fields -/
theorem decode_in_bounds_frame :
    StaysInside [] ⟨[7, 2, 0, 0, 0, 26, 0, 0, 0, 0, 0, 0, 0, 0, 0, 0, 0, 0, 0, 0, 0, 0, 0, 0, 0, 1, 3], 0, 27⟩ := by
  have hwf : WF ⟨[7, 2, 0, 0, 0, 26, 0, 0, 0, 0, 0, 0, 0, 0, 0, 0, 0, 0, 0, 0, 0, 0, 0, 0, 0, 1, 3], 0, 27⟩ :=
    ⟨by decide, by decide, by decide⟩
  -- the index moves by the length of the frame, so that its last byte is left
  have hturn : Loop.Turn (decodeTurn .readable)
      ([], ⟨[7, 2, 0, 0, 0, 26, 0, 0, 0, 0, 0, 0, 0, 0, 0, 0, 0, 0, 0, 0, 0, 0, 0, 0, 0, 1, 3], 0, 27⟩)
      ([{ pkLen := 26, parseSuccess := true }],
        ⟨[3, 2, 0, 0, 0, 26, 0, 0, 0, 0, 0, 0, 0, 0, 0, 0, 0, 0, 0, 0, 0, 0, 0, 0, 0, 1, 3], 0, 1⟩) := by
    unfold Loop.Turn
    decide +kernel
  refine (decode_in_bounds hwf).2 fun t ht => ?_
  rcases ht.cases_head with rfl | ⟨u, hu, hr⟩
  · exact (decodeTurn_succeeds [] hwf).1 ⟨_, hturn⟩
  · obtain rfl := hturn.unique hu
    have hquiet : Quiet .readable
        ⟨[3, 2, 0, 0, 0, 26, 0, 0, 0, 0, 0, 0, 0, 0, 0, 0, 0, 0, 0, 0, 0, 0, 0, 0, 0, 1, 3], 0, 1⟩ :=
      scan_quiet.1 (by decide)
    rcases hr.cases_head with rfl | ⟨v, hv, -⟩
    · exact .inl hquiet
    · have hreturn := hv.symm.trans (decodeTurn_returns.2 ⟨hquiet, rfl⟩)
      cases hreturn

/-- a START as the last but one byte: its length is not there -/
theorem decode_out_of_bounds : WF ⟨[2, 0], 0, 2⟩ ∧ ¬ StaysInside [] ⟨[2, 0], 0, 2⟩ := by
  refine ⟨⟨by decide, by decide, by decide⟩, fun h => h .outOfBounds (Loop.ends_of_error ?_)⟩
  decide

end MCoroRpc.TinyPB
