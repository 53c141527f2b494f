/-
The wire format is uniquely decodable: the bytes of a list of messages determine the list.

The payload has no length of its own. It is what the length of the frame leaves when the three lengths of the strings
are taken off, so that a frame shows where it ends and what its five fields are (`frame_prefixFree`). Nothing is asked
of the strings; zeros, START and END may stand in any of them.

Main result: `unique_decoding`.
-/
import MCoroRpc.Core.PrefixFree
import MCoroRpc.Coder.RoundTrip

namespace MCoroRpc.TinyPB

open CInt Result

/-- the frames that encode writes for a list of messages, one behind the other -/
def encodings : List TinyPBProtocol → Except Fault (List UInt8)
  | [] => .ok []
  | m :: ms => do
    let (bs, _) ← encoderTinyPB m
    let rest ← encodings ms
    return bs ++ rest

/-- the messages that can be told apart: an id of their own, an `int` as the error code, and a length that fits -/
structure Encodable (m : TinyPBProtocol) : Prop where
  msgId : m.msgId ≠ []
  errCode : IsInt m.errCode
  length : frameLen m < 2147483648

section
variable {m : TinyPBProtocol} {ms ms' : List TinyPBProtocol}

/-- what encodings returns -/
theorem encodings_eq (h : ∀ m ∈ ms, Encodable m) : encodings ms = .ok (ms.map frame).flatten := by
  induction ms with
  | nil => rfl
  | cons m ms ih =>
    have hm := h m List.mem_cons_self
    have hid := withId_of_ne hm.msgId
    have henc : encoderTinyPB m = .ok (frame (withId m), sent m) := encoderTinyPB_eq (by rw [hid]; exact hm.length)
    simp only [encodings, henc, ok_bind, ih fun m' h' => h m' (List.mem_cons_of_mem m h'), pure_ok, hid, List.map_cons,
      List.flatten_cons]

/-! ## The parts of a frame -/

theorem toNet_prefixFree : PrefixFree IsInt Eq toNet :=
  prefixFree_of_length toNet_length fun a b ha hb h => by rw [← ofNet_toNet ha, h, ofNet_toNet hb]

theorem length_prefixFree : PrefixFree (fun n : ℕ => n < 2147483648) Eq (fun n => toNet n) := by
  intro n k hn hk x y h
  obtain ⟨he, hrest⟩ := toNet_prefixFree n k ⟨by omega, by omega⟩ ⟨by omega, by omega⟩ x y h
  exact ⟨by exact_mod_cast he, hrest⟩

/-- a string of the frame, behind its length -/
def field (s : List UInt8) : List UInt8 := toNet s.length ++ s

theorem field_prefixFree : PrefixFree (fun s : List UInt8 => s.length < 2147483648) Eq field :=
  length_prefixFree.field

/-- the parts of a frame between START and the checksum -/
def body (m : TinyPBProtocol) : List UInt8 :=
  toNet (frameLen m) ++ (field m.msgId ++ (field m.methodName ++ (toNet m.errCode ++ (field m.errInfo ++ m.pbData))))

theorem frame_eq (m : TinyPBProtocol) : frame m = PB_START :: (body m ++ (toNet 1 ++ [PB_END])) := by
  simp [frame, parts, field, body]

/-- the body shows where it ends and what its fields are -/
theorem body_prefixFree :
    PrefixFree (fun m => IsInt m.errCode ∧ frameLen m < 2147483648) SameFields body := by
  intro m m' ⟨hcode, hlt⟩ ⟨hcode', hlt'⟩ x y he
  have hL : frameLen m = 26 + m.msgId.length + m.methodName.length + m.errInfo.length + m.pbData.length := rfl
  have hL' : frameLen m' = 26 + m'.msgId.length + m'.methodName.length + m'.errInfo.length + m'.pbData.length := rfl
  simp only [body, List.append_assoc] at he
  obtain ⟨hlen, he⟩ := length_prefixFree _ _ hlt hlt' _ _ he
  obtain ⟨hid, he⟩ := field_prefixFree _ _ (by omega) (by omega) _ _ he
  obtain ⟨hname, he⟩ := field_prefixFree _ _ (by omega) (by omega) _ _ he
  obtain ⟨hcode, he⟩ := toNet_prefixFree _ _ hcode hcode' _ _ he
  obtain ⟨hinfo, he⟩ := field_prefixFree _ _ (by omega) (by omega) _ _ he
  -- the payload is what is left of the length
  have hpb : m.pbData.length = m'.pbData.length := by
    rw [hL, hL', hid, hname, hinfo] at hlen
    omega
  obtain ⟨hdata, he⟩ := List.append_inj he hpb
  exact ⟨⟨hid, hname, hcode, hinfo, hdata⟩, he⟩

/-- **One frame** shows where it ends and what its fields are -/
theorem frame_prefixFree : PrefixFree Encodable SameFields frame := by
  intro m m' h h' x y he
  rw [frame_eq, frame_eq] at he
  simp only [List.cons_append, List.cons.injEq, true_and, List.append_assoc] at he
  obtain ⟨hsame, he⟩ := body_prefixFree _ _ ⟨h.errCode, h.length⟩ ⟨h'.errCode, h'.length⟩ _ _ he
  exact ⟨hsame, by simpa using he⟩

theorem frame_ne_nil (m : TinyPBProtocol) : frame m ≠ [] := by
  rw [frame_eq]
  exact List.cons_ne_nil _ _

/-- **Unique decodability**: two lists of messages with the same bytes have the same length, and the same five fields in
each place -/
theorem unique_decoding (h : ∀ m ∈ ms, Encodable m) (h' : ∀ m ∈ ms', Encodable m)
    (he : encodings ms = encodings ms') : List.Forall₂ SameFields ms ms' := by
  rw [encodings_eq h, encodings_eq h', Except.ok.injEq] at he
  exact frame_prefixFree.flatten (fun m _ => frame_ne_nil m) h h' he

/-- messages whose strings hold zeros, START and END -/
def awkward : List TinyPBProtocol :=
  [{ msgId := [2, 0], methodName := [3], errInfo := [0, 0], pbData := [2, 0, 0, 0, 26, 3] },
    { msgId := [3], errCode := -1, pbData := [2] }]

/-- the lengths that the encoder fills in are no part of the bytes -/
theorem unique_decoding_awkward : List.Forall₂ SameFields awkward (awkward.map sent) := by
  have h : ∀ m ∈ awkward, Encodable m := by
    intro m hm
    simp only [awkward, List.mem_cons, List.not_mem_nil, or_false] at hm
    rcases hm with rfl | rfl <;> exact ⟨by decide, by decide, by decide⟩
  have h' : ∀ m ∈ awkward.map sent, Encodable m := by
    intro m hm
    simp only [awkward, List.map_cons, List.map_nil, List.mem_cons, List.not_mem_nil, or_false] at hm
    rcases hm with rfl | rfl <;> exact ⟨by decide, by decide, by decide⟩
  exact unique_decoding h h' (by decide)

end

end MCoroRpc.TinyPB
