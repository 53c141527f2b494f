/-
The TinyPB protocol and its codec (include/coder/tinypb_protocol.hpp, src/tinypb_coder.cc).

A frame is START, pk_len, msg_id_len, msg_id, method_name_len, method_name, err_code, err_info_len, err_info, pb_data,
check_sum, END; the lengths, the error code and the checksum are signed 32-bit integers in network byte order, and
pk_len counts the whole frame. Strings are byte strings.

`decode` is a `while (true)` around one scan for a frame and one parse of it (`decodeTurn`); it may end, stop in a
`Fault` or go on for ever (`Core.Loop`). Every read of the copied storage goes through `load`, which checks it:
- in `storage` mode against the storage, as the machine does: outside of it nothing is promised (`outOfBounds`);
- in `readable` mode against the readable bytes, the bound that a decoder of received bytes has to keep.
Nothing else depends on the mode but the room for the terminating NUL in the three fixed fields: in `storage` mode a
field that fills its array is still a string if it holds a NUL itself.

Positions are `int`: sums of two `int` stop in `overflow`, narrowing conversions wrap.
-/
import MCoroRpc.Core.CInt
import MCoroRpc.Core.Loop
import MCoroRpc.Core.Result
import MCoroRpc.Net.TcpBuffer

namespace MCoroRpc

open CInt

structure TinyPBProtocol where
  msgId : List UInt8 := []
  pkLen : ℤ := 0
  msgIdLen : ℤ := 0
  /-- left uninitialised by the source; written by the encoder and the decoder before it is read -/
  methodNameLen : ℤ := 0
  methodName : List UInt8 := []
  errCode : ℤ := 0
  errInfoLen : ℤ := 0
  errInfo : List UInt8 := []
  pbData : List UInt8 := []
  parseSuccess : Bool := false
deriving DecidableEq, Repr

namespace TinyPB

def PB_START : UInt8 := 0x02

def PB_END : UInt8 := 0x03

/-! ## Encoder -/

/-- "123456789" -/
def defaultMsgId : List UInt8 := [49, 50, 51, 52, 53, 54, 55, 56, 57]

/-- the encoder gives a message without an id the default one -/
def withId (m : TinyPBProtocol) : TinyPBProtocol := if m.msgId = [] then { m with msgId := defaultMsgId } else m

/-- length of the frame of a message that has its id -/
def frameLen (m : TinyPBProtocol) : ℕ :=
  26 + m.msgId.length + m.methodName.length + m.errInfo.length + m.pbData.length

/-- the parts of the frame of a message that has its id, in the order in which they are written -/
def parts (m : TinyPBProtocol) : List (List UInt8) :=
  [[PB_START], toNet (frameLen m), toNet m.msgId.length, m.msgId, toNet m.methodName.length, m.methodName,
    toNet m.errCode, toNet m.errInfo.length, m.errInfo, m.pbData, toNet 1, [PB_END]]

def frame (m : TinyPBProtocol) : List UInt8 := (parts m).flatten

/-- the frame and the updated message. The block is allocated with the length narrowed to `int`: what does not fit it
is written out of bounds. -/
def encoderTinyPB (m : TinyPBProtocol) : Except Fault (List UInt8 × TinyPBProtocol) :=
  let m := withId m
  let pkLen := toInt (frameLen m)
  if pkLen = frameLen m then
    .ok (frame m, { m with
      pkLen := pkLen, msgIdLen := toInt m.msgId.length, methodNameLen := toInt m.methodName.length,
      errInfoLen := toInt m.errInfo.length, parseSuccess := true })
  else .error .outOfBounds

/-- the messages, updated, and the buffer behind their frames -/
def encode : List TinyPBProtocol → TcpBuffer → Except Fault (List TinyPBProtocol × TcpBuffer)
  | [], b => .ok ([], b)
  | m :: ms, b => do
    let (bs, m) ← encoderTinyPB m
    let b ← if bs.length ≠ 0 then b.writeToBuffer bs else .ok b
    let (ms, b) ← encode ms b
    return (m :: ms, b)

/-! ## Decoder -/

/-- what a read of the storage is checked against -/
inductive Mode where
  | storage
  | readable
deriving DecidableEq, Repr

/-- `n` elements from index `i` on may be read -/
def Inside : Mode → TcpBuffer → ℤ → ℤ → Prop
  | .storage, b, i, n => 0 ≤ i ∧ i + n ≤ b.size
  | .readable, b, i, n => b.readIndex ≤ i ∧ i + n ≤ b.writeIndex

instance (mode : Mode) (b : TcpBuffer) (i n : ℤ) : Decidable (Inside mode b i n) := by
  cases mode <;> unfold Inside <;> infer_instance

def load (mode : Mode) (b : TcpBuffer) (i n : ℤ) : Except Fault (List UInt8) :=
  if n = 0 ∨ Inside mode b i n then .ok (b.bytes i n) else .error .outOfBounds

/-- `getInt32FromNetByte(&tmp[i])` -/
def loadInt (mode : Mode) (b : TcpBuffer) (i : ℤ) : Except Fault ℤ := do
  let bs ← load mode b i 4
  return ofNet bs

/-- sum of two `int` -/
def addInt (x y : ℤ) : Except Fault ℤ := if IsInt (x + y) then .ok (x + y) else .error .overflow

/-- room demanded for the terminating NUL -/
def room : Mode → ℤ
  | .storage => 0
  | .readable => 1

/-- `char field[cap] = {0}; memcpy(field, &tmp[i], n); std::string(field)` -/
def copyField (mode : Mode) (b : TcpBuffer) (cap i n : ℤ) : Except Fault (List UInt8) := do
  if n < 0 ∨ cap < n + room mode then throw .overrun
  let bs ← load mode b i n
  if n = cap ∧ 0 ∉ bs then throw .overrun
  return bs.takeWhile (· ≠ 0)

/-- the length at `k` and the string behind it: length, string and the position behind both -/
def lenField (mode : Mode) (b : TcpBuffer) (cap k : ℤ) : Except Fault (ℤ × List UInt8 × ℤ) := do
  let len ← loadInt mode b k
  let index := toInt (k + 4)
  let field ← copyField mode b cap index len
  let next ← addInt index len
  return (len, field, next)

/-- does a frame start at `i`? Its last index and its length -/
def probe (mode : Mode) (b : TcpBuffer) (i : ℤ) : Except Fault (Option (ℤ × ℤ)) := do
  if (← load mode b i 1) = [PB_START] then
    let i1 ← addInt i 1
    if i1 < b.writeIndex then
      let pkLen ← loadInt mode b i1
      let s ← addInt i pkLen
      let j ← addInt s (-1)
      -- as in the source: a position equal to the write index is still looked at
      if b.writeIndex < j then return none
      if (← load mode b j 1) = [PB_END] then return some (j, pkLen)
  return none

/-- the `for` loop, with `n` positions left: first and last index and length of the first frame -/
def scan (mode : Mode) (b : TcpBuffer) : ℕ → ℤ → Except Fault (Option (ℤ × ℤ × ℤ))
  | 0, _ => .ok none
  | n + 1, i => do
    match ← probe mode b i with
    | some (j, pkLen) => return some (i, j, pkLen)
    | none => scan mode b n (← addInt i 1)

/-- the fields of the frame; `none` where a position falls on the end of the frame -/
def parse (mode : Mode) (b : TcpBuffer) (startIndex endIndex pkLen : ℤ) :
    Except Fault (Option TinyPBProtocol) := do
  let msgIdLenIndex := toInt (startIndex + 5)
  if endIndex ≤ msgIdLenIndex then return none
  let (msgIdLen, msgId, methodNameLenIndex) ← lenField mode b 100 msgIdLenIndex
  if endIndex ≤ methodNameLenIndex then return none
  let (methodNameLen, methodName, errCodeIndex) ← lenField mode b 512 methodNameLenIndex
  if endIndex ≤ errCodeIndex then return none
  let errCode ← loadInt mode b errCodeIndex
  let errInfoLenIndex := toInt (errCodeIndex + 4)
  if endIndex ≤ errInfoLenIndex then return none
  let (errInfoLen, errInfo, pbDataIndex) ← lenField mode b 512 errInfoLenIndex
  -- no overflow: the three lengths are at most 512 and `pkLen` is positive here
  let pbDataLen := pkLen - errInfoLen - msgIdLen - methodNameLen - 26
  if pbDataLen < 0 then throw .lengthError
  let pbData ← load mode b pbDataIndex pbDataLen
  return some ⟨msgId, pkLen, msgIdLen, methodNameLen, methodName, errCode, errInfoLen, errInfo, pbData, true⟩

/-- one turn of the `while (true)`: `tmp` is the storage as it stands at its start -/
def decodeTurn (mode : Mode) :
    List TinyPBProtocol × TcpBuffer →
      Except Fault ((List TinyPBProtocol × TcpBuffer) ⊕ (List TinyPBProtocol × TcpBuffer))
  | (out, b) => do
    let startIndex := toInt b.readIndex
    match ← scan mode b (b.writeIndex - startIndex).toNat startIndex with
    | none => return .inr (out, b)
    | some (i, j, pkLen) =>
      let b' ← b.moveReadIndex (j - i + 1)
      let message ← parse mode b i j pkLen
      return .inl (out ++ message.toList, b')

/-- `decode`, for at most `fuel` turns -/
def decode (fuel : ℕ) (out : List TinyPBProtocol) (b : TcpBuffer) :
    Option (Except Fault (List TinyPBProtocol × TcpBuffer)) :=
  Loop.run (decodeTurn .storage) fuel (out, b)

/-- `decode` of `b` behind the messages `out` ends with `r` -/
def Decodes (out : List TinyPBProtocol) (b : TcpBuffer) (r : Except Fault (List TinyPBProtocol × TcpBuffer)) : Prop :=
  Loop.Ends (decodeTurn .storage) (out, b) r

/-! ## Reads that succeed -/

section
variable {mode : Mode} {b : TcpBuffer} {i : ℤ}

theorem load_one : load mode b i 1 = if Inside mode b i 1 then .ok (b.bytes i 1) else .error .outOfBounds := by
  simp only [load, one_ne_zero, false_or]

theorem loadInt_eq : loadInt mode b i = if Inside mode b i 4 then .ok (ofNet (b.bytes i 4)) else .error .outOfBounds := by
  simp only [loadInt, load, OfNat.ofNat_ne_zero, false_or, Result.ite_bind, Result.pure_ok]

theorem addInt_ok {x y : ℤ} (h : IsInt (x + y)) : addInt x y = .ok (x + y) := by simp only [addInt, h, if_true]

theorem addInt_overflow {x y : ℤ} (h : ¬ IsInt (x + y)) : addInt x y = .error .overflow := by
  simp only [addInt, h, if_false]

end

end TinyPB

end MCoroRpc
