/-
Objects that are used again (include/utils/object_pool.hpp), and what a call takes from them: handleClient and
RpcDispatcher::dispatch (src/rpc_provider.cc), RpcChannel::CallMethodAsync (include/rpc/rpc_channel.inl).

recycleProtocol resets six fields of a message and leaves its three lengths and parse_sucess. dispatch writes err_info only
when it fails and pb_data only when it does not, so both have to come reset from the pool.

- `ObjectPool`: objects by their addresses. Whoever has an object may write it, and gives it back once; what has been given
  back is written by nobody.
- `SameWire`: the fields that are encoded. Two responses that agree in err_info and pb_data agree in them behind dispatch.
- `bytes_independent`: what is written for a request, and for a call, does not depend on what has been recycled.
-/
import MCoroRpc.Core.Machine
import MCoroRpc.Rpc.Provider
import MCoroRpc.Rpc.RpcChannel

namespace MCoroRpc

open CInt TcpBuffer TinyPB Result
open TcpStream (Bytes)

/-! ## The pool -/

/-- the objects of an `ObjectPool<T>` -/
class Recycled (T : Type) where
  /-- `T()` -/
  fresh : T
  /-- what is done to an object that is given back -/
  reset : T → T
  /-- nothing that matters is left in it -/
  Clean : T → Prop
  fresh_clean : Clean fresh
  reset_clean : ∀ x, Clean (reset x)

structure ObjectPool (T : Type) where
  /-- every object that has been made, at its address -/
  objects : List T
  /-- `m_pool` -/
  pool : List ℕ
  /-- the objects that somebody has -/
  held : Finset ℕ

namespace ObjectPool

open Recycled

def maxSize : ℕ := 1024

section
variable {T : Type}

def empty : ObjectPool T := ⟨[], [], ∅⟩

/-- `std::make_shared<T>`, and what its maker puts into it -/
def make (x : T) (p : ObjectPool T) : ℕ × ObjectPool T :=
  (p.objects.length, { p with objects := p.objects ++ [x], held := insert p.objects.length p.held })

def write (a : ℕ) (x : T) (p : ObjectPool T) : ObjectPool T :=
  if a ∈ p.held then { p with objects := p.objects.set a x } else p

end

variable {T : Type} [Recycled T]

def get (p : ObjectPool T) : ℕ × ObjectPool T :=
  match p.pool.getLast? with
  | some a => (a, { p with pool := p.pool.dropLast, held := insert a p.held })
  | none => p.make fresh

/-- recycleProtocol and recycleContext; a full pool lets the object go -/
def recycle (a : ℕ) (p : ObjectPool T) : ObjectPool T :=
  if a ∈ p.held then
    ⟨p.objects.modify a reset, if p.pool.length < maxSize then p.pool ++ [a] else p.pool, p.held.erase a⟩
  else p

def read (a : ℕ) (p : ObjectPool T) : T := p.objects[a]?.getD fresh

/-- what happens to the objects, in any order and by any number of callers -/
inductive Label (T : Type) where
  | get
  | make (x : T)
  | write (a : ℕ) (x : T)
  | recycle (a : ℕ)

def step (p : ObjectPool T) : Label T → ObjectPool T
  | .get => p.get.2
  | .make x => (p.make x).2
  | .write a x => p.write a x
  | .recycle a => p.recycle a

structure Inv (p : ObjectPool T) : Prop where
  nodup : p.pool.Nodup
  apart : ∀ a ∈ p.pool, a ∉ p.held
  pooled : ∀ a ∈ p.pool, a < p.objects.length
  made : ∀ a ∈ p.held, a < p.objects.length
  clean : ∀ a ∈ p.pool, Clean (p.read a)

variable {p : ObjectPool T} {a : ℕ} {l : Label T}

theorem empty_inv : Inv (empty : ObjectPool T) := by
  constructor <;> simp [empty]

theorem read_make (x : T) (h : a < p.objects.length) : (p.make x).2.read a = p.read a := by
  simp only [read, make, List.getElem?_append_left h]

theorem read_set {b : ℕ} (x : T) (h : a ≠ b) : ({ p with objects := p.objects.set b x } : ObjectPool T).read a = p.read a := by
  simp only [read, List.getElem?_set_ne h.symm]

theorem read_modify (b : ℕ) {pool : List ℕ} {held : Finset ℕ} (ha : a < p.objects.length) :
    (⟨p.objects.modify b reset, pool, held⟩ : ObjectPool T).read a = if a = b then reset (p.read a) else p.read a := by
  simp only [read, List.getElem?_modify, List.getElem?_eq_getElem ha, Option.getD_some, eq_comm (a := a)]
  split_ifs <;> rfl

theorem Inv.make (h : Inv p) (x : T) : Inv (p.make x).2 := by
  have hnew : ∀ b, b < p.objects.length → b < (p.make x).2.objects.length := fun b hb => by
    simp only [ObjectPool.make, List.length_append, List.length_singleton]
    omega
  refine ⟨h.nodup, fun b hb hheld => ?_, fun b hb => hnew b (h.pooled b hb), fun b hb => ?_, fun b hb => ?_⟩
  · rcases Finset.mem_insert.1 hheld with rfl | hold
    · exact absurd (h.pooled _ hb) (lt_irrefl _)
    · exact h.apart b hb hold
  · rcases Finset.mem_insert.1 hb with rfl | hold
    · simp [ObjectPool.make]
    · exact hnew b (h.made b hold)
  · rw [read_make x (h.pooled b hb)]
    exact h.clean b hb

/-- the last of the pool changes into the hands of the caller -/
theorem Inv.getLast (h : Inv p) (ha : p.pool.getLast? = some a) :
    Inv { p with pool := p.pool.dropLast, held := insert a p.held } := by
  obtain ⟨rest, hrest⟩ := List.getLast?_eq_some_iff.1 ha
  have hdrop : p.pool.dropLast = rest := by rw [hrest, List.dropLast_concat]
  have hnodup := h.nodup
  rw [hrest, List.nodup_append] at hnodup
  obtain ⟨hrestnodup, -, hne⟩ := hnodup
  have hsub : ∀ b ∈ rest, b ∈ p.pool := fun b hb => hrest ▸ List.mem_append_left _ hb
  have hmem : a ∈ p.pool := hrest ▸ List.mem_append_right _ (List.mem_singleton.2 rfl)
  rw [hdrop]
  refine ⟨hrestnodup, fun b hb hheld => ?_, fun b hb => h.pooled b (hsub b hb), fun b hb => ?_,
    fun b hb => h.clean b (hsub b hb)⟩
  · rcases Finset.mem_insert.1 hheld with rfl | hold
    · exact hne b hb b (List.mem_singleton.2 rfl) rfl
    · exact h.apart b (hsub b hb) hold
  · rcases Finset.mem_insert.1 hb with rfl | hold
    · exact h.pooled _ hmem
    · exact h.made b hold

theorem Inv.get (h : Inv p) : Inv p.get.2 := by
  unfold ObjectPool.get
  split
  · next a ha => exact h.getLast ha
  · exact h.make fresh

theorem Inv.write (h : Inv p) (a : ℕ) (x : T) : Inv (p.write a x) := by
  unfold ObjectPool.write
  split_ifs with ha
  · refine ⟨h.nodup, h.apart, fun b hb => ?_, fun b hb => ?_, fun b hb => ?_⟩
    · rw [List.length_set]
      exact h.pooled b hb
    · rw [List.length_set]
      exact h.made b hb
    · -- who writes has the object, and so it is not in the pool
      have hne : b ≠ a := fun he => h.apart b hb (he ▸ ha)
      rw [read_set x hne]
      exact h.clean b hb
  · exact h

theorem Inv.recycle (h : Inv p) (a : ℕ) : Inv (p.recycle a) := by
  unfold ObjectPool.recycle
  by_cases ha : a ∈ p.held
  swap
  · rwa [if_neg ha]
  rw [if_pos ha]
  have hnot : a ∉ p.pool := fun hmem => h.apart a hmem ha
  have hmem : ∀ b ∈ (if p.pool.length < maxSize then p.pool ++ [a] else p.pool), b ∈ p.pool ∨ b = a := by
    intro b hb
    split_ifs at hb
    · simpa using hb
    · exact .inl hb
  refine ⟨?_, fun b hb hheld => ?_, fun b hb => ?_, fun b hb => ?_, fun b hb => ?_⟩
  · split_ifs
    · refine List.nodup_append.2 ⟨h.nodup, List.nodup_singleton a, fun b hb c hc he => ?_⟩
      rw [he, List.mem_singleton.1 hc] at hb
      exact hnot hb
    · exact h.nodup
  · rcases hmem b hb with hold | rfl
    · exact h.apart b hold (Finset.mem_of_mem_erase hheld)
    · exact Finset.notMem_erase _ _ hheld
  · rw [List.length_modify]
    rcases hmem b hb with hold | rfl
    · exact h.pooled b hold
    · exact h.made b ha
  · rw [List.length_modify]
    exact h.made b (Finset.mem_of_mem_erase hb)
  · rcases hmem b hb with hold | rfl
    · have hne : b ≠ a := by
        rintro rfl
        exact hnot hold
      rw [read_modify a (h.pooled b hold), if_neg hne]
      exact h.clean b hold
    · rw [read_modify b (h.made b ha), if_pos rfl]
      exact reset_clean _

theorem Inv.step (h : Inv p) (l : Label T) : Inv (step p l) := by
  cases l with
  | get => exact h.get
  | make x => exact h.make x
  | write a x => exact h.write a x
  | recycle a => exact h.recycle a

/-- the objects behind a history -/
def after (ls : List (Label T)) : ObjectPool T := Machine.run step empty ls

theorem after_inv (ls : List (Label T)) : Inv (after ls) :=
  Machine.inv_run_of_step (I := Inv) (fun _ l hs => hs.step l) empty_inv ls

/-- **The pool gives clean objects**, behind every history -/
theorem get_clean (ls : List (Label T)) : Clean ((after ls).get.2.read (after ls).get.1) := by
  have h : Inv (after ls) := after_inv ls
  unfold ObjectPool.get
  split
  · next a ha =>
    obtain ⟨rest, hrest⟩ := List.getLast?_eq_some_iff.1 ha
    exact h.clean a (hrest ▸ List.mem_append_right _ (List.mem_singleton.2 rfl))
  · have hread : ((after ls).make fresh).2.read ((after ls).make fresh).1 = (fresh : T) := by
      simp [read, make]
    rw [hread]
    exact fresh_clean

end ObjectPool

/-! ## What is encoded of a message -/

/-- the fields that the encoder reads are the same -/
structure SameWire (m m' : TinyPBProtocol) : Prop where
  msgId : m.msgId = m'.msgId
  methodName : m.methodName = m'.methodName
  errCode : m.errCode = m'.errCode
  errInfo : m.errInfo = m'.errInfo
  pbData : m.pbData = m'.pbData

/-- encode into a new buffer, and what can be read of it -/
def encoded (m : TinyPBProtocol) : Except Fault Bytes := do
  let (_, outBuf) ← encode [m] (make 1024)
  return outBuf.bytes outBuf.readIndex outBuf.readAble

section
variable {m m' : TinyPBProtocol}

theorem SameWire.refl (m : TinyPBProtocol) : SameWire m m := ⟨rfl, rfl, rfl, rfl, rfl⟩

theorem SameWire.withId (h : SameWire m m') : SameWire (withId m) (withId m') := by
  unfold TinyPB.withId
  rw [h.msgId]
  split_ifs
  · exact ⟨rfl, h.methodName, h.errCode, h.errInfo, h.pbData⟩
  · exact h

theorem SameWire.frameLen (h : SameWire m m') : frameLen m = frameLen m' := by
  rw [TinyPB.frameLen, TinyPB.frameLen, h.msgId, h.methodName, h.errInfo, h.pbData]

theorem SameWire.frame (h : SameWire m m') : frame m = frame m' := by
  rw [TinyPB.frame, TinyPB.frame, parts, parts, h.frameLen, h.msgId, h.methodName, h.errCode, h.errInfo, h.pbData]

/-- the encoder reads nothing else -/
theorem SameWire.encoded (h : SameWire m m') : encoded m = encoded m' := by
  have hlen := h.withId.frameLen
  have hframe := h.withId.frame
  simp only [MCoroRpc.encoded, encode, encoderTinyPB, hlen, hframe]
  split_ifs with hfits
  · simp only [ok_bind]
    split_ifs
    · cases (make 1024).writeToBuffer (TinyPB.frame (TinyPB.withId m')) <;> rfl
    · rfl
  · rfl

end

/-! ## Messages and contexts -/

/-- recycleProtocol -/
instance : Recycled TinyPBProtocol where
  fresh := {}
  reset m := { m with msgId := [], methodName := [], errCode := 0, errInfo := [], pbData := [], pkLen := 0 }
  Clean m := SameWire m {}
  fresh_clean := .refl _
  reset_clean _ := ⟨rfl, rfl, rfl, rfl, rfl⟩

/-- RpcContext::reset -/
instance : Recycled RpcContext where
  fresh := {}
  reset c := { c with errCode := 0, errInfo := [], msgId := [], isFailed := false, isFinished := false }
  Clean c := c = {}
  fresh_clean := rfl
  reset_clean _ := rfl

example : Recycled.reset ({ msgId := [1], msgIdLen := 1 } : TinyPBProtocol) = { msgIdLen := 1 } := rfl

namespace Recycling

open RpcDispatcher

variable {Msg : Type} (services : Services Msg) (request : TinyPBProtocol)

/-- two runs of dispatch, over any contexts: what is not written on some path has to be the same before -/
theorem dispatch_sameWire {r r' : TinyPBProtocol} (c c' : RpcContext) (hinfo : r.errInfo = r'.errInfo)
    (hdata : r.pbData = r'.pbData) :
    SameWire (dispatch services request r c).response (dispatch services request r' c').response := by
  unfold dispatch
  dsimp only
  split
  · exact ⟨rfl, rfl, rfl, rfl, hdata⟩
  · split
    · exact ⟨rfl, rfl, rfl, rfl, hdata⟩
    · split
      · exact ⟨rfl, rfl, rfl, rfl, hdata⟩
      · split
        · exact ⟨rfl, rfl, rfl, rfl, hdata⟩
        · split
          · exact ⟨rfl, rfl, rfl, rfl, hdata⟩
          · exact ⟨rfl, rfl, rfl, hinfo, rfl⟩

/-- handleClient from getProtocol to the bytes that are written -/
def responseBytes (protocols : ObjectPool TinyPBProtocol) (contexts : ObjectPool RpcContext) : Except Fault Bytes :=
  let response := protocols.get
  let ctx := contexts.get
  encoded (dispatch services request (response.2.read response.1) (ctx.2.read ctx.1)).response

/-- CallMethodAsync from getProtocol to the bytes that are written; none if the request cannot be serialised -/
def requestBytes (c : RpcChannel.Call) (protocols : ObjectPool TinyPBProtocol) : Option (Except Fault Bytes) :=
  let req := protocols.get
  c.request.map fun pbData =>
    encoded { req.2.read req.1 with methodName := c.methodName, msgId := c.controller.msgId, pbData := pbData }

/-- the bytes of a response are those for a new object -/
theorem responseBytes_after (ps : List (ObjectPool.Label TinyPBProtocol)) (cs : List (ObjectPool.Label RpcContext)) :
    responseBytes services request (.after ps) (.after cs) = encoded (RpcProvider.reply services request) := by
  have hclean : SameWire _ {} := ObjectPool.get_clean ps
  apply SameWire.encoded
  exact dispatch_sameWire services request _ _ hclean.errInfo hclean.pbData

/-- and so are those of a request -/
theorem requestBytes_after (c : RpcChannel.Call) (ps : List (ObjectPool.Label TinyPBProtocol)) :
    requestBytes c (.after ps) = c.request.map fun pbData => encoded (RpcChannel.protocolOf c pbData) := by
  have hclean : SameWire _ {} := ObjectPool.get_clean ps
  apply Option.map_congr
  intro pbData _
  apply SameWire.encoded
  exact ⟨rfl, rfl, hclean.errCode, hclean.errInfo, rfl⟩

/-- **Recycled objects carry nothing**: for any two histories of the messages and of the contexts, the bytes written for a
request are the same, and those written for a call are the same -/
theorem bytes_independent (c : RpcChannel.Call) (ps ps' : List (ObjectPool.Label TinyPBProtocol))
    (cs cs' : List (ObjectPool.Label RpcContext)) :
    responseBytes services request (.after ps) (.after cs) = responseBytes services request (.after ps') (.after cs') ∧
      requestBytes c (.after ps) = requestBytes c (.after ps') := by
  constructor
  · rw [responseBytes_after, responseBytes_after]
  · rw [requestBytes_after, requestBytes_after]

end Recycling

end MCoroRpc
