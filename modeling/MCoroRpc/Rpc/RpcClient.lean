/-
The client with several instances (src/rpc_client_impl.cc): its pool of channels, and one callMethodAsync.

A call awaits two kinds of things: getOrCreateChannel for the instance it has picked, and CallMethodAsync on a channel.
A `Script` says how these end, one after another (`Lookup`, `Attempt`); `callTarget` is the call over a script. A `World`
says how the connects of getOrCreateChannel end and what other coroutines make of the pool meanwhile, and gives a script
for every address.

CallMethodAsync does not reset the controller: what has failed once stays failed (`Attempt.mark`).

- `getOrCreateChannel_accepts`: an address that accepts connections gives a connected channel.
- `answers_mark`: what a call on a channel does to its controller is one of the attempts.
-/
import Mathlib.Data.Finmap
import MCoroRpc.Coro.WaitFor
import MCoroRpc.Rpc.RpcChannel

namespace MCoroRpc

open CInt TcpStream
open RpcDispatcher (ascii)

/-- how CallMethodAsync ends -/
inductive Attempt where
  | answered
  | failed (reason : Bytes)
  /-- the response has an error code -/
  | refused (code : ℤ) (info : Bytes)
  /-- an exception leaves it -/
  | raised (what : Bytes)
deriving DecidableEq, Repr

/-- what CallMethodAsync does to the controller -/
def Attempt.mark (ctrl : RpcController) : Attempt → RpcController
  | .answered => { ctrl with finished := true }
  | .failed reason => ctrl.setFailed reason
  | .refused code info => { ctrl with failed := true, errorText := info, errorCode := code, finished := true }
  | .raised _ => ctrl

namespace RpcChannel

/-- a call has completed with what one of the attempts makes of its controller, or has not completed -/
def Marks (s : Client) (c : Call) (s' : Client) : Prop :=
  s'.calls = s.calls ∨ ∃ (a : Attempt) (r : Completed), r.controller = a.mark c.controller ∧ s'.calls = s.calls ++ [r]

variable {s : Client} {c : Call}

theorem complete_marks (a : Attempt) (incoming : Bytes) (b : TcpBuffer) (response : Option Bytes) :
    Marks s c (complete s c incoming b (a.mark c.controller) response) :=
  .inr ⟨a, _, rfl, rfl⟩

theorem fails_marks (reason : Bytes) (incoming : Bytes) (b : TcpBuffer) :
    Marks s c (complete s c incoming b (c.controller.setFailed reason) none) :=
  complete_marks (.failed reason) incoming b none

theorem respond_marks (incoming : Bytes) (b : TcpBuffer) (rsp : TinyPBProtocol) :
    Marks s c (respond s c incoming b rsp) := by
  unfold respond
  split_ifs
  · exact complete_marks (.refused rsp.errCode rsp.errInfo) incoming b none
  · exact complete_marks .answered incoming b (some rsp.pbData)

theorem receive_marks (fuel : ℕ) (incoming : Bytes) (b : TcpBuffer) : Marks s c (receive fuel s c incoming b) := by
  unfold receive
  split_ifs
  · exact fails_marks _ incoming b
  · split
    · exact .inl rfl
    · exact .inl rfl
    · exact fails_marks _ incoming _
    · exact respond_marks incoming _ _

theorem exchange_marks (fuel : ℕ) (encoded : Except Fault (List TinyPBProtocol × TcpBuffer)) :
    Marks s c (exchange fuel s c encoded) := by
  cases encoded with
  | error fault => exact .inl rfl
  | ok encoded =>
    by_cases hw : c.written = true
    · simp only [exchange, hw, if_true]
      split
      · exact .inl rfl
      · exact .inl rfl
      · exact fails_marks _ _ _
      · exact receive_marks fuel _ _
    · simp only [exchange, hw]
      exact fails_marks _ _ _

/-- **Attempts**: behind a call on a channel its controller is what one of the attempts makes of it -/
theorem answers_mark (fuel : ℕ) (s : Client) (c : Call) : Marks s c (callMethodAsync fuel s c) := by
  by_cases hready : s.status = .ready
  · cases hreq : c.request with
    | none =>
      simp only [callMethodAsync, hready, if_true, hreq]
      exact fails_marks _ s.incoming s.buffer
    | some pbData =>
      rw [call_encodes fuel hready hreq]
      exact exchange_marks fuel _
  · exact .inl (congrArg Client.calls (if_neg hready))

end RpcChannel

namespace RpcClient

/-! ## The pool -/

/-- a channel of the pool -/
structure Conn where
  host : Bytes
  port : ℤ
  connected : Bool
deriving DecidableEq, Repr

/-- `m_channels` -/
abbrev Pool := Finmap fun _ : Bytes => Option Conn

/-- what getOrCreateChannel gives -/
inductive Lookup where
  | null
  | channel (conn : Conn)
  /-- std::stoi throws -/
  | raised (what : Bytes)
deriving DecidableEq, Repr

def isSpace (b : UInt8) : Bool := b == 32 || (9 ≤ b && b ≤ 13)

def isDigit (b : UInt8) : Bool := 48 ≤ b && b ≤ 57

/-- `std::stoi`; nothing where it throws -/
def stoi (text : Bytes) : Option ℤ :=
  let (negative, text) :=
    match text.dropWhile isSpace with
    | 45 :: rest => (true, rest)
    | 43 :: rest => (false, rest)
    | rest => (false, rest)
  let digits := text.takeWhile isDigit
  let n : ℤ := digits.foldl (fun a b => a * 10 + (b.toNat - 48)) (0 : ℤ)
  let value := if negative then -n else n
  if digits = [] ∨ ¬ IsInt value then none else some value

/-- how the connect of a getOrCreateChannel ends, and what others make of the pool meanwhile -/
structure Connect where
  result : WaitForResult Unit
  meanwhile : Pool → Pool

/-- a new channel; a refused connect is an exception inside wait_for, and the channel is stored and given all the same -/
def createChannel (addr : Bytes) (con : Connect) (pool : Pool) : Lookup × Pool :=
  match addr.idxOf? 58 with
  | none => (.null, pool)
  | some colonPos =>
    match stoi (addr.drop (colonPos + 1)) with
    | none => (.raised (ascii "stoi"), pool)
    | some port =>
      if con.result.isTimeout then (.null, con.meanwhile pool)
      else
        let channel : Conn := ⟨addr.take colonPos, port, con.result.ok⟩
        (.channel channel, (con.meanwhile pool).insert addr (some channel))

def getOrCreateChannel (addr : Bytes) (con : Connect) (pool : Pool) : Lookup × Pool :=
  match pool.lookup addr with
  | some (some conn) => if conn.connected then (.channel conn, pool) else createChannel addr con pool
  | _ => createChannel addr con pool

/-- an address that getOrCreateChannel can read -/
def Addressed (addr : Bytes) : Prop :=
  ∃ colonPos port, addr.idxOf? 58 = some colonPos ∧ stoi (addr.drop (colonPos + 1)) = some port

/-- the pool holds a connected channel to `addr`, or a connect to it succeeds in time -/
def Accepts (addr : Bytes) (con : Connect) (pool : Pool) : Prop :=
  (∃ conn, pool.lookup addr = some (some conn) ∧ conn.connected = true) ∨
    Addressed addr ∧ con.result.isTimeout = false ∧ con.result.ok = true

theorem createChannel_accepts {addr : Bytes} {con : Connect} {pool : Pool} :
    (∃ conn, (createChannel addr con pool).1 = .channel conn ∧ conn.connected = true) ↔
      Addressed addr ∧ con.result.isTimeout = false ∧ con.result.ok = true := by
  cases hcolon : addr.idxOf? 58 with
  | none => simp [createChannel, Addressed, hcolon]
  | some colonPos =>
    cases hport : stoi (addr.drop (colonPos + 1)) with
    | none => simp [createChannel, Addressed, hcolon, hport]
    | some port => cases ht : con.result.isTimeout <;> simp [createChannel, Addressed, hcolon, hport, ht]

theorem getOrCreateChannel_accepts {addr : Bytes} {con : Connect} {pool : Pool} :
    (∃ conn, (getOrCreateChannel addr con pool).1 = .channel conn ∧ conn.connected = true) ↔ Accepts addr con pool := by
  have hcreate := @createChannel_accepts addr con pool
  unfold Accepts
  rw [← hcreate]
  cases hpool : pool.lookup addr with
  | none => simp [getOrCreateChannel, hpool]
  | some slot =>
    cases slot with
    | none => simp [getOrCreateChannel, hpool]
    | some conn => cases hc : conn.connected <;> simp [getOrCreateChannel, hpool, hc]

/-! ## A call -/

/-- how the lookups and the attempts of a call end -/
structure Script where
  lookup : ℕ → Lookup
  attempt : ℕ → Attempt

/-- on a channel that is not connected nothing is sent -/
def Script.attemptOn (s : Script) (conn : Conn) (k : ℕ) : Attempt :=
  if conn.connected then s.attempt k else .failed (ascii "not connected")

inductive Returns where
  | value (b : Bool)
  /-- an exception leaves the call -/
  | raised
  /-- CallMethodAsync on a null channel -/
  | fault
deriving DecidableEq, Repr

structure Outcome where
  returns : Returns
  controller : RpcController
  /-- the target has been marked unavailable -/
  marked : Bool
  /-- how the CallMethodAsync of this call have ended, in order -/
  attempts : List Attempt
deriving DecidableEq, Repr

/-- `catch (const std::exception&)` -/
def caught (what : Bytes) (ctrl : RpcController) (attempts : List Attempt) : Outcome :=
  ⟨.value false, ctrl.setFailed (ascii "rpc error: " ++ what), true, attempts⟩

/-- the loop that retries: `n` rounds are left, `k` have passed -/
def retryLoop (s : Script) : ℕ → ℕ → Lookup → RpcController → List Attempt → Outcome
  | 0, _, _, ctrl, attempts => ⟨.value false, ctrl, true, attempts⟩
  | n + 1, k, .channel conn, ctrl, attempts =>
    match s.attemptOn conn (k + 1) with
    | .raised what => caught what ctrl (attempts ++ [.raised what])
    | a =>
      if (a.mark ctrl).failed then
        if n = 0 then retryLoop s n (k + 1) (.channel conn) (a.mark ctrl) (attempts ++ [a])
        else
          match s.lookup (k + 1) with
          | .raised what => caught what (a.mark ctrl) (attempts ++ [a])
          | lookup => retryLoop s n (k + 1) lookup (a.mark ctrl) (attempts ++ [a])
      else ⟨.value true, a.mark ctrl, false, attempts ++ [a]⟩
  | _ + 1, _, _, ctrl, attempts => ⟨.fault, ctrl, false, attempts⟩

/-- the first attempt and the retries on a channel -/
def attemptPhase (maxRetries : ℤ) (s : Script) (conn : Conn) (ctrl : RpcController) : Outcome :=
  match s.attemptOn conn 0 with
  | .raised what => caught what ctrl [.raised what]
  | a =>
    if (a.mark ctrl).failed then retryLoop s (maxRetries + 1).toNat 0 (.channel conn) (a.mark ctrl) [a]
    else ⟨.value true, a.mark ctrl, false, [a]⟩

/-- the retries of the first lookup: the one after the `k`-th is next, `n` are left -/
def lookupAgain (s : Script) : ℕ → ℕ → Lookup
  | 0, _ => .null
  | n + 1, k =>
    match s.lookup (k + 1) with
    | .null => lookupAgain s n (k + 1)
    | lookup => lookup

/-- a call behind the choice of its target; a channel that only a retry has given is not used -/
def callTarget (maxRetries : ℤ) (target : Bytes) (s : Script) (ctrl : RpcController) : Outcome :=
  match s.lookup 0 with
  | .raised _ => ⟨.raised, ctrl, false, []⟩
  | .channel conn => attemptPhase maxRetries s conn ctrl
  | .null =>
    match lookupAgain s maxRetries.toNat 0 with
    | .raised _ => ⟨.raised, ctrl, false, []⟩
    | _ => ⟨.value false, ctrl.setFailed (ascii "failed to connect to " ++ target), true, []⟩

/-! ## The client -/

/-- how the connects end and the requests are answered, for each address, and what others make of the pool between two
lookups -/
structure World where
  connect : Bytes → ℕ → Connect
  between : ℕ → Pool → Pool
  attempt : Bytes → ℕ → Attempt

namespace World

/-- the pool before the `k`-th lookup -/
def pool (w : World) (addr : Bytes) (p : Pool) : ℕ → Pool
  | 0 => p
  | k + 1 => w.between k (getOrCreateChannel addr (w.connect addr k) (w.pool addr p k)).2

def script (w : World) (addr : Bytes) (p : Pool) : Script where
  lookup k := (getOrCreateChannel addr (w.connect addr k) (w.pool addr p k)).1
  attempt := w.attempt addr

@[simp] theorem script_lookup_zero (w : World) (addr : Bytes) (p : Pool) :
    (w.script addr p).lookup 0 = (getOrCreateChannel addr (w.connect addr 0) p).1 := rfl

@[simp] theorem script_attempt (w : World) (addr : Bytes) (p : Pool) : (w.script addr p).attempt = w.attempt addr := rfl

end World

end RpcClient

structure RpcClient where
  /-- `m_options.maxRetries` -/
  maxRetries : ℤ
  instances : List Bytes
  channels : RpcClient.Pool
  failedAddrs : List Bytes

namespace RpcClient

/-- the instances that are not marked unavailable -/
def available (c : RpcClient) : List Bytes := c.instances.filter (· ∉ c.failedAddrs)

/-- the channels to the instances that are left -/
def keepChannels (instances : List Bytes) (pool : Pool) : Pool where
  entries := pool.entries.filter fun e => e.1 ∈ instances
  nodupKeys := by
    obtain ⟨entries, h⟩ := pool
    induction entries using Quotient.inductionOn with
    | h l => exact List.NodupKeys.sublist List.filter_sublist h

/-- the discovery has found other instances -/
def updateInstances (instances : List Bytes) (c : RpcClient) : RpcClient :=
  { c with instances := instances, channels := keepChannels instances c.channels, failedAddrs := [] }

def markUnavailable (addr : Bytes) (c : RpcClient) : RpcClient := { c with failedAddrs := addr :: c.failedAddrs }

/-- `select` is the load balancer -/
def callMethodAsync (select : List Bytes → Bytes) (w : World) (controller : Option RpcController) (c : RpcClient) :
    Option Outcome :=
  controller.map fun ctrl =>
    if c.instances = [] then ⟨.value false, ctrl.setFailed (ascii "no available instances"), false, []⟩
    else if c.available = [] then ⟨.value false, ctrl.setFailed (ascii "all instances are unavailable"), false, []⟩
    else callTarget c.maxRetries (select c.available) (w.script (select c.available) c.channels) ctrl

end RpcClient

end MCoroRpc
