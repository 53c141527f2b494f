/-
The dispatcher of the server (RpcDispatcher in src/rpc_provider.cc).

protobuf is not part of the repository. A method is what its library makes of it, over a type `Msg` of messages: the
request is parsed from its bytes, the handler turns it into a response, the response is serialised; parsing and
serialising may fail. Handlers return normally. Names are byte strings.

`dispatch_msgId`, `dispatch_methodName`: whatever happens, the response carries the id and the method of its request.
-/
import MCoroRpc.Coder.TinyPB

namespace MCoroRpc

structure MethodDescriptor (Msg : Type) where
  name : List UInt8
  /-- `ParseFromString` of a new request message -/
  parse : List UInt8 → Option Msg
  /-- `CallMethod` of the service -/
  call : Msg → Msg
  /-- `SerializeToString` of the response message -/
  serialize : Msg → Option (List UInt8)

structure Service (Msg : Type) where
  fullName : List UInt8
  methods : List (MethodDescriptor Msg)

def Service.findMethodByName {Msg : Type} (service : Service Msg) (name : List UInt8) :
    Option (MethodDescriptor Msg) :=
  service.methods.find? fun m => m.name = name

/-- what `dispatch` writes of a context -/
structure RpcContext where
  msgId : List UInt8 := []
  errCode : ℤ := 0
  errInfo : List UInt8 := []
  isFailed : Bool := false
  isFinished : Bool := false
deriving DecidableEq, Repr

namespace RpcDispatcher

/-- `m_services` -/
abbrev Services (Msg : Type) := List (List UInt8 × Service Msg)

variable {Msg : Type}

def registerService (service : Service Msg) (services : Services Msg) : Services Msg :=
  (service.fullName, service) :: services.filter fun entry => entry.1 ≠ service.fullName

/-- the bytes of an ASCII text -/
def ascii (text : String) : List UInt8 := text.toList.map fun c => UInt8.ofNat c.toNat

/-- `std::string::rfind` -/
def rfind (c : UInt8) (text : List UInt8) : Option ℕ :=
  (text.reverse.idxOf? c).map fun i => text.length - 1 - i

def parseServiceFullName (fullName : List UInt8) : Option (List UInt8 × List UInt8) :=
  if fullName = [] then none
  else
    match rfind 46 fullName with
    | none => none
    | some pos => some (fullName.take pos, fullName.drop (pos + 1))

/-- what `dispatch` leaves: response, context, and the handlers it has invoked -/
structure Dispatched (Msg : Type) where
  response : TinyPBProtocol
  ctx : RpcContext
  invoked : List (List UInt8 × List UInt8 × Msg)

def fail (code : ℤ) (info : List UInt8) (response : TinyPBProtocol) (ctx : RpcContext)
    (invoked : List (List UInt8 × List UInt8 × Msg)) : Dispatched Msg where
  response := { response with errCode := code, errInfo := info }
  ctx := { ctx with errCode := code, errInfo := info, isFailed := true }
  invoked := invoked

def dispatch (services : Services Msg) (request response : TinyPBProtocol) (ctx : RpcContext) : Dispatched Msg :=
  let response := { response with msgId := request.msgId, methodName := request.methodName }
  let ctx := { ctx with msgId := request.msgId }
  match parseServiceFullName request.methodName with
  | none => fail 1 (ascii "parse service name error") response ctx []
  | some (serviceName, methodName) =>
    match services.lookup serviceName with
    | none => fail 2 (ascii "service not found: " ++ serviceName) response ctx []
    | some service =>
      match service.findMethodByName methodName with
      | none => fail 3 (ascii "method not found: " ++ methodName) response ctx []
      | some method =>
        match method.parse request.pbData with
        | none => fail 4 (ascii "parse request error") response ctx []
        | some req =>
          match method.serialize (method.call req) with
          | none => fail 5 (ascii "serialize response error") response ctx [(serviceName, methodName, req)]
          | some pbData =>
            ⟨{ response with pbData := pbData, errCode := 0 }, { ctx with errCode := 0, isFinished := true },
              [(serviceName, methodName, req)]⟩

section
variable (services : Services Msg) (request response : TinyPBProtocol) (ctx : RpcContext)

@[simp] theorem dispatch_msgId : (dispatch services request response ctx).response.msgId = request.msgId := by
  unfold dispatch
  repeat' split
  all_goals rfl

@[simp] theorem dispatch_methodName :
    (dispatch services request response ctx).response.methodName = request.methodName := by
  unfold dispatch
  repeat' split
  all_goals rfl

end

end RpcDispatcher

end MCoroRpc
