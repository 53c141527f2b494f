/-
Which handler a request reaches (RpcDispatcher::registerService, parseServiceFullName and dispatch in
src/rpc_provider.cc).

- `parse_some`, `parse_none`: the split at the last dot, read off the name alone.
- `lookup_registered`: what `m_services` holds once a list of services is registered.
- `Handled`, `dispatch_handled`: the six ways in which a request ends, each with what makes it end so.
- `dispatch_routes`: with distinct names, a request reaches the handler whose full name it carries, and no other.
-/
import MCoroRpc.Core.Getline
import MCoroRpc.Rpc.Dispatcher

namespace MCoroRpc

namespace RpcDispatcher

variable {Msg : Type}

/-- `.` -/
abbrev dot : UInt8 := 46

/-! ## The split of a name -/

theorem rfind_append {a b : List UInt8} {c : UInt8} (h : c ∉ b) : rfind c (a ++ c :: b) = some a.length := by
  have hidx : (a ++ c :: b).reverse.idxOf? c = some b.length := by
    have hrev : (a ++ c :: b).reverse = b.reverse ++ c :: a.reverse := by
      rw [List.reverse_append, List.reverse_cons, List.append_assoc]
      rfl
    rw [hrev, Getline.idxOf?_append_cons (by simpa using h), List.length_reverse]
  rw [rfind, hidx, Option.map_some]
  congr 1
  simp only [List.length_append, List.length_cons]
  omega

theorem rfind_none {c : UInt8} {text : List UInt8} (h : c ∉ text) : rfind c text = none := by
  rw [rfind, List.idxOf?_eq_none_iff.2 (by simpa using h)]
  rfl

/-- the last one of several dots -/
theorem exists_last {c : UInt8} {text : List UInt8} (h : c ∈ text) : ∃ a b, text = a ++ c :: b ∧ c ∉ b := by
  obtain ⟨a, b, hab, hna⟩ := List.eq_append_cons_of_mem (List.mem_reverse.2 h)
  refine ⟨b.reverse, a.reverse, ?_, by simpa using hna⟩
  rw [← List.reverse_reverse text, hab]
  simp

theorem parse_append {service method : List UInt8} (h : dot ∉ method) :
    parseServiceFullName (service ++ dot :: method) = some (service, method) := by
  have hne : service ++ dot :: method ≠ [] := by simp
  have htail : (service ++ dot :: method).drop (service.length + 1) = method := by
    rw [← List.drop_drop, List.drop_left, List.drop_one, List.tail_cons]
  simp only [parseServiceFullName, hne, if_false, rfind_append h, List.take_left, htail]

theorem parse_none {name : List UInt8} : parseServiceFullName name = none ↔ dot ∉ name := by
  constructor
  · intro h hdot
    obtain ⟨a, b, rfl, hb⟩ := exists_last hdot
    rw [parse_append hb] at h
    cases h
  · intro h
    simp only [parseServiceFullName, rfind_none h, ite_self]

theorem parse_some {name service method : List UInt8} :
    parseServiceFullName name = some (service, method) ↔ name = service ++ dot :: method ∧ dot ∉ method := by
  constructor
  · intro h
    have hdot : dot ∈ name := by
      by_contra hn
      rw [parse_none.2 hn] at h
      cases h
    obtain ⟨a, b, rfl, hb⟩ := exists_last hdot
    rw [parse_append hb] at h
    cases h
    exact ⟨rfl, hb⟩
  · intro ⟨h, hm⟩
    rw [h, parse_append hm]

/-! ## The registry -/

/-- `registerService` for one service after the other -/
def registered (ss : List (Service Msg)) : Services Msg := ss.foldl (fun services s => registerService s services) []

theorem lookup_filter_ne {services : Services Msg} {name n : List UInt8} (h : name ≠ n) :
    (services.filter fun entry => entry.1 ≠ n).lookup name = services.lookup name := by
  induction services with
  | nil => rfl
  | cons entry services ih =>
    obtain ⟨k, s⟩ := entry
    rw [List.filter_cons]
    split_ifs with hk
    · rw [List.lookup_cons, List.lookup_cons, ih]
    · have hkn : k = n := by simpa using hk
      have hne : (name == k) = false := by simpa [hkn] using h
      rw [ih, List.lookup_cons, hne]

theorem lookup_registerService {services : Services Msg} {s : Service Msg} {name : List UInt8} :
    (registerService s services).lookup name = if name = s.fullName then some s else services.lookup name := by
  rw [registerService, List.lookup_cons]
  split_ifs with h
  · rw [h, beq_self_eq_true]
  · rw [beq_false_of_ne h]
    exact lookup_filter_ne h

/-- the last service of the name -/
theorem lookup_registered {ss : List (Service Msg)} {name : List UInt8} :
    (registered ss).lookup name = (ss.filter fun s => s.fullName = name).getLast? := by
  induction ss using List.reverseRecOn with
  | nil => rfl
  | append_singleton ss s ih =>
    have hstep : registered (ss ++ [s]) = registerService s (registered ss) := by
      simp only [registered, List.foldl_append, List.foldl_cons, List.foldl_nil]
    rw [hstep, lookup_registerService, ih, List.filter_append]
    split_ifs with h
    · simp [h]
    · simp [Ne.symm h]

theorem mem_of_lookup {ss : List (Service Msg)} {name : List UInt8} {s : Service Msg}
    (h : (registered ss).lookup name = some s) : s ∈ ss ∧ s.fullName = name := by
  rw [lookup_registered] at h
  simpa using List.mem_filter.1 (List.mem_of_getLast? h)

theorem lookup_of_mem {ss : List (Service Msg)} (hd : (ss.map Service.fullName).Nodup) {s : Service Msg} (hs : s ∈ ss) :
    (registered ss).lookup s.fullName = some s := by
  cases h : (registered ss).lookup s.fullName with
  | some t =>
    obtain ⟨ht, hname⟩ := mem_of_lookup h
    rw [List.inj_on_of_nodup_map hd ht hs hname]
  | none =>
    rw [lookup_registered, List.getLast?_eq_none_iff, List.filter_eq_nil_iff] at h
    exact absurd (by simp) (h s hs)

/-! ## Descriptors -/

/-- what protobuf sees to: the methods of a service have distinct names, and none of them has a dot -/
structure WellNamed (s : Service Msg) : Prop where
  distinct : (s.methods.map MethodDescriptor.name).Nodup
  plain : ∀ h ∈ s.methods, dot ∉ h.name

theorem mem_of_find {s : Service Msg} {name : List UInt8} {h : MethodDescriptor Msg}
    (hf : s.findMethodByName name = some h) : h ∈ s.methods ∧ h.name = name :=
  ⟨List.mem_of_find?_eq_some hf, by simpa using List.find?_some hf⟩

theorem find_of_mem {s : Service Msg} (hs : WellNamed s) {h : MethodDescriptor Msg} (hh : h ∈ s.methods) :
    s.findMethodByName h.name = some h := by
  cases hf : s.findMethodByName h.name with
  | some k =>
    obtain ⟨hk, hname⟩ := mem_of_find hf
    rw [List.inj_on_of_nodup_map hs.distinct hk hh hname]
  | none =>
    rw [Service.findMethodByName, List.find?_eq_none] at hf
    exact absurd (by simp) (hf h hh)

/-! ## How a request ends -/

section
variable (services : Services Msg) (request response : TinyPBProtocol) (ctx : RpcContext)

/-- the response and the context before anything is looked up -/
def opened : TinyPBProtocol := { response with msgId := request.msgId, methodName := request.methodName }

def openedCtx : RpcContext := { ctx with msgId := request.msgId }

inductive Handled : Dispatched Msg → Prop where
  | noName (hdot : dot ∉ request.methodName) :
      Handled (fail 1 (ascii "parse service name error") (opened request response) (openedCtx request ctx) [])
  | noService (service method : List UInt8) (hname : request.methodName = service ++ dot :: method) (hm : dot ∉ method)
      (hs : services.lookup service = none) :
      Handled (fail 2 (ascii "service not found: " ++ service) (opened request response) (openedCtx request ctx) [])
  | noMethod (service method : List UInt8) (hname : request.methodName = service ++ dot :: method) (hm : dot ∉ method)
      (s : Service Msg) (hs : services.lookup service = some s) (hf : s.findMethodByName method = none) :
      Handled (fail 3 (ascii "method not found: " ++ method) (opened request response) (openedCtx request ctx) [])
  | noRequest (service method : List UInt8) (hname : request.methodName = service ++ dot :: method) (hm : dot ∉ method)
      (s : Service Msg) (hs : services.lookup service = some s) (h : MethodDescriptor Msg)
      (hf : s.findMethodByName method = some h) (hp : h.parse request.pbData = none) :
      Handled (fail 4 (ascii "parse request error") (opened request response) (openedCtx request ctx) [])
  | noReply (service method : List UInt8) (hname : request.methodName = service ++ dot :: method) (hm : dot ∉ method)
      (s : Service Msg) (hs : services.lookup service = some s) (h : MethodDescriptor Msg)
      (hf : s.findMethodByName method = some h) (req : Msg) (hp : h.parse request.pbData = some req)
      (hr : h.serialize (h.call req) = none) :
      Handled (fail 5 (ascii "serialize response error") (opened request response) (openedCtx request ctx)
        [(service, method, req)])
  | replied (service method : List UInt8) (hname : request.methodName = service ++ dot :: method) (hm : dot ∉ method)
      (s : Service Msg) (hs : services.lookup service = some s) (h : MethodDescriptor Msg)
      (hf : s.findMethodByName method = some h) (req : Msg) (hp : h.parse request.pbData = some req)
      (pbData : List UInt8) (hr : h.serialize (h.call req) = some pbData) :
      Handled ⟨{ opened request response with pbData := pbData, errCode := 0 },
        { openedCtx request ctx with errCode := 0, isFinished := true }, [(service, method, req)]⟩

theorem dispatch_handled : Handled services request response ctx (dispatch services request response ctx) := by
  unfold dispatch
  split
  · next hname => exact .noName (parse_none.1 hname)
  · next service method hname =>
    obtain ⟨h1, h2⟩ := parse_some.1 hname
    split
    · next hs => exact .noService service method h1 h2 hs
    · next s hs =>
      split
      · next hf => exact .noMethod service method h1 h2 s hs hf
      · next h hf =>
        split
        · next hp => exact .noRequest service method h1 h2 s hs h hf hp
        · next req hp =>
          split
          · next hr => exact .noReply service method h1 h2 s hs h hf req hp hr
          · next pbData hr => exact .replied service method h1 h2 s hs h hf req hp pbData hr

end

/-! ## Routing -/

/-- `dispatch` with the context as it is passed: what it writes of one is guarded by `if (ctx)`, and it reads none -/
def dispatchTo (services : Services Msg) (request response : TinyPBProtocol) :
    Option RpcContext → TinyPBProtocol × Option RpcContext × List (List UInt8 × List UInt8 × Msg)
  | some ctx =>
    let d := dispatch services request response ctx
    (d.response, some d.ctx, d.invoked)
  | none =>
    let d := dispatch services request response {}
    (d.response, none, d.invoked)

/-- a request in which the method `h` of the service `s` is asked for, with the payload of `req` -/
def Asks (request : TinyPBProtocol) (s : Service Msg) (h : MethodDescriptor Msg) (req : Msg) : Prop :=
  request.methodName = s.fullName ++ dot :: h.name ∧ h.parse request.pbData = some req

/-- what `dispatch` owes to the client that sent `request` and to the context -/
structure Routes (ss : List (Service Msg)) (request response : TinyPBProtocol) (ctx : Option RpcContext)
    (d : TinyPBProtocol × Option RpcContext × List (List UInt8 × List UInt8 × Msg)) : Prop where
  once : d.2.2.length ≤ 1
  known : ∀ i ∈ d.2.2, ∃ s ∈ ss, ∃ h ∈ s.methods, i.1 = s.fullName ∧ i.2.1 = h.name
  routed : ∀ s ∈ ss, ∀ h ∈ s.methods, ∀ req, (s.fullName, h.name, req) ∈ d.2.2 ↔ Asks request s h req
  refused : d.2.2 = [] → 1 ≤ d.1.errCode ∧ d.1.errCode ≤ 4 ∧ d.1.pbData = response.pbData ∧
    ∀ c, d.2.1 = some c → c.errCode = d.1.errCode ∧ c.errInfo = d.1.errInfo
  given : d.2.1.isSome = ctx.isSome
  msgId : d.1.msgId = request.msgId
  methodName : d.1.methodName = request.methodName
  succeeded : d.1.errCode = 0 ↔
    ∃ s ∈ ss, ∃ h ∈ s.methods, ∃ req, (s.fullName, h.name, req) ∈ d.2.2 ∧ (h.serialize (h.call req)).isSome

section
variable {ss : List (Service Msg)} {request response : TinyPBProtocol} {ctx : RpcContext}

/-- two ways of splitting a name at a dot that no method name holds are one -/
theorem split_unique {a b c d : List UInt8} (h : a ++ dot :: b = c ++ dot :: d) (hb : dot ∉ b) (hd : dot ∉ d) :
    a = c ∧ b = d := by
  have e : parseServiceFullName (a ++ dot :: b) = some (a, b) := parse_append hb
  rw [h, parse_append hd] at e
  simpa [eq_comm] using e

theorem not_asks_of_no_dot (hdot : dot ∉ request.methodName) (s : Service Msg) (h : MethodDescriptor Msg) (req : Msg) :
    ¬ Asks request s h req := by
  intro ⟨hname, _⟩
  rw [hname] at hdot
  simp at hdot

/-- whom a request with a dot asks, said with what is found under its two halves -/
theorem asks_iff (hd : (ss.map Service.fullName).Nodup) (hw : ∀ s ∈ ss, WellNamed s) {service method : List UInt8}
    (hname : request.methodName = service ++ dot :: method) (hm : dot ∉ method) {s : Service Msg} (hs : s ∈ ss)
    {h : MethodDescriptor Msg} (hh : h ∈ s.methods) {req : Msg} :
    Asks request s h req ↔ (registered ss).lookup service = some s ∧ s.findMethodByName method = some h ∧
      h.parse request.pbData = some req := by
  constructor
  · intro ⟨h1, h2⟩
    obtain ⟨rfl, rfl⟩ := split_unique (hname.symm.trans h1) hm ((hw s hs).plain h hh)
    exact ⟨lookup_of_mem hd hs, find_of_mem (hw s hs) hh, h2⟩
  · intro ⟨h1, h2, h3⟩
    obtain ⟨-, rfl⟩ := mem_of_lookup h1
    obtain ⟨-, rfl⟩ := mem_of_find h2
    exact ⟨hname, h3⟩

theorem asks_unique (hw : ∀ s ∈ ss, WellNamed s) {s s' : Service Msg} (hs : s ∈ ss) (hs' : s' ∈ ss)
    {h h' : MethodDescriptor Msg} (hh : h ∈ s.methods) (hh' : h' ∈ s'.methods) {req req' : Msg}
    (ha : Asks request s h req) (ha' : Asks request s' h' req') : s.fullName = s'.fullName ∧ h.name = h'.name :=
  split_unique (ha.1.symm.trans ha'.1) ((hw s hs).plain h hh) ((hw s' hs').plain h' hh')

theorem routes_fail {code : ℤ} (h1 : 1 ≤ code) (h4 : code ≤ 4) (info : List UInt8) (o : Option RpcContext)
    (hno : ∀ s ∈ ss, ∀ h ∈ s.methods, ∀ req, ¬ Asks request s h req) :
    Routes ss request response o (({ opened request response with errCode := code, errInfo := info } : TinyPBProtocol),
      o.map fun _ => { ctx with errCode := code, errInfo := info, isFailed := true }, []) where
  once := Nat.zero_le 1
  known := by
    intro i hi
    cases hi
  routed := by
    intro s hs h hh req
    exact ⟨fun hi => (by cases hi), fun ha => absurd ha (hno s hs h hh req)⟩
  refused := by
    intro _
    refine ⟨h1, h4, rfl, ?_⟩
    intro c hc
    obtain ⟨-, -, rfl⟩ := Option.map_eq_some_iff.1 hc
    exact ⟨rfl, rfl⟩
  given := Option.isSome_map
  msgId := rfl
  methodName := rfl
  succeeded := by
    constructor
    · intro h0
      have : code = 0 := h0
      omega
    · intro ⟨s, hs, h, hh, req, hi, _⟩
      cases hi

/-- one handler has run -/
theorem routes_invoked (hd : (ss.map Service.fullName).Nodup) (hw : ∀ s ∈ ss, WellNamed s) {s : Service Msg} (hs : s ∈ ss)
    {h : MethodDescriptor Msg} (hh : h ∈ s.methods) {req : Msg} (ha : Asks request s h req) (o : Option RpcContext)
    {r : TinyPBProtocol} (hid : r.msgId = request.msgId) (hname : r.methodName = request.methodName)
    (hcode : r.errCode = 0 ↔ (h.serialize (h.call req)).isSome) :
    Routes ss request response o (r, o.map fun _ => ctx, [(s.fullName, h.name, req)]) := by
  -- the service, the method and the message are found again from what the request asks for
  have hsame : ∀ s' ∈ ss, ∀ h' ∈ s'.methods, s'.fullName = s.fullName → h'.name = h.name → s' = s ∧ h' = h := by
    intro s' hs' h' hh' h1 h2
    obtain rfl := List.inj_on_of_nodup_map hd hs' hs h1
    exact ⟨rfl, List.inj_on_of_nodup_map (hw s' hs').distinct hh' hh h2⟩
  have hreq : ∀ s' ∈ ss, ∀ h' ∈ s'.methods, ∀ req', Asks request s' h' req' → s' = s ∧ h' = h ∧ req' = req := by
    intro s' hs' h' hh' req' ha'
    obtain ⟨h1, h2⟩ := asks_unique hw hs' hs hh' hh ha' ha
    obtain ⟨rfl, rfl⟩ := hsame s' hs' h' hh' h1 h2
    exact ⟨rfl, rfl, Option.some.inj (ha'.2.symm.trans ha.2)⟩
  refine ⟨le_rfl, ?_, ?_, fun hnil => (by cases hnil), Option.isSome_map, hid, hname, ?_⟩
  · intro i hi
    obtain rfl := List.mem_singleton.1 hi
    exact ⟨s, hs, h, hh, rfl, rfl⟩
  · intro s' hs' h' hh' req'
    rw [List.mem_singleton]
    constructor
    · intro hi
      simp only [Prod.mk.injEq] at hi
      obtain ⟨h1, h2, rfl⟩ := hi
      obtain ⟨rfl, rfl⟩ := hsame s' hs' h' hh' h1 h2
      exact ha
    · intro ha'
      obtain ⟨rfl, rfl, rfl⟩ := hreq s' hs' h' hh' req' ha'
      rfl
  · rw [hcode]
    constructor
    · intro hr
      exact ⟨s, hs, h, hh, req, List.mem_singleton.2 rfl, hr⟩
    · intro ⟨s', hs', h', hh', req', hi, hr⟩
      simp only [List.mem_singleton, Prod.mk.injEq] at hi
      obtain ⟨h1, h2, rfl⟩ := hi
      obtain ⟨rfl, rfl⟩ := hsame s' hs' h' hh' h1 h2
      exact hr

theorem handled_routes (hd : (ss.map Service.fullName).Nodup) (hw : ∀ s ∈ ss, WellNamed s) {d : Dispatched Msg}
    (h : Handled (registered ss) request response ctx d) (o : Option RpcContext) :
    Routes ss request response o (d.response, o.map fun _ => d.ctx, d.invoked) := by
  cases h with
  | noName hdot =>
    exact routes_fail (by decide) (by decide) _ o fun s _ h _ req => not_asks_of_no_dot hdot s h req
  | noService service method hname hm hs =>
    apply routes_fail (by decide) (by decide)
    intro s hs' h hh req ha
    have := ((asks_iff hd hw hname hm hs' hh).1 ha).1
    rw [hs] at this
    cases this
  | noMethod service method hname hm s hs hf =>
    apply routes_fail (by decide) (by decide)
    intro s' hs' h hh req ha
    obtain ⟨h1, h2, -⟩ := (asks_iff hd hw hname hm hs' hh).1 ha
    rw [hs] at h1
    obtain rfl := Option.some.inj h1
    rw [hf] at h2
    cases h2
  | noRequest service method hname hm s hs h hf hp =>
    apply routes_fail (by decide) (by decide)
    intro s' hs' h' hh req ha
    obtain ⟨h1, h2, h3⟩ := (asks_iff hd hw hname hm hs' hh).1 ha
    rw [hs] at h1
    obtain rfl := Option.some.inj h1
    rw [hf] at h2
    obtain rfl := Option.some.inj h2
    rw [hp] at h3
    cases h3
  | noReply service method hname hm s hs h hf req hp hr =>
    obtain ⟨hmem, rfl⟩ := mem_of_lookup hs
    obtain ⟨hh, rfl⟩ := mem_of_find hf
    exact routes_invoked hd hw hmem hh ⟨hname, hp⟩ o rfl rfl (by rw [hr]; simp [fail])
  | replied service method hname hm s hs h hf req hp pbData hr =>
    obtain ⟨hmem, rfl⟩ := mem_of_lookup hs
    obtain ⟨hh, rfl⟩ := mem_of_find hf
    exact routes_invoked hd hw hmem hh ⟨hname, hp⟩ o rfl rfl (by rw [hr]; simp)

theorem dispatchTo_eq (services : Services Msg) (o : Option RpcContext) : dispatchTo services request response o =
    ((dispatch services request response (o.getD {})).response,
      o.map fun _ => (dispatch services request response (o.getD {})).ctx,
      (dispatch services request response (o.getD {})).invoked) := by
  cases o <;> rfl

end

/-- **Routing**: among services of distinct names, a request is handled by the method whose full name it carries, once,
if the payload parses; it is refused with a code from 1 to 4 otherwise. -/
theorem dispatch_routes {ss : List (Service Msg)} (hd : (ss.map Service.fullName).Nodup) (hw : ∀ s ∈ ss, WellNamed s)
    (request response : TinyPBProtocol) (ctx : Option RpcContext) :
    Routes ss request response ctx (dispatchTo (registered ss) request response ctx) := by
  rw [dispatchTo_eq]
  exact handled_routes hd hw (dispatch_handled (registered ss) request response (ctx.getD {})) ctx

/-- the services `a.b` and `a`, the second with a method `b`: a request for `a.b.c` goes to the first -/
theorem dispatch_routes_nested :
    let c : MethodDescriptor Bool :=
      ⟨[99], fun bs => if bs = [] then some true else none, not, fun b => if b then none else some [7]⟩
    let b : MethodDescriptor Bool := ⟨[98], fun _ => some false, not, fun _ => some []⟩
    let ss : List (Service Bool) := [⟨[97, dot, 98], [c]⟩, ⟨[97], [b]⟩]
    let request : TinyPBProtocol := { methodName := [97, dot, 98, dot, 99] }
    Routes ss request {} (some {}) (dispatchTo (registered ss) request {} (some {})) ∧
      (dispatchTo (registered ss) request {} (some {})).1.pbData = [7] := by
  intro c b ss request
  refine ⟨dispatch_routes (by decide) ?_ request {} (some {}), by decide⟩
  intro s hs
  simp only [ss, List.mem_cons, List.not_mem_nil, or_false] at hs
  rcases hs with rfl | rfl
  · exact ⟨by decide, by decide⟩
  · exact ⟨by decide, by decide⟩

end RpcDispatcher

end MCoroRpc
