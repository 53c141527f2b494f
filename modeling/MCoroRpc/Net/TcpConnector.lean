/-
net::connect (include/net/tcpconnector.hpp): the loop over the addresses that getaddrinfo has found.

What the system answers at an address is data (`Address`). A socket is known by the place of its address, besides its
number, which the system may give again.

- `doConnect`, `connectLoop`, `connect`: with the sockets opened and closed on the way.
- `Refused`: an immediate error of ::connect, which do_connect throws.
- `connectLoop_append`: addresses that fail are gone through, and each of their sockets is closed.
- `TriesAll`: the first address that can be connected is returned, an exception comes only when there is none, and every
  other socket is closed once.
- `connect_triesAll_iff`: that holds exactly if no address is refused in front of the first that can be connected.
-/
import Mathlib.Tactic

namespace MCoroRpc

namespace TcpConnector

/-! ## Model -/

def EINPROGRESS : ℤ := 115

/-- an address, and how the calls for it end -/
structure Address where
  /-- what ::socket returns -/
  socket : ℤ
  /-- what ::connect returns -/
  ret : ℤ
  errno : ℤ
  /-- what ::getsockopt returns when the socket has become writable -/
  getsockopt : ℤ
  /-- SO_ERROR -/
  soError : ℤ
deriving DecidableEq, Repr

/-- `detail::do_connect`; an error is an exception with this errno -/
def doConnect (p : Address) : Except ℤ Bool :=
  if p.ret = 0 then .ok true
  else if p.ret < 0 ∧ p.errno ≠ EINPROGRESS then .error p.errno
  else if p.getsockopt < 0 then .ok false
  else .ok (p.soError = 0)

/-- a socket of the address at a place of the list -/
structure Socket where
  place : ℕ
  fd : ℤ
deriving DecidableEq, Repr

inductive Event where
  | opened (s : Socket)
  | closed (s : Socket)
deriving DecidableEq, Repr

inductive Failure where
  /-- "connect failed", with an errno -/
  | connectFailed (errno : ℤ)
  /-- what gai_strerror says -/
  | notResolved
  /-- "no address succeeded" -/
  | noAddress
deriving DecidableEq, Repr

/-- the loop from the address at `place` on: what happens to sockets, and `sockfd` behind it -/
def connectLoop (place : ℕ) : List Address → List Event × Except Failure (Option Socket)
  | [] => ([], .ok none)
  | p :: rest =>
    if p.socket = -1 then connectLoop (place + 1) rest
    else
      match doConnect p with
      | .error errno => ([.opened ⟨place, p.socket⟩], .error (.connectFailed errno))
      | .ok true => ([.opened ⟨place, p.socket⟩], .ok (some ⟨place, p.socket⟩))
      | .ok false =>
        let r := connectLoop (place + 1) rest
        (.opened ⟨place, p.socket⟩ :: .closed ⟨place, p.socket⟩ :: r.1, r.2)

/-- `connect`, when getaddrinfo fails or finds these addresses: the socket of the TcpStream, or an exception -/
def connect : Option (List Address) → List Event × Except Failure Socket
  | none => ([], .error .notResolved)
  | some addresses =>
    let r := connectLoop 0 addresses
    (r.1, r.2.bind fun sockfd => sockfd.elim (.error .noAddress) .ok)

/-! ## The property -/

/-- the address has a socket, which gets connected -/
def Succeeds (p : Address) : Prop := p.socket ≠ -1 ∧ doConnect p = .ok true

/-- ::connect fails at once -/
def Refused (p : Address) : Prop := p.socket ≠ -1 ∧ p.ret < 0 ∧ p.errno ≠ EINPROGRESS

instance : DecidablePred Succeeds := fun p => by unfold Succeeds; infer_instance

instance : DecidablePred Refused := fun p => by unfold Refused; infer_instance

/-- what connect is for -/
structure TriesAll (addresses : List Address) (events : List Event) (result : Except Failure Socket) : Prop where
  /-- the stream is on the first address that can be connected -/
  first : ∀ s, result = .ok s ↔ (∃ p, addresses[s.place]? = some p ∧ p.socket = s.fd ∧ Succeeds p) ∧
    ∀ (j : ℕ) (p : Address), j < s.place → addresses[j]? = some p → ¬ Succeeds p
  throws : ∀ e, result = .error e → ∀ p ∈ addresses, ¬ Succeeds p
  /-- the other sockets are closed once -/
  closed : ∀ s, .opened s ∈ events → result ≠ .ok s → events.count (.closed s) = 1
  /-- nothing else is closed -/
  kept : ∀ s, .closed s ∈ events → .opened s ∈ events ∧ result ≠ .ok s

/-- no address is refused in front of the first that can be connected -/
def NotRefused (addresses : List Address) : Prop :=
  ∀ (j : ℕ) (p : Address), addresses[j]? = some p →
    (∀ (i : ℕ) (q : Address), i < j → addresses[i]? = some q → ¬ Succeeds q) → ¬ Refused p

/-! ## Addresses that fail -/

variable {p : Address} {pre post addresses : List Address} {place : ℕ} {s : Socket}

/-- the address lets the loop go on -/
def Fails (p : Address) : Prop := ¬ Succeeds p ∧ ¬ Refused p

theorem doConnect_of_refused (h : Refused p) : doConnect p = .error p.errno := by
  rw [doConnect, if_neg (by have := h.2.1; omega), if_pos h.2]

theorem doConnect_of_fails (h : Fails p) (hsocket : p.socket ≠ -1) : doConnect p = .ok false := by
  have hrefused : ¬ (p.ret < 0 ∧ p.errno ≠ EINPROGRESS) := fun hr => h.2 ⟨hsocket, hr⟩
  have hsucceeds : doConnect p ≠ .ok true := fun hs => h.1 ⟨hsocket, hs⟩
  unfold doConnect at hsucceeds ⊢
  rw [if_neg hrefused] at hsucceeds ⊢
  split_ifs with hret hopt
  · rw [if_pos hret] at hsucceeds
    exact absurd rfl hsucceeds
  · rfl
  · rw [if_neg hret, if_neg hopt] at hsucceeds
    exact congrArg _ (Bool.eq_false_iff.2 fun ht => hsucceeds (congrArg _ ht))

theorem not_refused_of_succeeds (h : Succeeds p) : ¬ Refused p := fun hr => by
  cases (doConnect_of_refused hr).symm.trans h.2

/-- what failing addresses do to sockets -/
def failed (place : ℕ) : List Address → List Event
  | [] => []
  | p :: rest =>
    if p.socket = -1 then failed (place + 1) rest
    else .opened ⟨place, p.socket⟩ :: .closed ⟨place, p.socket⟩ :: failed (place + 1) rest

/-- **The loop** goes through addresses that fail -/
theorem connectLoop_append (hpre : ∀ p ∈ pre, Fails p) (post : List Address) (place : ℕ) :
    connectLoop place (pre ++ post) =
      (failed place pre ++ (connectLoop (place + pre.length) post).1, (connectLoop (place + pre.length) post).2) := by
  induction pre generalizing place with
  | nil => rfl
  | cons p pre ih =>
    have ih := ih (fun q hq => hpre q (List.mem_cons_of_mem p hq)) (place + 1)
    rw [List.length_cons, show place + (pre.length + 1) = place + 1 + pre.length by omega, List.cons_append]
    by_cases hsocket : p.socket = -1
    · simp only [connectLoop, failed, if_pos hsocket, ih]
    · simp only [connectLoop, failed, if_neg hsocket, doConnect_of_fails (hpre p List.mem_cons_self) hsocket, ih,
        List.cons_append]

/-- the places of sockets of failing addresses -/
theorem mem_failed_place (h : .opened s ∈ failed place pre ∨ .closed s ∈ failed place pre) :
    place ≤ s.place ∧ s.place < place + pre.length := by
  induction pre generalizing place with
  | nil => simp [failed] at h
  | cons p pre ih =>
    rw [List.length_cons]
    unfold failed at h
    split_ifs at h with hsocket
    · have := ih h
      omega
    · simp only [List.mem_cons, Event.opened.injEq, Event.closed.injEq, reduceCtorEq, false_or] at h
      rcases h with (rfl | h) | (rfl | h)
      · simp only; omega
      · have := ih (.inl h); omega
      · simp only; omega
      · have := ih (.inr h); omega

/-- each of them is closed once -/
theorem failed_closed (h : .opened s ∈ failed place pre) : (failed place pre).count (.closed s) = 1 := by
  induction pre generalizing place with
  | nil => simp [failed] at h
  | cons p pre ih =>
    unfold failed at h ⊢
    split_ifs at h ⊢ with hsocket
    · exact ih h
    · simp only [List.mem_cons, Event.opened.injEq, reduceCtorEq, false_or] at h
      rw [List.count_cons_of_ne (by simp), List.count_cons]
      rcases h with rfl | h
      · have hrest : (failed (place + 1) pre).count (.closed ⟨place, p.socket⟩) = 0 := by
          rw [List.count_eq_zero]
          intro hmem
          have := (mem_failed_place (.inr hmem)).1
          simp only at this
          omega
        rw [hrest, if_pos (beq_self_eq_true _)]
      · have hne : s.place ≠ place := by
          have := (mem_failed_place (.inl h)).1
          omega
        rw [ih h, if_neg (by simp only [beq_iff_eq, Event.closed.injEq]; rintro rfl; exact hne rfl)]

theorem failed_opened (h : .closed s ∈ failed place pre) : .opened s ∈ failed place pre := by
  induction pre generalizing place with
  | nil => simp [failed] at h
  | cons p pre ih =>
    unfold failed at h ⊢
    split_ifs at h ⊢ with hsocket
    · exact ih h
    · simp only [List.mem_cons, Event.closed.injEq, Event.opened.injEq, reduceCtorEq, false_or] at h ⊢
      exact h.imp id ih

/-! ## The loop -/

/-- all addresses fail, or there is a first that does not -/
theorem fails_or_first (addresses : List Address) : (∀ p ∈ addresses, Fails p) ∨
    ∃ pre p post, addresses = pre ++ p :: post ∧ (∀ q ∈ pre, Fails q) ∧ (Succeeds p ∨ Refused p) := by
  induction addresses with
  | nil => exact .inl (by simp)
  | cons p rest ih =>
    by_cases hp : Fails p
    · rcases ih with hall | ⟨pre, q, post, rfl, hpre, hq⟩
      · exact .inl (List.forall_mem_cons.2 ⟨hp, hall⟩)
      · exact .inr ⟨p :: pre, q, post, rfl, List.forall_mem_cons.2 ⟨hp, hpre⟩, hq⟩
    · refine .inr ⟨[], p, rest, rfl, by simp, ?_⟩
      by_contra hno
      exact hp (not_or.1 hno)

theorem connect_of_fails (h : ∀ p ∈ addresses, Fails p) :
    connect (some addresses) = (failed 0 addresses, .error .noAddress) := by
  have hloop := connectLoop_append h [] 0
  rw [List.append_nil, connectLoop, List.append_nil] at hloop
  simp only [connect, hloop]
  rfl

theorem connect_of_succeeds (hpre : ∀ q ∈ pre, Fails q) (hp : Succeeds p) (post : List Address) :
    connect (some (pre ++ p :: post)) =
      (failed 0 pre ++ [.opened ⟨pre.length, p.socket⟩], .ok ⟨pre.length, p.socket⟩) := by
  simp only [connect, connectLoop_append hpre, connectLoop, if_neg hp.1, hp.2, Nat.zero_add]
  rfl

theorem connect_of_refused (hpre : ∀ q ∈ pre, Fails q) (hp : Refused p) (post : List Address) :
    connect (some (pre ++ p :: post)) =
      (failed 0 pre ++ [.opened ⟨pre.length, p.socket⟩], .error (.connectFailed p.errno)) := by
  simp only [connect, connectLoop_append hpre, connectLoop, if_neg hp.1, doConnect_of_refused hp, Nat.zero_add]
  rfl

/-- the socket behind failing addresses has not been closed -/
theorem not_mem_closed_last (pre : List Address) (fd : ℤ) : Event.closed ⟨pre.length, fd⟩ ∉ failed 0 pre := by
  intro h
  have := (mem_failed_place (.inr h)).2
  simp only at this
  omega

/-- an address in front of another one -/
theorem mem_of_lt {j : ℕ} {q : Address} (hj : j < pre.length) (hq : (pre ++ p :: post)[j]? = some q) : q ∈ pre := by
  rw [List.getElem?_append_left hj] at hq
  exact List.mem_of_getElem? hq

theorem getElem?_middle (pre : List Address) (p : Address) (post : List Address) :
    (pre ++ p :: post)[pre.length]? = some p := by
  rw [List.getElem?_append_right le_rfl, Nat.sub_self, List.getElem?_cons_zero]

theorem triesAll_of_fails (h : ∀ p ∈ addresses, Fails p) :
    TriesAll addresses (failed 0 addresses) (.error .noAddress) := by
  refine ⟨fun s => ⟨fun he => (by cases he), ?_⟩, fun _ _ p hp => (h p hp).1, fun s ho _ => failed_closed ho,
    fun s hc => ⟨failed_opened hc, fun he => by cases he⟩⟩
  rintro ⟨⟨p, hp, -, hs⟩, -⟩
  exact absurd hs (h p (List.mem_of_getElem? hp)).1

theorem triesAll_of_succeeds (hpre : ∀ q ∈ pre, Fails q) (hp : Succeeds p) (post : List Address) :
    TriesAll (pre ++ p :: post) (failed 0 pre ++ [.opened ⟨pre.length, p.socket⟩])
      (.ok ⟨pre.length, p.socket⟩) := by
  have hhere := getElem?_middle pre p post
  refine ⟨fun s => ⟨fun he => ?_, ?_⟩, fun e he => (by cases he), fun s ho hne => ?_, fun s hc => ?_⟩
  · cases he
    exact ⟨⟨p, hhere, rfl, hp⟩, fun j q hj hq => (hpre q (mem_of_lt hj hq)).1⟩
  · rintro ⟨⟨q, hq, hfd, hs⟩, hfirst⟩
    -- the first place at which an address succeeds is that of `p`
    have hge : ¬ s.place < pre.length := fun hlt => (hpre q (mem_of_lt hlt hq)).1 hs
    have hle : ¬ pre.length < s.place := fun hlt => hfirst pre.length p hlt hhere hp
    have hplace : s.place = pre.length := by omega
    rw [hplace, hhere] at hq
    cases hq
    obtain ⟨place, fd⟩ := s
    subst hplace hfd
    rfl
  · rcases List.mem_append.1 ho with ho | ho
    · rw [List.count_append, failed_closed ho, List.count_singleton, if_neg (by simp)]
    · cases List.mem_singleton.1 ho
      exact absurd rfl hne
  · rcases List.mem_append.1 hc with hc | hc
    · refine ⟨List.mem_append_left _ (failed_opened hc), fun he => ?_⟩
      cases he
      exact not_mem_closed_last pre p.socket hc
    · cases List.mem_singleton.1 hc

/-- the exception leaves a socket open -/
theorem not_triesAll_of_refused (hpre : ∀ q ∈ pre, Fails q) (hp : Refused p) (post : List Address) :
    ¬ TriesAll (pre ++ p :: post) (connect (some (pre ++ p :: post))).1 (connect (some (pre ++ p :: post))).2 := by
  rw [connect_of_refused hpre hp]
  intro h
  have hcount := h.closed ⟨pre.length, p.socket⟩ (List.mem_append_right _ (List.mem_singleton_self _))
    (fun he => by cases he)
  rw [List.count_append, List.count_eq_zero.2 (not_mem_closed_last pre p.socket), List.count_singleton,
    if_neg (by simp)] at hcount
  cases hcount

/-- **Connecting**: for every list of addresses and every way in which the calls for them end, connect returns the first
address that can be connected, throws only if there is none and closes every other socket once, if and only if no address is
refused in front of the first that can be connected -/
theorem connect_triesAll_iff (addresses : List Address) :
    TriesAll addresses (connect (some addresses)).1 (connect (some addresses)).2 ↔ NotRefused addresses := by
  rcases fails_or_first addresses with hall | ⟨pre, p, post, rfl, hpre, hp | hp⟩
  · rw [connect_of_fails hall]
    exact ⟨fun _ j p hj _ => (hall p (List.mem_of_getElem? hj)).2, fun _ => triesAll_of_fails hall⟩
  · rw [connect_of_succeeds hpre hp]
    refine ⟨fun _ j q hj hfirst => ?_, fun _ => triesAll_of_succeeds hpre hp post⟩
    have hle : ¬ pre.length < j := fun hlt => hfirst pre.length p hlt (getElem?_middle pre p post) hp
    rcases Nat.lt_or_ge j pre.length with hlt | hge
    · exact (hpre q (mem_of_lt hlt hj)).2
    · obtain rfl : j = pre.length := by omega
      rw [getElem?_middle] at hj
      cases hj
      exact not_refused_of_succeeds hp
  · refine ⟨fun h => absurd h (not_triesAll_of_refused hpre hp post), fun h => ?_⟩
    exact absurd hp (h pre.length p (getElem?_middle pre p post) fun i q hi hq => (hpre q (mem_of_lt hi hq)).1)

/-- an IPv6 address without a route (ENETUNREACH) in front of an IPv4 address that accepts -/
theorem connect_unreachable_first :
    connect (some [⟨3, -1, 101, 0, 0⟩, ⟨4, -1, EINPROGRESS, 0, 0⟩]) =
        ([.opened ⟨0, 3⟩], .error (.connectFailed 101)) ∧
      Succeeds ⟨4, -1, EINPROGRESS, 0, 0⟩ ∧
      ¬ TriesAll [⟨3, -1, 101, 0, 0⟩, ⟨4, -1, EINPROGRESS, 0, 0⟩]
        (connect (some [⟨3, -1, 101, 0, 0⟩, ⟨4, -1, EINPROGRESS, 0, 0⟩])).1
        (connect (some [⟨3, -1, 101, 0, 0⟩, ⟨4, -1, EINPROGRESS, 0, 0⟩])).2 :=
  ⟨rfl, by decide, not_triesAll_of_refused (by simp : ∀ q ∈ ([] : List Address), Fails q) (by decide) _⟩

end TcpConnector

end MCoroRpc
