/-
Who closes a descriptor: TcpStream (src/tcpstream.cc), TcpService and start_tcp_service (include/net/tcpservice.hpp) and
the loop of connect (include/net/tcpconnector.hpp), all in one process.

The process has the descriptors the kernel holds open for it, and the holders: the streams and services, which move and
close alike, and the connects under way with their `sockfd`. The kernel gives a descriptor that is not open. A ::close
of one that is not open fails and changes nothing.

- `Safe`: what is held is open, and held once. `Owned`: and all that is open is held.
- `step_effect`: what a step can do to the two.
- `safe_iff`: a run stays safe exactly if no listen fails behind a bind that succeeded.
- `owned_iff`: it also leaves nothing open behind exactly if, besides, no connect with a socket throws or is cancelled.
- `listen_failed_steals`: behind such a listen the next descriptor may be closed by the service, in a stream that holds it.
-/
import MCoroRpc.Core.Machine
import MCoroRpc.Core.Table

namespace MCoroRpc

namespace Descriptors

/-! ## Model -/

inductive Holder where
  /-- a TcpStream with its `m_fd`, or a TcpService with its `m_listen_fd`; `none` is -1 -/
  | object (fd : Option ℕ)
  /-- the frame of a connect, with its `sockfd` -/
  | dialing (sockfd : Option ℕ)
  /-- destroyed -/
  | ended
deriving DecidableEq, Repr

structure Process where
  /-- what the kernel holds open -/
  opened : Finset ℕ
  holders : List Holder
deriving DecidableEq

/-- ::close, of a descriptor that may be -1 -/
def closeFd (fd : Option ℕ) (opened : Finset ℕ) : Finset ℕ := fd.elim opened opened.erase

/-- an address that getaddrinfo has found for start_tcp_service -/
structure Address where
  /-- what ::socket returns -/
  socket : Option ℕ
  /-- ::bind returns 0 -/
  binds : Bool
deriving DecidableEq, Repr

/-- the loop of start_tcp_service: what is open behind it, and `listenfd` -/
def bindLoop : List Address → Finset ℕ → Finset ℕ × Option ℕ
  | [], opened => (opened, none)
  | p :: rest, opened =>
    match p.socket with
    | none => bindLoop rest opened
    | some fd => if p.binds then (insert fd opened, some fd) else bindLoop rest (closeFd (some fd) (insert fd opened))

namespace Process

/-- a descriptor, or none, in a new object -/
def push (h : Holder) (s : Process) : Process := { s with holders := s.holders ++ [h] }

def put (i : ℕ) (h : Holder) (s : Process) : Process := { s with holders := s.holders.modify i fun _ => h }

/-- `start_tcp_service`; a listen that fails closes the descriptor, which the service gets all the same -/
def startTcpService (addresses : List Address) (listens : Bool) (s : Process) : Process :=
  let r := bindLoop addresses s.opened
  { s with opened := if listens then r.1 else closeFd r.2 r.1 }.push (.object r.2)

/-- accept4 returns a descriptor, and accept a TcpStream with it -/
def accept (fd : ℕ) (s : Process) : Process := { s with opened := insert fd s.opened }.push (.object (some fd))

/-- `close` of a stream or a service -/
def close (i : ℕ) (s : Process) : Process :=
  match s.holders[i]? with
  | some (.object fd) => { s with opened := closeFd fd s.opened }.put i (.object none)
  | _ => s

/-- the destructor, which calls `close` -/
def destroy (i : ℕ) (s : Process) : Process :=
  match s.holders[i]? with
  | some (.object _) => (s.close i).put i .ended
  | _ => s

/-- the move constructor, from the object `i` -/
def moveConstruct (i : ℕ) (s : Process) : Process :=
  match s.holders[i]? with
  | some (.object fd) => (s.put i (.object none)).push (.object fd)
  | _ => s

/-- `operator=` of the object `i`, from the object `j` -/
def moveAssign (i j : ℕ) (s : Process) : Process :=
  if i = j then s
  else
    match s.holders[i]?, s.holders[j]? with
    | some (.object _), some (.object fd) => ((s.close i).put j (.object none)).put i (.object fd)
    | _, _ => s

end Process

/-- how do_connect ends -/
inductive Dialed where
  | connected
  | notConnected
  /-- ::connect fails at once -/
  | throws
deriving DecidableEq, Repr

inductive Label where
  | startTcpService (addresses : List Address) (listens : Bool)
  | accept (fd : ℕ)
  /-- an object without a descriptor: `TcpStream()`, `TcpStream{-1}` -/
  | construct
  /-- connect is called -/
  | connect
  /-- its loop opens a socket for an address -/
  | socket (i : ℕ) (fd : ℕ)
  /-- its do_connect ends -/
  | dialed (i : ℕ) (r : Dialed)
  /-- no address is left: it throws -/
  | noAddress (i : ℕ)
  /-- its frame is destroyed by a cancel, while do_connect waits -/
  | cancel (i : ℕ)
  | moveConstruct (i : ℕ)
  | moveAssign (i j : ℕ)
  | close (i : ℕ)
  | destroy (i : ℕ)
deriving DecidableEq, Repr

def step (s : Process) : Label → Process
  | .startTcpService addresses listens => s.startTcpService addresses listens
  | .accept fd => s.accept fd
  | .construct => s.push (.object none)
  | .connect => s.push (.dialing none)
  | .socket i fd =>
    match s.holders[i]? with
    | some (.dialing none) => { s with opened := insert fd s.opened }.put i (.dialing (some fd))
    | _ => s
  | .dialed i r =>
    match s.holders[i]? with
    | some (.dialing (some fd)) =>
      match r with
      | .connected => s.put i (.object (some fd))
      | .notConnected => { s with opened := s.opened.erase fd }.put i (.dialing none)
      | .throws => s.put i .ended
    | _ => s
  | .noAddress i =>
    match s.holders[i]? with
    | some (.dialing none) => s.put i .ended
    | _ => s
  | .cancel i =>
    match s.holders[i]? with
    | some (.dialing _) => s.put i .ended
    | _ => s
  | .moveConstruct i => s.moveConstruct i
  | .moveAssign i j => s.moveAssign i j
  | .close i => s.close i
  | .destroy i => s.destroy i

def start : Process := ⟨∅, []⟩

/-- the kernel gives a descriptor that is not open -/
def Legal (s : Process) : Label → Prop
  | .startTcpService addresses _ => ∀ p ∈ addresses, ∀ fd ∈ p.socket, fd ∉ s.opened
  | .accept fd | .socket _ fd => fd ∉ s.opened
  | _ => True

instance (s : Process) : DecidablePred (Legal s)
  | .startTcpService addresses _ => inferInstanceAs (Decidable (∀ p ∈ addresses, ∀ fd ∈ p.socket, fd ∉ s.opened))
  | .accept fd | .socket _ fd => inferInstanceAs (Decidable (fd ∉ s.opened))
  | .construct | .connect | .dialed .. | .noAddress _ | .cancel _ | .moveConstruct _ | .moveAssign .. | .close _
  | .destroy _ => .isTrue trivial

/-! ## The properties -/

/-- what a holder closes -/
def Holder.held : Holder → Multiset ℕ
  | .object fd | .dialing fd => Multiset.ofList fd.toList
  | .ended => 0

/-- what the holders close together -/
def Process.held (s : Process) : Multiset ℕ := Table.total (fun _ => Holder.held) s.holders

/-- every descriptor that is held is open, and held once -/
def Safe (s : Process) : Prop := s.held ≤ s.opened.val

/-- and every open one is held -/
def Owned (s : Process) : Prop := s.held = s.opened.val

/-- a listen fails behind a bind that succeeded -/
def ListenFails : Label → Prop
  | .startTcpService addresses false => ∃ p ∈ addresses, p.socket.isSome ∧ p.binds = true
  | _ => False

/-- a connect that has a socket ends by an exception of do_connect, or is cancelled -/
def Forgets (s : Process) : Label → Prop
  | .dialed i .throws | .cancel i => ∃ fd, s.holders[i]? = some (.dialing (some fd))
  | _ => False

/-! ## What a step does -/

variable {s s' : Process} {l : Label} {i j fd : ℕ} {h h' : Holder}

inductive Effect (s : Process) (l : Label) (s' : Process) : Prop where
  | keeps : ¬ ListenFails l → ¬ Forgets s l → s'.opened = s.opened → s'.held = s.held → Effect s l s'
  /-- a descriptor is opened and held -/
  | gains (fd : ℕ) : ¬ ListenFails l → ¬ Forgets s l → fd ∉ s.opened → s'.opened = insert fd s.opened →
      s'.held = fd ::ₘ s.held → Effect s l s'
  /-- a descriptor is closed by the one that held it -/
  | releases (fd : ℕ) : ¬ ListenFails l → ¬ Forgets s l → s'.opened = s.opened.erase fd → s.held = fd ::ₘ s'.held →
      Effect s l s'
  /-- a descriptor is open and no longer held -/
  | forgets (fd : ℕ) : ¬ ListenFails l → Forgets s l → s'.opened = s.opened → s.held = fd ::ₘ s'.held → Effect s l s'
  /-- a descriptor is closed and held -/
  | doubles (fd : ℕ) : ListenFails l → fd ∉ s.opened → s'.opened = s.opened → s'.held = fd ::ₘ s.held → Effect s l s'

@[simp] theorem held_push : (s.push h).held = s.held + h.held := Table.total_snoc

theorem held_put (hi : s.holders[i]? = some h') : (s.put i h).held + h'.held = s.held + h.held :=
  Table.total_modify (fun _ => h) hi

@[simp] theorem opened_push : (s.push h).opened = s.opened := rfl

@[simp] theorem opened_put : (s.put i h).opened = s.opened := rfl

/-- the loop closes what it does not keep -/
theorem bindLoop_eq {addresses : List Address} {opened : Finset ℕ}
    (hnew : ∀ p ∈ addresses, ∀ fd ∈ p.socket, fd ∉ opened) :
    (bindLoop addresses opened = (opened, none) ∧ ¬ ∃ p ∈ addresses, p.socket.isSome ∧ p.binds = true) ∨
      ∃ fd, fd ∉ opened ∧ bindLoop addresses opened = (insert fd opened, some fd) ∧
        ∃ p ∈ addresses, p.socket.isSome ∧ p.binds = true := by
  induction addresses with
  | nil => exact .inl ⟨rfl, by simp⟩
  | cons p rest ih =>
    obtain ⟨hp, hrest⟩ := List.forall_mem_cons.1 hnew
    have hskip : ¬ (p.socket.isSome ∧ p.binds = true) → bindLoop (p :: rest) opened = bindLoop rest opened := by
      intro hno
      cases hsocket : p.socket with
      | none => rw [bindLoop, hsocket]
      | some fd =>
        have hbinds : p.binds = false := by simpa [hsocket] using hno
        have hclosed : closeFd (some fd) (insert fd opened) = opened := Finset.erase_insert (hp fd hsocket)
        rw [bindLoop, hsocket]
        simp only [hbinds, Bool.false_eq_true, if_false, hclosed]
    by_cases hbound : p.socket.isSome ∧ p.binds = true
    · right
      obtain ⟨fd, hsocket⟩ := Option.isSome_iff_exists.1 hbound.1
      refine ⟨fd, hp fd hsocket, ?_, p, List.mem_cons_self, hbound⟩
      rw [bindLoop, hsocket]
      simp only [hbound.2, if_true]
    · rw [hskip hbound]
      rcases ih hrest with ⟨hloop, hno⟩ | ⟨fd, hfd, hloop, q, hq, hbinds⟩
      · left
        refine ⟨hloop, ?_⟩
        rw [List.exists_mem_cons_iff]
        exact not_or.2 ⟨hbound, hno⟩
      · exact .inr ⟨fd, hfd, hloop, q, List.mem_cons_of_mem p hq, hbinds⟩

/-- a holder gives up what it holds -/
theorem held_drop (hi : s.holders[i]? = some h) (hh : h.held = {fd}) (h' : Holder) (hnone : h'.held = 0) :
    s.held = fd ::ₘ (s.put i h').held := by
  have hput := held_put (h := h') hi
  rw [hnone, add_zero, hh] at hput
  rw [← hput, ← Multiset.singleton_add, add_comm]

/-- a change of a holder that holds the same behind it -/
theorem held_same (hi : s.holders[i]? = some h) (hh : h'.held = h.held) : (s.put i h').held = s.held := by
  have hput := held_put (h := h') hi
  rw [hh] at hput
  exact add_right_cancel hput

theorem startTcpService_effect (addresses : List Address) (listens : Bool)
    (hl : Legal s (.startTcpService addresses listens)) :
    Effect s (.startTcpService addresses listens) (s.startTcpService addresses listens) := by
  rcases bindLoop_eq hl with ⟨hloop, hno⟩ | ⟨fd, hfd, hloop, hbound⟩
  · have hfails : ¬ ListenFails (.startTcpService addresses listens) := by
      cases listens with
      | true => exact id
      | false => exact hno
    have hopened : (s.startTcpService addresses listens).opened = s.opened := by
      cases listens <;> simp [Process.startTcpService, hloop, closeFd]
    refine .keeps hfails id hopened ?_
    have hheld : (s.startTcpService addresses listens).held = s.held + Holder.held (.object none) := by
      simp only [Process.startTcpService, hloop]
      exact held_push
    simpa [Holder.held] using hheld
  · have hheld : (s.startTcpService addresses listens).held = fd ::ₘ s.held := by
      have hpush : (s.startTcpService addresses listens).held = s.held + Holder.held (.object (some fd)) := by
        simp only [Process.startTcpService, hloop]
        exact held_push
      rw [hpush, add_comm]
      rfl
    cases listens with
    | true =>
      refine .gains fd id id hfd ?_ hheld
      simp [Process.startTcpService, hloop]
    | false =>
      refine .doubles fd hbound hfd ?_ hheld
      simp [Process.startTcpService, hloop, closeFd, Finset.erase_insert hfd]

/-- `close`, and the holder that it leaves without a descriptor -/
theorem close_cases {held : Option ℕ} (hi : s.holders[i]? = some (.object held)) :
    (s.close i).holders[i]? = some (.object none) ∧
      (∀ j h, j ≠ i → s.holders[j]? = some h → (s.close i).holders[j]? = some h) ∧
      (held = none ∧ (s.close i).opened = s.opened ∧ (s.close i).held = s.held ∨
        ∃ fd, held = some fd ∧ (s.close i).opened = s.opened.erase fd ∧ s.held = fd ::ₘ (s.close i).held) := by
  have hclose : s.close i = { s with opened := closeFd held s.opened }.put i (.object none) := by
    simp only [Process.close, hi]
  rw [hclose]
  refine ⟨?_, ?_, ?_⟩
  · simp [Process.put, hi]
  · intro j h hj hh
    simpa [Process.put, List.getElem?_modify, Ne.symm hj] using hh
  · cases held with
    | none => exact .inl ⟨rfl, rfl, held_same (s := s) hi rfl⟩
    | some fd => exact .inr ⟨fd, rfl, rfl, held_drop (s := s) hi rfl _ rfl⟩

theorem Effect.of_close {held : Option ℕ} (hi : s.holders[i]? = some (.object held)) (hlisten : ¬ ListenFails l)
    (hforgets : ¬ Forgets s l) (hopened : s'.opened = (s.close i).opened) (hheld : s'.held = (s.close i).held) :
    Effect s l s' := by
  obtain ⟨-, -, ⟨-, ho, hh⟩ | ⟨fd, -, ho, hh⟩⟩ := close_cases hi
  · exact .keeps hlisten hforgets (hopened.trans ho) (hheld.trans hh)
  · exact .releases fd hlisten hforgets (hopened.trans ho) (hheld ▸ hh)

theorem Effect.of_eq (hlisten : ¬ ListenFails l) (hforgets : ¬ Forgets s l) (hs : s' = s) : Effect s l s' := by
  subst hs
  exact .keeps hlisten hforgets rfl rfl

theorem step_effect (hl : Legal s l) : Effect s l (step s l) := by
  cases l with
  | startTcpService addresses listens => exact startTcpService_effect addresses listens hl
  | accept fd =>
    refine .gains fd id id hl rfl ?_
    have hheld : (step s (.accept fd)).held = s.held + {fd} := held_push (s := { s with opened := insert fd s.opened })
    rw [hheld, add_comm, Multiset.singleton_add]
  | construct => exact .keeps id id rfl (held_push.trans (add_zero _))
  | connect => exact .keeps id id rfl (held_push.trans (add_zero _))
  | socket i fd =>
    simp only [step]
    split
    · next hi =>
      refine .gains fd id id hl rfl ?_
      have hput := held_put (s := { s with opened := insert fd s.opened }) (h := .dialing (some fd)) hi
      calc _ = _ + Holder.held (.dialing none) := (add_zero _).symm
        _ = s.held + {fd} := hput
        _ = fd ::ₘ s.held := by rw [add_comm, Multiset.singleton_add]
    · exact .of_eq id id rfl
  | dialed i r =>
    cases hi : s.holders[i]? with
    | none => exact .of_eq (by cases r <;> exact id) (by cases r <;> simp [Forgets, hi]) (by simp [step, hi])
    | some h =>
      by_cases hh : ∃ fd, h = .dialing (some fd)
      · obtain ⟨fd, rfl⟩ := hh
        simp only [step, hi]
        cases r with
        | connected => exact .keeps id id rfl (held_same hi rfl)
        | notConnected =>
          exact .releases fd id id rfl (held_drop (s := s) hi rfl (.dialing none) rfl)
        | throws => exact .forgets fd id ⟨fd, hi⟩ rfl (held_drop hi rfl _ rfl)
      · refine .of_eq id ?_ ?_
        · cases r with
          | throws =>
            rintro ⟨fd, hfd⟩
            exact hh ⟨fd, Option.some.inj (hi.symm.trans hfd)⟩
          | connected => exact id
          | notConnected => exact id
        · simp only [step, hi]
          split
          · next hd => exact absurd ⟨_, Option.some.inj hd⟩ hh
          · rfl
  | noAddress i =>
    simp only [step]
    split
    · next hi => exact .keeps id id rfl (held_same hi rfl)
    · exact .of_eq id id rfl
  | cancel i =>
    simp only [step]
    split
    · next sockfd hi =>
      cases sockfd with
      | none =>
        refine .keeps id ?_ rfl (held_same hi rfl)
        rintro ⟨fd, hfd⟩
        cases hi.symm.trans hfd
      | some fd => exact .forgets fd id ⟨fd, hi⟩ rfl (held_drop hi rfl _ rfl)
    · next hno =>
      refine .of_eq id ?_ rfl
      rintro ⟨fd, hfd⟩
      exact hno _ hfd
  | moveConstruct i =>
    simp only [step, Process.moveConstruct]
    split
    · next fd hi =>
      refine .keeps id id rfl ?_
      have hput := held_put (h := .object none) hi
      rw [held_push]
      simpa [Holder.held] using hput
    · exact .of_eq id id rfl
  | moveAssign i j =>
    simp only [step, Process.moveAssign]
    split_ifs with hij
    · exact .of_eq id id rfl
    · split
      · next old fd hi hj =>
        obtain ⟨hafter, hother, -⟩ := close_cases hi
        have hj' := hother j _ (Ne.symm hij) hj
        refine Effect.of_close hi id id rfl ?_
        have htake := held_put (h := .object none) hj'
        have hi' : ((s.close i).put j (.object none)).holders[i]? = some (.object none) := by
          simpa [Process.put, List.getElem?_modify, Ne.symm hij] using hafter
        have hgive := held_put (h := .object fd) hi'
        calc _ = ((((s.close i).put j (.object none)).put i (.object fd)).held + Holder.held (.object none)) :=
              (add_zero _).symm
          _ = ((s.close i).put j (.object none)).held + Holder.held (.object fd) := hgive
          _ = (s.close i).held + Holder.held (.object none) := htake
          _ = (s.close i).held := add_zero _
      · exact .of_eq id id rfl
  | close i =>
    by_cases hobject : ∃ held, s.holders[i]? = some (.object held)
    · obtain ⟨held, hi⟩ := hobject
      exact Effect.of_close hi id id rfl rfl
    · refine .of_eq id id ?_
      simp only [step, Process.close]
      split
      · next hi => exact absurd ⟨_, hi⟩ hobject
      · rfl
  | destroy i =>
    simp only [step, Process.destroy]
    split
    · next held hi =>
      obtain ⟨hafter, -, -⟩ := close_cases hi
      exact Effect.of_close hi id id rfl (held_same hafter rfl)
    · exact .of_eq id id rfl

/-! ## Whole runs -/

theorem ListenFails.not_forgets (h : ListenFails l) : ¬ Forgets s l := by
  cases l with
  | startTcpService addresses listens => exact id
  | _ => exact h.elim

theorem Owned.safe (h : Owned s) : Safe s := le_of_eq h

theorem safe_of_effect (h : Safe s) (he : Effect s l s') (hlisten : ¬ ListenFails l) : Safe s' := by
  cases he with
  | keeps _ _ ho hh => rwa [Safe, ho, hh]
  | gains fd _ _ hfd ho hh =>
    rw [Safe, ho, hh, Finset.insert_val_of_notMem hfd]
    exact Multiset.cons_le_cons fd h
  | releases fd _ _ ho hh =>
    have herase : s'.held = s.held.erase fd := by rw [hh, Multiset.erase_cons_head]
    rw [Safe, ho, herase]
    exact Multiset.erase_le_erase fd h
  | forgets fd _ _ ho hh =>
    rw [Safe, ho]
    exact le_trans (hh ▸ Multiset.le_cons_self _ fd) h
  | doubles fd hfails => exact absurd hfails hlisten

theorem not_safe_of_effect (he : Effect s l s') (hlisten : ListenFails l) : ¬ Safe s' := by
  cases he with
  | keeps hno | gains _ hno | releases _ hno | forgets _ hno => exact absurd hlisten hno
  | doubles fd _ hfd ho hh =>
    intro hsafe
    rw [Safe, ho, hh] at hsafe
    exact hfd (Multiset.mem_of_le hsafe (Multiset.mem_cons_self fd _))

theorem owned_of_effect (h : Owned s) (he : Effect s l s') (hlisten : ¬ ListenFails l) (hforgets : ¬ Forgets s l) :
    Owned s' := by
  cases he with
  | keeps _ _ ho hh => rw [Owned, ho, hh, h]
  | gains fd _ _ hfd ho hh => rw [Owned, ho, hh, Finset.insert_val_of_notMem hfd, h]
  | releases fd _ _ ho hh =>
    have herase : s'.held = s.held.erase fd := by rw [hh, Multiset.erase_cons_head]
    rw [Owned, ho, herase, h]
    rfl
  | forgets _ _ hyes => exact absurd hyes hforgets
  | doubles fd hfails => exact absurd hfails hlisten

theorem not_owned_of_effect (h : Owned s) (he : Effect s l s') (hforgets : Forgets s l) : ¬ Owned s' := by
  cases he with
  | keeps _ hno | gains _ _ hno | releases _ _ hno => exact absurd hforgets hno
  | forgets fd _ _ ho hh =>
    intro howned
    have hsame : fd ::ₘ s'.held = s'.held := by rw [← hh, h, howned, ho]
    exact absurd (congrArg Multiset.card hsame) (by rw [Multiset.card_cons]; omega)
  | doubles fd hfails => exact absurd hforgets hfails.not_forgets

theorem start_owned : Owned start := rfl

/-- **What is held is open**: a run stays safe exactly if no listen fails behind a bind that succeeded -/
theorem safe_iff {ls : List Label} (hls : Machine.Along step Legal start ls) :
    (∀ n, Safe (Machine.run step start (ls.take n))) ↔ Machine.Along step (fun _ l => ¬ ListenFails l) start ls := by
  apply Machine.along_iff_of_along (fun _ h => h) ?_ ?_ start_owned.safe hls
  · intro s l hl h hc
    exact safe_of_effect h (step_effect hl) hc
  · intro s l hl _ hc
    exact not_safe_of_effect (step_effect hl) (not_not.1 hc)

/-- **One holder**: every open descriptor has exactly one holder, which closes it, in all of a run exactly if, besides, no
connect that has a socket throws or is cancelled -/
theorem owned_iff {ls : List Label} (hls : Machine.Along step Legal start ls) :
    (∀ n, Owned (Machine.run step start (ls.take n))) ↔
      Machine.Along step (fun s l => ¬ ListenFails l ∧ ¬ Forgets s l) start ls := by
  apply Machine.along_iff_of_along (fun _ h => h) ?_ ?_ start_owned hls
  · intro s l hl h hc
    exact owned_of_effect h (step_effect hl) hc.1 hc.2
  · intro s l hl h hc howned
    rcases not_and_or.1 hc with hlisten | hforgets
    · exact not_safe_of_effect (step_effect hl) (not_not.1 hlisten) howned.safe
    · exact not_owned_of_effect h (step_effect hl) (not_not.1 hforgets) howned

/-- a stream is accepted, moved into another object and destroyed, while a connect opens a socket, gives it up and fails -/
abbrev tidyRun : List Label :=
  [.startTcpService [⟨none, true⟩, ⟨some 3, false⟩, ⟨some 3, true⟩] true, .connect, .accept 4, .socket 1 5, .construct,
    .moveAssign 3 2, .dialed 1 .notConnected, .destroy 2, .noAddress 1, .destroy 3]

theorem tidyRun_legal : Machine.Along step Legal start tidyRun :=
  ⟨by decide, trivial, by decide, by decide, trivial, trivial, trivial, trivial, trivial, trivial, trivial⟩

theorem safe_iff_tidy : (∀ n, Safe (Machine.run step start (tidyRun.take n))) ∧
    (Machine.run step start tidyRun).held = {3} :=
  ⟨(safe_iff tidyRun_legal).2 ⟨id, id, id, id, id, id, id, id, id, id, trivial⟩, by decide⟩

theorem owned_iff_tidy : (∀ n, Owned (Machine.run step start (tidyRun.take n))) ∧
    (Machine.run step start tidyRun).opened = {3} := by
  refine ⟨(owned_iff tidyRun_legal).2 ?_, by decide⟩
  exact ⟨⟨id, id⟩, ⟨id, id⟩, ⟨id, id⟩, ⟨id, id⟩, ⟨id, id⟩, ⟨id, id⟩, ⟨id, id⟩, ⟨id, id⟩, ⟨id, id⟩, ⟨id, id⟩, trivial⟩

/-! ## Behind a listen that has failed -/

/-- the listen fails, a stream is accepted, and the service `i` is destroyed -/
abbrev stealingRun (addresses : List Address) (fd i : ℕ) : List Label :=
  [.startTcpService addresses false, .accept fd] ++ [.destroy i]

/-- the kernel may give the descriptor of the service to the next stream, which the destructor of the service closes -/
theorem listen_failed_steals {addresses : List Address} (hl : Legal s (.startTcpService addresses false))
    (hfails : ListenFails (.startTcpService addresses false)) : ∃ fd,
      Machine.Along step Legal s (stealingRun addresses fd s.holders.length) ∧
        (Machine.run step s (stealingRun addresses fd s.holders.length)).holders[s.holders.length + 1]? =
          some (.object (some fd)) ∧
        fd ∉ (Machine.run step s (stealingRun addresses fd s.holders.length)).opened := by
  rcases bindLoop_eq hl with ⟨-, hno⟩ | ⟨fd, hfd, hloop, -⟩
  · exact absurd hfails hno
  · have hfailed : step s (.startTcpService addresses false) = ⟨s.opened, s.holders ++ [.object (some fd)]⟩ := by
      simp [step, Process.startTcpService, Process.push, hloop, closeFd, Finset.erase_insert hfd]
    refine ⟨fd, ⟨hl, ?_, trivial, trivial⟩, ?_⟩
    · rw [hfailed]
      exact hfd
    · have haccepted : Machine.run step s [.startTcpService addresses false, .accept fd] =
          ⟨insert fd s.opened, s.holders ++ [.object (some fd), .object (some fd)]⟩ := by
        rw [Machine.run_cons, hfailed]
        simp [step, Process.accept, Process.push]
      rw [stealingRun, Machine.run_append, haccepted]
      simp [step, Process.destroy, Process.close, Process.put, closeFd]

end Descriptors

end MCoroRpc
