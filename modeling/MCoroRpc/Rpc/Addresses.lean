/-
The name of an instance as an address (getOrCreateChannel in src/rpc_client_impl.cc, IPNetAddr in src/net_addr.cc).

A name is cut at its first colon, what is behind it goes through std::stoi, and the `int` becomes the uint16_t that
IPNetAddr::Create takes. std::stoi skips blanks, takes a sign, stops at the first character that is no digit, and throws
where there is none; it stands outside the try block.

- `channelAddr`: the address of the channel that is made for a name.
- `channelAddr_toString`: a name that toString or registerToZk has written is read back.
- `Keyed`: a channel of the pool has the address that its key gives; getOrCreateChannel keeps that.
- `Reads`: the name gives a channel to `h` and `p` if it is `h:p`, and otherwise a null channel.
- `reads_iff`: that holds exactly for the names without a colon and for those of the form.
-/
import Mathlib.Data.List.TakeWhile
import MCoroRpc.Core.Getline
import MCoroRpc.Rpc.RpcClient

namespace MCoroRpc

namespace Addresses

open CInt
open TcpStream (Bytes)
open RpcClient (Conn Connect Lookup Pool createChannel getOrCreateChannel isDigit isSpace stoi)
open RpcDispatcher (ascii)

/-! ## Model -/

structure IPNetAddr where
  ip : Bytes
  /-- a uint16_t -/
  port : ℕ
deriving DecidableEq, Repr

/-- `IPNetAddr::Create`, with the conversion of its second argument -/
def IPNetAddr.create (ip : Bytes) (port : ℤ) : IPNetAddr := ⟨ip, (port % 65536).toNat⟩

/-- `std::to_string` -/
def toDecimal (n : ℕ) : Bytes := ascii (toString n)

def IPNetAddr.toString (a : IPNetAddr) : Bytes := a.ip ++ 58 :: toDecimal a.port

/-- `m_addr` of a channel -/
def addrOf (conn : Conn) : IPNetAddr := .create conn.host conn.port

/-- what becomes of a name before the connect -/
inductive ChannelAddr where
  | null
  | addressed (a : IPNetAddr)
  /-- std::stoi throws -/
  | raised
deriving DecidableEq, Repr

/-- find, substr, std::stoi, and the constructor of RpcChannel -/
def channelAddr (addr : Bytes) : ChannelAddr :=
  match addr.idxOf? 58 with
  | none => .null
  | some colonPos =>
    match stoi (addr.drop (colonPos + 1)) with
    | none => .raised
    | some port => .addressed (.create (addr.take colonPos) port)

/-- `h` and `p` with a colon between them, `p` in decimal digits -/
def Form (addr h : Bytes) (p : ℕ) : Prop := 58 ∉ h ∧ 1 ≤ p ∧ p ≤ 65535 ∧ addr = h ++ 58 :: toDecimal p

/-- the channels of the pool have the addresses that their keys give -/
def Keyed (pool : Pool) : Prop :=
  ∀ addr conn, pool.lookup addr = some (some conn) → channelAddr addr = .addressed (addrOf conn)

/-- whatever the pool and the connect: the name gives the channel to `h` and `p` exactly if it is `h:p`, and a null channel
if there are no such `h` and `p` -/
structure Reads (addr : Bytes) : Prop where
  addressed : ∀ con pool, Keyed pool → con.result.isTimeout = false → ∀ h p,
    (∃ conn, (getOrCreateChannel addr con pool).1 = .channel conn ∧ addrOf conn = ⟨h, p⟩) ↔ Form addr h p
  other : (∀ h p, ¬ Form addr h p) → ∀ con pool, Keyed pool → (getOrCreateChannel addr con pool).1 = .null

/-! ## Decimal digits -/

variable {addr h : Bytes} {p : ℕ} {con : Connect} {pool : Pool}

theorem isSpace_of_isDigit {b : UInt8} (hb : isDigit b = true) : isSpace b = false := by
  rw [← Bool.not_eq_true]
  intro hspace
  simp only [isDigit, isSpace, Bool.and_eq_true, Bool.or_eq_true, beq_iff_eq, decide_eq_true_eq,
    UInt8.le_iff_toNat_le] at hb hspace
  have h48 : (48 : UInt8).toNat = 48 := rfl
  have h13 : (13 : UInt8).toNat = 13 := rfl
  rcases hspace with rfl | hspace
  · exact absurd hb.1 (by decide)
  · omega

/-- one more digit -/
def digitStep (a : ℤ) (b : UInt8) : ℤ := a * 10 + (b.toNat - 48)

/-- the value that std::stoi gives to digits -/
def value (digits : Bytes) : ℤ := digits.foldl digitStep 0

/-- std::stoi on digits alone -/
theorem stoi_of_digits {text : Bytes} (hdigits : ∀ b ∈ text, isDigit b = true) (hne : text ≠ [])
    (hint : IsInt (value text)) : stoi text = some (value text) := by
  cases text with
  | nil => cases hne rfl
  | cons b text =>
    have hb := hdigits b List.mem_cons_self
    have hdrop : (b :: text).dropWhile isSpace = b :: text :=
      List.dropWhile_cons_of_neg (by rw [isSpace_of_isDigit hb]; decide)
    have htake : (b :: text).takeWhile isDigit = b :: text := List.takeWhile_eq_self_iff.2 hdigits
    have hminus : b ≠ 45 := fun he => by rw [he] at hb; revert hb; decide
    have hplus : b ≠ 43 := fun he => by rw [he] at hb; revert hb; decide
    unfold stoi
    rw [hdrop]
    split
    next negative rest heq =>
      have hsign : (negative, rest) = (false, b :: text) := by
        rw [← heq]
        split
        · next heq' => exact absurd (List.cons.inj heq').1 hminus
        · next heq' => exact absurd (List.cons.inj heq').1 hplus
        · rfl
      obtain ⟨rfl, rfl⟩ := Prod.mk.inj hsign
      rw [htake]
      exact if_neg fun h => h.elim (fun h => by cases h) fun h => h hint

theorem isDigit_ofNat {c : Char} (hc : c.isDigit = true) :
    isDigit (UInt8.ofNat c.toNat) = true ∧ ((UInt8.ofNat c.toNat).toNat : ℤ) - 48 = ((c.toNat - 48 : ℕ) : ℤ) := by
  have hbounds : 48 ≤ c.toNat ∧ c.toNat ≤ 57 := by
    simpa [Char.isDigit, UInt32.le_iff_toNat_le] using hc
  have hnat : (UInt8.ofNat c.toNat).toNat = c.toNat := by
    rw [UInt8.toNat_ofNat']
    omega
  have h48 : (48 : UInt8).toNat = 48 := rfl
  have h57 : (57 : UInt8).toNat = 57 := rfl
  simp only [isDigit, Bool.and_eq_true, decide_eq_true_eq, UInt8.le_iff_toNat_le, hnat]
  omega

theorem toDecimal_eq (n : ℕ) : toDecimal n = (Nat.toDigits 10 n).map fun c => UInt8.ofNat c.toNat := by
  unfold toDecimal ascii
  rw [Nat.toString_eq_ofList_toDigits, String.toList_ofList]

theorem toDecimal_isDigit (n : ℕ) : ∀ b ∈ toDecimal n, isDigit b = true := by
  intro b hb
  rw [toDecimal_eq] at hb
  obtain ⟨c, hc, rfl⟩ := List.mem_map.1 hb
  exact (isDigit_ofNat (Nat.isDigit_of_mem_toDigits (by decide) (by decide) hc)).1

theorem foldl_digits {cs : List Char} (hcs : ∀ c ∈ cs, c.isDigit = true) (a : ℕ) :
    (cs.map fun c => UInt8.ofNat c.toNat).foldl digitStep a = (Nat.ofDigitChars 10 cs a : ℤ) := by
  induction cs generalizing a with
  | nil => simp only [List.map_nil, List.foldl_nil, Nat.ofDigitChars_nil]
  | cons c cs ih =>
    have hdigit := (isDigit_ofNat (hcs c List.mem_cons_self)).2
    have hstep : digitStep a (UInt8.ofNat c.toNat) = ((10 * a + (c.toNat - 48) : ℕ) : ℤ) := by
      rw [digitStep, hdigit]
      push_cast
      ring
    rw [List.map_cons, List.foldl_cons, hstep, ih (fun c' hc' => hcs c' (List.mem_cons_of_mem c hc')),
      Nat.ofDigitChars_cons]
    rfl

theorem value_toDecimal (n : ℕ) : value (toDecimal n) = n := by
  have hfold := @foldl_digits (Nat.toDigits 10 n)
    (fun c hc => Nat.isDigit_of_mem_toDigits (by decide) (by decide) hc) 0
  rw [Nat.ofDigitChars_ten_toDigits] at hfold
  rw [value, toDecimal_eq]
  exact hfold

/-- std::stoi reads what std::to_string writes -/
theorem stoi_toDecimal (hp : p ≤ 65535) : stoi (toDecimal p) = some (p : ℤ) := by
  have hne : toDecimal p ≠ [] := by
    rw [toDecimal_eq, Ne, List.map_eq_nil_iff]
    exact Nat.toDigits_ne_nil
  have hint : IsInt (value (toDecimal p)) := by
    rw [value_toDecimal]
    exact ⟨by omega, by omega⟩
  rw [stoi_of_digits (toDecimal_isDigit p) hne hint, value_toDecimal]

/-! ## Names -/

theorem create_of_le (hp : p ≤ 65535) : IPNetAddr.create h p = ⟨h, p⟩ := by
  unfold IPNetAddr.create
  congr
  omega

/-- a name that is cut at its colon -/
theorem channelAddr_colon (rest : Bytes) (hh : 58 ∉ h) : channelAddr (h ++ 58 :: rest) =
    match stoi rest with
    | none => .raised
    | some port => .addressed (.create h port) := by
  have htake : (h ++ 58 :: rest).take h.length = h := List.take_left
  have hdrop : (h ++ 58 :: rest).drop (h.length + 1) = rest := by
    rw [← List.drop_drop, List.drop_left]
    rfl
  simp only [channelAddr, Getline.idxOf?_append_cons hh, htake, hdrop]

theorem Form.channelAddr (hf : Form addr h p) : channelAddr addr = .addressed ⟨h, p⟩ := by
  obtain ⟨hh, -, hp, rfl⟩ := hf
  simp only [channelAddr_colon _ hh, stoi_toDecimal hp, create_of_le hp]

/-- **Names of addresses**: what toString writes, and registerToZk as the name of a node, is read back -/
theorem channelAddr_toString (a : IPNetAddr) (hip : 58 ∉ a.ip) (hport : a.port ≤ 65535) :
    channelAddr a.toString = .addressed a := by
  unfold IPNetAddr.toString
  simp only [channelAddr_colon _ hip, stoi_toDecimal hport, create_of_le hport]

theorem channelAddr_null_iff : channelAddr addr = .null ↔ 58 ∉ addr := by
  rw [← List.idxOf?_eq_none_iff]
  unfold Addresses.channelAddr
  split
  · next hnone => simp only [hnone]
  · next colonPos hsome =>
    rw [hsome]
    split <;> simp

/-! ## getOrCreateChannel -/

theorem createChannel_of_null (h : channelAddr addr = .null) (con : Connect) (pool : Pool) :
    createChannel addr con pool = (.null, pool) := by
  have hnone := List.idxOf?_eq_none_iff.2 (channelAddr_null_iff.1 h)
  simp only [createChannel, hnone]

theorem createChannel_of_raised (h : channelAddr addr = .raised) (con : Connect) (pool : Pool) :
    createChannel addr con pool = (.raised (ascii "stoi"), pool) := by
  unfold channelAddr at h
  split at h
  · cases h
  · next colonPos hcolon =>
    split at h
    · next hport => simp only [createChannel, hcolon, hport]
    · cases h

theorem createChannel_of_addressed {a : IPNetAddr} (h : channelAddr addr = .addressed a) (con : Connect) (pool : Pool) :
    ∃ conn, addrOf conn = a ∧ createChannel addr con pool =
      if con.result.isTimeout then (.null, con.meanwhile pool)
      else (.channel conn, (con.meanwhile pool).insert addr (some conn)) := by
  unfold channelAddr at h
  split at h
  · cases h
  · next colonPos hcolon =>
    split at h
    · cases h
    · next port hport =>
      obtain rfl := ChannelAddr.addressed.inj h
      exact ⟨⟨addr.take colonPos, port, con.result.ok⟩, rfl, by simp only [createChannel, hcolon, hport]⟩

theorem keyed_empty : Keyed ∅ := by
  intro addr conn h
  rw [Finmap.lookup_empty] at h
  cases h

/-- a channel that is found is one that was made for the name, or it is made now -/
theorem getOrCreateChannel_cases (hpool : Keyed pool) (addr : Bytes) (con : Connect) :
    (∃ conn, channelAddr addr = .addressed (addrOf conn) ∧ getOrCreateChannel addr con pool = (.channel conn, pool)) ∨
      getOrCreateChannel addr con pool = createChannel addr con pool := by
  unfold getOrCreateChannel
  split
  · next conn hlookup =>
    split_ifs
    · exact .inl ⟨conn, hpool addr conn hlookup, rfl⟩
    · exact .inr rfl
  · exact .inr rfl

/-- **The pool**: getOrCreateChannel keeps channels under the names that they are made for, if what goes on meanwhile does -/
theorem getOrCreateChannel_keyed (hpool : Keyed pool) (addr : Bytes)
    (hmeanwhile : ∀ pool, Keyed pool → Keyed (con.meanwhile pool)) : Keyed (getOrCreateChannel addr con pool).2 := by
  rcases getOrCreateChannel_cases hpool addr con with ⟨conn, -, he⟩ | he
  · rw [he]
    exact hpool
  · rw [he]
    cases haddr : channelAddr addr with
    | null => rwa [createChannel_of_null haddr]
    | raised => rwa [createChannel_of_raised haddr]
    | addressed a =>
      obtain ⟨conn, rfl, hcreate⟩ := createChannel_of_addressed haddr con pool
      rw [hcreate]
      split_ifs
      · exact hmeanwhile pool hpool
      · intro addr' conn' h
        by_cases heq : addr' = addr
        · subst heq
          rw [Finmap.lookup_insert] at h
          cases h
          exact haddr
        · rw [Finmap.lookup_insert_of_ne _ heq] at h
          exact hmeanwhile pool hpool addr' conn' h

/-- when the connect is in time, a name with an address gives the channel to it -/
theorem getOrCreateChannel_addressed {a : IPNetAddr} (haddr : channelAddr addr = .addressed a) (hpool : Keyed pool)
    (htime : con.result.isTimeout = false) :
    ∃ conn, (getOrCreateChannel addr con pool).1 = .channel conn ∧ addrOf conn = a := by
  rcases getOrCreateChannel_cases hpool addr con with ⟨conn, hconn, he⟩ | he
  · rw [haddr] at hconn
    exact ⟨conn, by rw [he], (ChannelAddr.addressed.inj hconn).symm⟩
  · obtain ⟨conn, hconn, hcreate⟩ := createChannel_of_addressed haddr con pool
    exact ⟨conn, by rw [he, hcreate, htime]; rfl, hconn⟩

theorem getOrCreateChannel_null (haddr : channelAddr addr = .null) (hpool : Keyed pool) (con : Connect) :
    (getOrCreateChannel addr con pool).1 = .null := by
  rcases getOrCreateChannel_cases hpool addr con with ⟨conn, hconn, -⟩ | he
  · rw [haddr] at hconn
    cases hconn
  · rw [he, createChannel_of_null haddr]

/-! ## The property -/

theorem Form.mem_colon (hf : Form addr h p) : 58 ∈ addr := by
  obtain ⟨-, -, -, rfl⟩ := hf
  exact List.mem_append_right _ List.mem_cons_self

/-- a connect that succeeds while nothing else happens -/
def promptly : Connect := ⟨{ ok := true }, id⟩

/-- a name with a colon that is not of the form throws, or gives a channel to something -/
theorem Reads.exists_form (hr : Reads addr) (hcolon : 58 ∈ addr) : ∃ h p, Form addr h p := by
  by_contra hno
  rw [not_exists] at hno
  have hnull := hr.other (fun h p hf => hno h ⟨p, hf⟩) promptly ∅ keyed_empty
  cases haddr : channelAddr addr with
  | null => exact channelAddr_null_iff.1 haddr hcolon
  | raised =>
    rcases getOrCreateChannel_cases keyed_empty addr promptly with ⟨conn, hconn, -⟩ | he
    · rw [haddr] at hconn
      cases hconn
    · rw [he, createChannel_of_raised haddr] at hnull
      cases hnull
  | addressed a =>
    have haddressed : ∃ conn, (getOrCreateChannel addr promptly ∅).1 = .channel conn ∧ addrOf conn = a :=
      getOrCreateChannel_addressed haddr keyed_empty rfl
    obtain ⟨conn, hconn, -⟩ := haddressed
    rw [hconn] at hnull
    cases hnull

/-- **Instance names**: for every string, getOrCreateChannel gives the channel to `h` and `p` exactly for `h:p`, and a null
channel otherwise, if and only if the string has no colon or is of the form -/
theorem reads_iff (addr : Bytes) : Reads addr ↔ 58 ∉ addr ∨ ∃ h p, Form addr h p := by
  constructor
  · intro hr
    by_cases hcolon : 58 ∈ addr
    · exact .inr (hr.exists_form hcolon)
    · exact .inl hcolon
  · rintro (hcolon | ⟨h, p, hf⟩)
    · have haddr := channelAddr_null_iff.2 hcolon
      refine ⟨fun con pool hpool _ h p => ⟨?_, fun hf => absurd hf.mem_colon hcolon⟩, ?_⟩
      · rintro ⟨conn, hconn, -⟩
        rw [getOrCreateChannel_null haddr hpool con] at hconn
        cases hconn
      · exact fun _ con pool hpool => getOrCreateChannel_null haddr hpool con
    · refine ⟨fun con pool hpool htime h' p' => ?_, fun hno => absurd hf (hno h p)⟩
      obtain ⟨conn, hconn, ha⟩ := getOrCreateChannel_addressed hf.channelAddr hpool htime
      constructor
      · rintro ⟨conn', hconn', ha'⟩
        rw [hconn] at hconn'
        cases hconn'
        rw [ha] at ha'
        cases ha'
        exact hf
      · intro hf'
        have heq := hf.channelAddr.symm.trans hf'.channelAddr
        exact ⟨conn, hconn, ha.trans (ChannelAddr.addressed.inj heq)⟩

/-- a name without a number behind the colon makes getOrCreateChannel throw, and a number of more than 16 bits gives
another port -/
theorem not_reads :
    (getOrCreateChannel (ascii "h:http") promptly ∅).1 = .raised (ascii "stoi") ∧ ¬ Reads (ascii "h:http") ∧
      channelAddr (ascii "h:65616") = .addressed ⟨ascii "h", 80⟩ ∧ ¬ Reads (ascii "h:65616") := by
  have hraised : channelAddr (ascii "h:http") = .raised := by decide
  have hport : channelAddr (ascii "h:65616") = .addressed ⟨ascii "h", 80⟩ := by decide
  refine ⟨?_, ?_, hport, ?_⟩
  · rcases getOrCreateChannel_cases keyed_empty (ascii "h:http") promptly with ⟨conn, hconn, -⟩ | he
    · rw [hraised] at hconn
      cases hconn
    · rw [he, createChannel_of_raised hraised]
  · intro hr
    obtain ⟨h, p, hf⟩ := hr.exists_form (by decide)
    cases hraised.symm.trans hf.channelAddr
  · intro hr
    obtain ⟨h, p, hf⟩ := hr.exists_form (by decide)
    cases hport.symm.trans hf.channelAddr
    exact absurd hf.2.2.2 (by decide)

end Addresses

end MCoroRpc
