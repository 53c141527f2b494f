/-
Addresses of sockets (IPNetAddr in src/net_addr.cc, TcpStream::peerAddr in src/tcpstream.cc).

An address is a host text, a port and the sockaddr_in for the socket calls. It is made from a host and a port, from a text
`host:port`, or from the sockaddr_in of a peer. inet_addr, inet_ntoa and std::atoi stand here as the C library documents
them: one to four parts, each decimal, octal or hexadecimal, the last one for all bytes that are left.

- `strtoul_toDecimal`: a number in decimal, with a point or nothing behind it, is read as itself, never as octal.
- `inetAddr_inetNtoa`: inet_addr reads what inet_ntoa writes.
- `ofString_toString_iff`: an address made from a host and a port survives its text if and only if the host has no colon.
- `peer_iff`: the address of a peer survives its text if and only if the peer is an AF_INET one, and what the two isValid
  say of it.
-/
import MCoroRpc.Rpc.Addresses

namespace MCoroRpc

namespace NetAddr

open CInt
open TcpStream (Bytes)
open RpcClient (isDigit isSpace stoi)
open Addresses (toDecimal value)

/-! ## The C library -/

/-- `AF_INET` -/
def afInet : UInt16 := 2

/-- `INADDR_NONE` -/
def inaddrNone : UInt32 := 4294967295

/-- the characters that `c_str()` shows a C function -/
def cStr (text : Bytes) : Bytes := text.takeWhile (· != 0)

/-- a value of the type `long`, saturated -/
def clampLong (x : ℤ) : ℤ := max (-9223372036854775808) (min 9223372036854775807 x)

/-- blanks, and whether a minus stands in front of the digits -/
def sign (text : Bytes) : Bool × Bytes :=
  match text.dropWhile isSpace with
  | 45 :: rest => (true, rest)
  | 43 :: rest => (false, rest)
  | rest => (false, rest)

def signed (negative : Bool) (n : ℤ) : ℤ := if negative then -n else n

/-- `std::atoi`: `(int)strtol(text, NULL, 10)` -/
def atoi (text : Bytes) : ℤ :=
  let (negative, text) := sign text
  let n := value (text.takeWhile isDigit)
  toInt (clampLong (signed negative n))

/-- the value of a digit; 36 for no digit -/
def digitOf (b : UInt8) : ℕ :=
  if isDigit b then b.toNat - 48
  else if 97 ≤ b ∧ b ≤ 122 then b.toNat - 87
  else if 65 ≤ b ∧ b ≤ 90 then b.toNat - 55
  else 36

/-- the base that strtoul finds when it is given none, and the digits -/
def baseOf : Bytes → ℕ × Bytes
  | 48 :: x :: d :: rest => if (x = 120 ∨ x = 88) ∧ digitOf d < 16 then (16, d :: rest) else (8, 48 :: x :: d :: rest)
  | 48 :: rest => (8, 48 :: rest)
  | text => (10, text)

/-- `strtoul(cp, &endp, 0)` on a text that starts with a digit, without its upper bound; what is behind the number -/
def strtoul (text : Bytes) : ℕ × Bytes :=
  let (base, text) := baseOf text
  ((text.takeWhile fun b => digitOf b < base).foldl (fun a b => a * base + digitOf b) 0,
    text.dropWhile fun b => digitOf b < base)

/-- one part of an address -/
def inetPart (text : Bytes) : Option (ℕ × Bytes) :=
  match text with
  | [] => none
  | b :: _ => if isDigit b ∧ (strtoul text).1 ≤ 4294967295 then some (strtoul text) else none

/-- the last part: it fills `k + 1` bytes, and a blank may follow -/
def inetLast (k acc val : ℕ) (rest : Bytes) : Option ℕ :=
  if rest.head?.all isSpace ∧ val < 256 ^ (k + 1) then some (acc * 256 ^ (k + 1) + val) else none

/-- the loop of inet_aton; `k` more points may come -/
def inetAton : ℕ → ℕ → Bytes → Option ℕ
  | 0, acc, text =>
    match inetPart text with
    | none => none
    | some (val, rest) => inetLast 0 acc val rest
  | k + 1, acc, text =>
    match inetPart text with
    | none => none
    | some (val, 46 :: rest) => if val ≤ 255 then inetAton k (acc * 256 + val) rest else none
    | some (val, rest) => inetLast (k + 1) acc val rest

/-- `inet_addr`; the address in host order -/
def inetAddr (text : Bytes) : UInt32 :=
  match inetAton 3 0 (cStr text) with
  | none => inaddrNone
  | some addr => UInt32.ofNat addr

/-- `inet_ntoa` -/
def inetNtoa (addr : UInt32) : Bytes :=
  toDecimal (addr.toNat / 16777216) ++ 46 :: (toDecimal (addr.toNat / 65536 % 256) ++
    46 :: (toDecimal (addr.toNat / 256 % 256) ++ 46 :: toDecimal (addr.toNat % 256)))

/-! ## IPNetAddr -/

/-- `sockaddr_in`; port and address in host order -/
structure SockaddrIn where
  family : UInt16 := 0
  port : UInt16 := 0
  addr : UInt32 := 0
deriving DecidableEq, Repr

structure IPNetAddr where
  ip : Bytes := []
  port : UInt16 := 0
  addr : SockaddrIn := {}
deriving DecidableEq, Repr

/-- `static_cast<uint16_t>` of an int -/
def toUInt16 (x : ℤ) : UInt16 := UInt16.ofNat (x % 65536).toNat

/-- `IPNetAddr(ip, port)`, also `IPNetAddr::Create` -/
def IPNetAddr.create (ip : Bytes) (port : UInt16) : IPNetAddr :=
  { ip := ip, port := port, addr := { family := afInet, port := port, addr := inetAddr ip } }

/-- `IPNetAddr(const std::string&)` -/
def IPNetAddr.ofString (addr : Bytes) : IPNetAddr :=
  match addr.idxOf? 58 with
  | none => {}
  | some i => .create (addr.take i) (toUInt16 (atoi (cStr (addr.drop (i + 1)))))

/-- `IPNetAddr(sockaddr_in)`, which TcpStream::peerAddr makes of what getpeername gives -/
def IPNetAddr.ofSockaddr (addr : SockaddrIn) : IPNetAddr :=
  { ip := inetNtoa addr.addr, port := addr.port, addr := addr }

/-- the text of the address that the host and the port make -/
def IPNetAddr.toString (a : IPNetAddr) : Bytes := Addresses.IPNetAddr.toString ⟨a.ip, a.port.toNat⟩

/-- `isValid() const` -/
def IPNetAddr.isValid (a : IPNetAddr) : Bool :=
  if a.ip.isEmpty then false
  else if a.port == 0 || decide (65535 < a.port.toNat) then false
  else if inetAddr a.ip == inaddrNone then false
  else true

/-- `isValid(const std::string&)` -/
def isValid (addr : Bytes) : Bool :=
  match addr.idxOf? 58 with
  | none => false
  | some i =>
    let ip := addr.take i
    let port := addr.drop (i + 1)
    if ip.isEmpty || port.isEmpty then false
    else
      let iport := atoi (cStr port)
      if iport ≤ 0 ∨ 65535 < iport then false else true

/-! ## Numbers -/

variable {n : ℕ} {rest ip : Bytes}

theorem toDecimal_ne_nil (n : ℕ) : toDecimal n ≠ [] := by
  rw [Addresses.toDecimal_eq, Ne, List.map_eq_nil_iff]
  exact Nat.toDigits_ne_nil

/-- a positive number does not start with a zero, which would make it octal -/
theorem head_toDigits (hn : n ≠ 0) : (Nat.toDigits 10 n).head? ≠ some '0' := by
  induction n using Nat.strong_induction_on with
  | _ n ih =>
    by_cases hlt : n < 10
    · rw [Nat.toDigits_of_lt_base hlt]
      interval_cases n <;> simp_all [Nat.digitChar]
    · have hdiv := ih (n / 10) (by omega) (by omega)
      rw [Nat.toDigits_of_base_le (by decide) (by omega)]
      rwa [List.head?_append_of_ne_nil _ Nat.toDigits_ne_nil]

theorem toDecimal_zero : toDecimal 0 = [48] := by decide

theorem head_toDecimal (hn : n ≠ 0) : ∃ b text, toDecimal n = b :: text ∧ b ≠ 48 := by
  have hhead := head_toDigits hn
  rw [Addresses.toDecimal_eq]
  cases hdigits : Nat.toDigits 10 n with
  | nil => exact absurd hdigits Nat.toDigits_ne_nil
  | cons c cs =>
    have hc : c.isDigit = true := by
      apply Nat.isDigit_of_mem_toDigits (b := 10) (n := n) (by decide) (by decide)
      rw [hdigits]
      exact List.mem_cons_self
    have hbounds : 48 ≤ c.toNat ∧ c.toNat ≤ 57 := by
      simpa [Char.isDigit, UInt32.le_iff_toNat_le] using hc
    refine ⟨_, _, rfl, fun h48 => hhead ?_⟩
    have hnat : c.toNat = 48 := by
      have h := congrArg UInt8.toNat h48
      rw [UInt8.toNat_ofNat'] at h
      change c.toNat % 256 = 48 at h
      omega
    have hzero : c = '0' := Char.toNat_inj.1 hnat
    rw [hdigits, hzero]
    rfl

theorem baseOf_of_ne {b : UInt8} {text : Bytes} (hb : b ≠ 48) : baseOf (b :: text) = (10, b :: text) := by
  unfold baseOf
  split
  · next he => exact absurd (List.cons.inj he).1 hb
  · next he => exact absurd (List.cons.inj he).1 hb
  · rfl

/-- what may stand behind a part: nothing, or a point -/
def Ends (rest : Bytes) : Prop := rest = [] ∨ ∃ more, rest = 46 :: more

theorem baseOf_zero (hrest : Ends rest) : baseOf (48 :: rest) = (8, 48 :: rest) := by
  rcases hrest with rfl | ⟨more, rfl⟩
  · rfl
  · cases more with
    | nil => rfl
    | cons d more =>
      have hx : ¬ (((46 : UInt8) = 120 ∨ (46 : UInt8) = 88) ∧ digitOf d < 16) := fun h => absurd h.1 (by decide)
      unfold baseOf
      exact if_neg hx

theorem digitOf_of_isDigit {b : UInt8} (hb : isDigit b = true) : digitOf b = b.toNat - 48 ∧ digitOf b < 10 := by
  have hbounds : 48 ≤ b.toNat ∧ b.toNat ≤ 57 := by
    simpa [isDigit, UInt8.le_iff_toNat_le] using hb
  have hval : digitOf b = b.toNat - 48 := if_pos hb
  exact ⟨hval, by omega⟩

theorem foldl_digitOf {digits : Bytes} (hdigits : ∀ b ∈ digits, isDigit b = true) (a : ℕ) :
    ((digits.foldl (fun a b => a * 10 + digitOf b) a : ℕ) : ℤ) = digits.foldl Addresses.digitStep (a : ℤ) := by
  induction digits generalizing a with
  | nil => rfl
  | cons b digits ih =>
    have hb := hdigits b List.mem_cons_self
    have hbounds : 48 ≤ b.toNat ∧ b.toNat ≤ 57 := by
      simpa [isDigit, UInt8.le_iff_toNat_le] using hb
    have hstep : ((a * 10 + digitOf b : ℕ) : ℤ) = Addresses.digitStep a b := by
      rw [(digitOf_of_isDigit hb).1, Addresses.digitStep]
      omega
    rw [List.foldl_cons, List.foldl_cons, ih fun b' hb' => hdigits b' (List.mem_cons_of_mem b hb'), hstep]

/-- the digits of a number are taken, and what is behind them is left -/
theorem span_toDecimal (base : ℕ) (n : ℕ) (hrest : Ends rest) (hdigits : ∀ b ∈ toDecimal n, digitOf b < base)
    (hbase : base ≤ 36) :
    ((toDecimal n ++ rest).takeWhile fun b => digitOf b < base) = toDecimal n ∧
      ((toDecimal n ++ rest).dropWhile fun b => digitOf b < base) = rest := by
  have hall : ∀ b ∈ toDecimal n, decide (digitOf b < base) = true := fun b hb => decide_eq_true (hdigits b hb)
  rw [List.takeWhile_append_of_pos hall, List.dropWhile_append_of_pos hall]
  rcases hrest with rfl | ⟨more, rfl⟩
  · exact ⟨List.append_nil _, rfl⟩
  · have hpoint : ¬ digitOf 46 < base := by
      have h46 : digitOf 46 = 36 := rfl
      omega
    rw [List.takeWhile_cons_of_neg (by simpa using hpoint), List.dropWhile_cons_of_neg (by simpa using hpoint)]
    exact ⟨List.append_nil _, rfl⟩

/-- **Numbers**: a number in decimal is read as itself, whether it is zero, and octal, or not -/
theorem strtoul_toDecimal (n : ℕ) (hrest : Ends rest) : strtoul (toDecimal n ++ rest) = (n, rest) := by
  by_cases hn : n = 0
  · subst hn
    have hdigits : ∀ b ∈ toDecimal 0, digitOf b < 8 := by
      rw [toDecimal_zero]
      intro b hb
      rw [List.mem_singleton.1 hb]
      decide
    have hspan := span_toDecimal 8 0 hrest hdigits (by decide)
    have hbase : baseOf (toDecimal 0 ++ rest) = (8, toDecimal 0 ++ rest) := by
      rw [toDecimal_zero]
      exact baseOf_zero hrest
    have hvalue : (toDecimal 0).foldl (fun a b => a * 8 + digitOf b) 0 = 0 := by
      rw [toDecimal_zero]
      rfl
    unfold strtoul
    rw [hbase]
    exact Prod.ext (by simp only [hspan.1, hvalue]) hspan.2
  · obtain ⟨b, text, htext, hb⟩ := head_toDecimal hn
    have hdigits := Addresses.toDecimal_isDigit n
    have hspan := span_toDecimal 10 n hrest (fun b hb => (digitOf_of_isDigit (hdigits b hb)).2) (by decide)
    have hbase : baseOf (toDecimal n ++ rest) = (10, toDecimal n ++ rest) := by
      rw [htext]
      exact baseOf_of_ne hb
    have hvalue : (toDecimal n).foldl (fun a b => a * 10 + digitOf b) 0 = n := by
      have h := (foldl_digitOf hdigits 0).trans (Addresses.value_toDecimal n)
      exact_mod_cast h
    unfold strtoul
    rw [hbase]
    exact Prod.ext (by simp only [hspan.1, hvalue]) hspan.2

theorem stoi_eq (text : Bytes) : stoi text =
    if (sign text).2.takeWhile isDigit = [] ∨ ¬ IsInt (signed (sign text).1 (value ((sign text).2.takeWhile isDigit)))
    then none else some (signed (sign text).1 (value ((sign text).2.takeWhile isDigit))) := by
  rfl

/-- std::atoi agrees with std::stoi where that does not throw -/
theorem atoi_of_stoi {text : Bytes} {v : ℤ} (h : stoi text = some v) : atoi text = v := by
  rw [stoi_eq, Option.ite_none_left_eq_some, not_or, not_not] at h
  obtain ⟨⟨-, hint⟩, hv⟩ := h
  rw [Option.some.injEq] at hv
  rw [hv] at hint
  have hlong : clampLong v = v := by
    unfold clampLong
    unfold IsInt at hint
    omega
  have hatoi : atoi text = toInt (clampLong (signed (sign text).1 (value ((sign text).2.takeWhile isDigit)))) := rfl
  rw [hatoi, hv, hlong, toInt_of_isInt hint]

/-! ## Addresses as text -/

theorem toDecimal_ne_zero_byte (n : ℕ) : ∀ b ∈ toDecimal n, b ≠ 0 := by
  intro b hb he
  have hdigit := Addresses.toDecimal_isDigit n b hb
  rw [he] at hdigit
  exact absurd hdigit (by decide)

theorem cStr_eq {text : Bytes} (h : ∀ b ∈ text, b ≠ 0) : cStr text = text :=
  List.takeWhile_eq_self_iff.2 fun b hb => by simpa using h b hb

theorem inetPart_toDecimal (hn : n ≤ 255) (hrest : Ends rest) : inetPart (toDecimal n ++ rest) = some (n, rest) := by
  have hdigits := Addresses.toDecimal_isDigit n
  have hread := strtoul_toDecimal n hrest
  cases htext : toDecimal n with
  | nil => exact absurd htext (toDecimal_ne_nil n)
  | cons b text =>
    rw [htext] at hdigits hread
    have hb := hdigits b List.mem_cons_self
    unfold inetPart
    rw [List.cons_append] at hread ⊢
    exact (if_pos ⟨hb, by rw [hread]; omega⟩).trans (congrArg some hread)

/-- one part with its point -/
theorem inetAton_toDecimal (k acc : ℕ) (hn : n ≤ 255) :
    inetAton (k + 1) acc (toDecimal n ++ 46 :: rest) = inetAton k (acc * 256 + n) rest := by
  have hpart := inetPart_toDecimal hn (.inr ⟨rest, rfl⟩)
  conv_lhs => unfold inetAton
  rw [hpart]
  exact if_pos hn

theorem inetAton_last (acc : ℕ) (hn : n ≤ 255) : inetAton 0 acc (toDecimal n) = some (acc * 256 + n) := by
  have hpart := inetPart_toDecimal hn (.inl rfl)
  rw [List.append_nil] at hpart
  unfold inetAton
  rw [hpart]
  exact if_pos ⟨rfl, by omega⟩

theorem inetNtoa_bytes (addr : UInt32) : ∀ b ∈ inetNtoa addr, isDigit b = true ∨ b = 46 := by
  intro b hb
  simp only [inetNtoa, List.mem_append, List.mem_cons] at hb
  have hdigit : ∀ n, b ∈ toDecimal n → isDigit b = true ∨ b = 46 := fun n h =>
    .inl (Addresses.toDecimal_isDigit n b h)
  rcases hb with h | h | h | h | h | h | h <;> first | exact hdigit _ h | exact .inr h

/-- **Addresses**: inet_addr reads what inet_ntoa writes, also the broadcast address, which it gives for an error -/
theorem inetAddr_inetNtoa (addr : UInt32) : inetAddr (inetNtoa addr) = addr := by
  have hlt : addr.toNat < 4294967296 := addr.toNat_lt
  have hstr : cStr (inetNtoa addr) = inetNtoa addr := by
    apply cStr_eq
    intro b hb he
    rcases inetNtoa_bytes addr b hb with h | h
    · rw [he] at h
      exact absurd h (by decide)
    · rw [he] at h
      exact absurd h (by decide)
  have hread : inetAton 3 0 (inetNtoa addr) = some addr.toNat := by
    unfold inetNtoa
    rw [inetAton_toDecimal 2 0 (by omega), inetAton_toDecimal 1 _ (by omega), inetAton_toDecimal 0 _ (by omega),
      inetAton_last _ (by omega), Option.some.injEq]
    omega
  unfold inetAddr
  rw [hstr, hread]
  exact UInt32.ofNat_toNat

/-- a part with a zero in front is octal, and the last of two parts fills three bytes -/
example : inetAddr (RpcDispatcher.ascii "010.258") = 134217986 := by decide

theorem atoi_toDecimal (port : UInt16) : atoi (cStr (toDecimal port.toNat)) = port.toNat := by
  have hle : port.toNat ≤ 65535 := Nat.le_of_lt_succ port.toNat_lt
  rw [cStr_eq (toDecimal_ne_zero_byte _)]
  exact atoi_of_stoi (Addresses.stoi_toDecimal hle)

theorem toUInt16_toNat (port : UInt16) : toUInt16 port.toNat = port := by
  have hlt : port.toNat < 65536 := port.toNat_lt
  have hval : (((port.toNat : ℤ) % 65536).toNat) = port.toNat := by omega
  unfold toUInt16
  rw [hval]
  exact UInt16.ofNat_toNat

theorem cut_colon (text : Bytes) (hip : 58 ∉ ip) : (ip ++ 58 :: text).idxOf? 58 = some ip.length ∧
    (ip ++ 58 :: text).take ip.length = ip ∧ (ip ++ 58 :: text).drop (ip.length + 1) = text := by
  refine ⟨Getline.idxOf?_append_cons hip, List.take_left, ?_⟩
  rw [← List.drop_drop, List.drop_left]
  rfl

theorem toString_eq (a : IPNetAddr) : a.toString = a.ip ++ 58 :: toDecimal a.port.toNat := rfl

theorem ofString_colon (port : UInt16) (hip : 58 ∉ ip) :
    IPNetAddr.ofString (ip ++ 58 :: toDecimal port.toNat) = .create ip port := by
  obtain ⟨hfind, htake, hdrop⟩ := cut_colon (toDecimal port.toNat) hip
  simp only [IPNetAddr.ofString, hfind, htake, hdrop, atoi_toDecimal, toUInt16_toNat]

/-- what is read has no colon in its host -/
theorem ofString_ip (addr : Bytes) : 58 ∉ (IPNetAddr.ofString addr).ip := by
  unfold IPNetAddr.ofString
  split
  · exact List.not_mem_nil
  · next i hfind =>
    intro hmem
    obtain ⟨_, -, hbefore⟩ := List.idxOf?_eq_some_iff.1 hfind
    obtain ⟨j, hj, he⟩ := List.mem_take_iff_getElem.1 hmem
    exact hbefore j (by omega) he

/-- **Addresses as text**: an address of a host and a port is read back from its text, the sockaddr_in included, if and only
if there is no colon in the host -/
theorem ofString_toString_iff (ip : Bytes) (port : UInt16) :
    IPNetAddr.ofString (IPNetAddr.create ip port).toString = .create ip port ↔ 58 ∉ ip := by
  constructor
  · intro h
    have hip := ofString_ip (IPNetAddr.create ip port).toString
    rw [h] at hip
    exact hip
  · intro hip
    exact ofString_colon port hip

theorem colon_not_mem_inetNtoa (addr : UInt32) : 58 ∉ inetNtoa addr := by
  intro hmem
  rcases inetNtoa_bytes addr 58 hmem with h | h
  · exact absurd h (by decide)
  · exact absurd h (by decide)

theorem inetNtoa_ne_nil (addr : UInt32) : inetNtoa addr ≠ [] := by
  unfold inetNtoa
  exact List.append_ne_nil_of_left_ne_nil (toDecimal_ne_nil _) _

/-- the address of a peer as text -/
theorem ofString_ofSockaddr (sa : SockaddrIn) :
    IPNetAddr.ofString (IPNetAddr.ofSockaddr sa).toString = .ofSockaddr { sa with family := afInet } := by
  unfold IPNetAddr.ofSockaddr
  rw [toString_eq, ofString_colon _ (colon_not_mem_inetNtoa sa.addr)]
  unfold IPNetAddr.create
  rw [inetAddr_inetNtoa]

theorem isValid_ofSockaddr (sa : SockaddrIn) :
    (IPNetAddr.ofSockaddr sa).isValid = true ↔ sa.port ≠ 0 ∧ sa.addr ≠ inaddrNone := by
  have hip : (inetNtoa sa.addr).isEmpty = false := by
    rw [List.isEmpty_eq_false_iff]
    exact inetNtoa_ne_nil _
  have hle : decide (65535 < sa.port.toNat) = false :=
    decide_eq_false (not_lt.2 (Nat.le_of_lt_succ sa.port.toNat_lt))
  unfold IPNetAddr.isValid IPNetAddr.ofSockaddr
  simp only [hip, hle, inetAddr_inetNtoa, Bool.or_false]
  split_ifs <;> simp_all

theorem isValid_toString (sa : SockaddrIn) : isValid (IPNetAddr.ofSockaddr sa).toString = true ↔ sa.port ≠ 0 := by
  obtain ⟨hfind, htake, hdrop⟩ := cut_colon (toDecimal sa.port.toNat) (colon_not_mem_inetNtoa sa.addr)
  have hip : (inetNtoa sa.addr).isEmpty = false := by
    rw [List.isEmpty_eq_false_iff]
    exact inetNtoa_ne_nil _
  have hport : (toDecimal sa.port.toNat).isEmpty = false := by
    rw [List.isEmpty_eq_false_iff]
    exact toDecimal_ne_nil _
  have hlt := sa.port.toNat_lt
  have hzero : sa.port ≠ 0 ↔ sa.port.toNat ≠ 0 := by
    rw [Ne, Ne, ← UInt16.toNat_inj]
    rfl
  unfold isValid IPNetAddr.ofSockaddr
  rw [toString_eq]
  simp only [hfind, htake, hdrop, hip, hport, atoi_toDecimal, hzero]
  split_ifs <;> simp_all
  omega

/-- **Peers**: the address of a peer is read back from its text, the sockaddr_in included, exactly if the peer is an AF_INET
one; its text is valid exactly if the port is not 0, and the address itself if it is not 255.255.255.255 either, which
inet_addr gives for an error -/
theorem peer_iff (sa : SockaddrIn) :
    (IPNetAddr.ofString (IPNetAddr.ofSockaddr sa).toString = .ofSockaddr sa ↔ sa.family = afInet) ∧
      (isValid (IPNetAddr.ofSockaddr sa).toString = true ↔ sa.port ≠ 0) ∧
      ((IPNetAddr.ofSockaddr sa).isValid = true ↔ sa.port ≠ 0 ∧ sa.addr ≠ inaddrNone) := by
  refine ⟨?_, isValid_toString sa, isValid_ofSockaddr sa⟩
  rw [ofString_ofSockaddr]
  constructor
  · intro h
    have haddr := congrArg IPNetAddr.addr h
    exact (congrArg SockaddrIn.family haddr).symm
  · intro h
    rw [← h]

end NetAddr

end MCoroRpc
