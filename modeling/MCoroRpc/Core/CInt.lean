/-
The signed 32-bit `int` and its network byte order.

- `IsInt`: the values of the type; `toInt`: the conversion to it from a wider type (two's complement).
- `toNet`, `ofNet`: four bytes, most significant first.
- `toInt_of_emod_lt`, `toInt_of_le_emod`: a counter of this type after any number of increments.
- `ofNet_toNet`: an `IsInt` value is read back from its bytes; `toNet_ofNet`: four bytes are those of their value.
-/
import Mathlib.Tactic

namespace MCoroRpc.CInt

/-- the values of a signed 32-bit integer -/
def IsInt (x : ℤ) : Prop := -2147483648 ≤ x ∧ x < 2147483648

instance (x : ℤ) : Decidable (IsInt x) := by unfold IsInt; infer_instance

/-- conversion to a signed 32-bit integer -/
def toInt (x : ℤ) : ℤ := Int.bmod x 4294967296

theorem isInt_toInt (x : ℤ) : IsInt (toInt x) := by
  have h1 := Int.le_bmod (x := x) (m := 4294967296) (by decide)
  have h2 := Int.bmod_lt (x := x) (m := 4294967296) (by decide)
  unfold IsInt toInt
  omega

theorem toInt_of_isInt {x : ℤ} (h : IsInt x) : toInt x = x := by
  unfold IsInt at h
  exact Int.bmod_eq_of_le (by omega) (by omega)

/-- a value in the range just above the largest integer comes out negative -/
theorem toInt_neg {x : ℤ} (h1 : 2147483648 ≤ x) (h2 : x < 4294967296) : toInt x = x - 4294967296 := by
  have h : toInt x = toInt (x - 4294967296) := by
    unfold toInt
    rw [show x - 4294967296 = x - ((4294967296 : ℕ) : ℤ) by norm_num, Int.sub_bmod_right]
  rw [h, toInt_of_isInt ⟨by omega, by omega⟩]

theorem toInt_emod (x : ℤ) : toInt (x % 4294967296) = toInt x := by
  unfold toInt
  exact Int.emod_bmod (x := x) (n := 4294967296)

/-- one more, behind the conversion or in front of it -/
theorem toInt_toInt_add (x y : ℤ) : toInt (toInt x + y) = toInt (x + y) := by
  unfold toInt
  exact Int.bmod_add_bmod

theorem toInt_of_emod_lt {x : ℤ} (h : x % 4294967296 < 2147483648) : toInt x = x % 4294967296 := by
  have h0 : 0 ≤ x % 4294967296 := Int.emod_nonneg x (by norm_num)
  rw [← toInt_emod, toInt_of_isInt ⟨by omega, h⟩]

theorem toInt_of_le_emod {x : ℤ} (h : 2147483648 ≤ x % 4294967296) :
    toInt x = x % 4294967296 - 4294967296 := by
  have h1 : x % 4294967296 < 4294967296 := Int.emod_lt_of_pos x (by norm_num)
  rw [← toInt_emod, toInt_neg h h1]

/-- the value of a string of bytes, most significant first -/
def natOf (bs : List UInt8) : ℕ := bs.foldl (fun a b => a * 256 + b.toNat) 0

/-- the integer in network byte order -/
def toNet (x : ℤ) : List UInt8 :=
  let u := (x % 4294967296).toNat
  [UInt8.ofNat (u / 16777216), UInt8.ofNat (u / 65536), UInt8.ofNat (u / 256), UInt8.ofNat u]

/-- the integer that a string of bytes in network order stands for -/
def ofNet (bs : List UInt8) : ℤ := toInt (natOf bs)

@[simp] theorem toNet_length (x : ℤ) : (toNet x).length = 4 := rfl

theorem natOf_four (a b c d : UInt8) :
    natOf [a, b, c, d] = a.toNat * 16777216 + b.toNat * 65536 + c.toNat * 256 + d.toNat := by
  simp only [natOf, List.foldl_cons, List.foldl_nil]; ring

theorem natOf_toNet (x : ℤ) : (natOf (toNet x) : ℤ) = x % 4294967296 := by
  have h0 : 0 ≤ x % 4294967296 := Int.emod_nonneg x (by norm_num)
  have h1 : x % 4294967296 < 4294967296 := Int.emod_lt_of_pos x (by norm_num)
  simp only [toNet, natOf_four, UInt8.toNat_ofNat']
  omega

theorem ofNet_toNet {x : ℤ} (h : IsInt x) : ofNet (toNet x) = x := by
  unfold ofNet
  rw [natOf_toNet, toInt_emod, toInt_of_isInt h]

theorem natOf_lt {bs : List UInt8} (h : bs.length = 4) : natOf bs < 4294967296 := by
  obtain ⟨a, b, c, d, rfl⟩ := List.length_eq_four.1 h
  have ha := a.toNat_lt
  have hb := b.toNat_lt
  have hc := c.toNat_lt
  have hd := d.toNat_lt
  rw [natOf_four]
  omega

theorem toNet_ofNet {bs : List UInt8} (h : bs.length = 4) : toNet (ofNet bs) = bs := by
  have hlt := natOf_lt h
  have hu : (ofNet bs % 4294967296).toNat = natOf bs := by
    have hmod : ofNet bs % 4294967296 = (natOf bs : ℤ) % 4294967296 := Int.bmod_emod (x := natOf bs) (m := 4294967296)
    rw [hmod]
    omega
  obtain ⟨a, b, c, d, rfl⟩ := List.length_eq_four.1 h
  have ha := a.toNat_lt
  have hb := b.toNat_lt
  have hc := c.toNat_lt
  have hd := d.toNat_lt
  simp only [toNet, hu, natOf_four, List.cons.injEq, and_true]
  refine ⟨?_, ?_, ?_, ?_⟩ <;>
    · apply UInt8.toNat_inj.1
      rw [UInt8.toNat_ofNat']
      omega

end MCoroRpc.CInt
