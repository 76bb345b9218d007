import Mathlib.Data.UInt

/-! Arithmetic of bytes: shifts, masks and facts about every byte; differences of words; the
characters that more than one library reads. -/

namespace Bytes

def newline : UInt8 := 10
def slash : UInt8 := 47

/-- The names of a directory and of its parent in it. -/
def dot : List UInt8 := [46]
def dotDot : List UInt8 := [46, 46]

theorem forall_uint8 {P : UInt8 → Prop} (h : ∀ n : Fin 256, P (UInt8.ofFin n)) (byte : UInt8) :
    P byte := h byte.toFin

theorem toNat_amount {k : Nat} (hk : k < 8) : (UInt8.ofNat k).toNat % 8 = k := by
  rw [UInt8.toNat_ofNat']
  omega

theorem toNat_shiftLeft (x : UInt8) {k : Nat} (hk : k < 8) :
    (x <<< UInt8.ofNat k).toNat = x.toNat * 2 ^ k % 256 := by
  rw [UInt8.toNat_shiftLeft, toNat_amount hk, Nat.shiftLeft_eq]

/-- Bits shifted above the bits of another number. -/
theorem toNat_shiftLeft_or (x y : UInt8) {k : Nat} (hk : k < 8) (small : y.toNat < 2 ^ k) :
    (x <<< UInt8.ofNat k ||| y).toNat = x.toNat * 2 ^ k % 256 + y.toNat := by
  have full : 256 = 2 ^ (8 - k) * 2 ^ k := by
    rw [← Nat.pow_add, Nat.sub_add_cancel hk.le]
  have shifted : x.toNat * 2 ^ k % 256 = (x.toNat % 2 ^ (8 - k)) <<< k := by
    rw [Nat.shiftLeft_eq, full, Nat.mul_mod_mul_right]
  rw [UInt8.toNat_or, toNat_shiftLeft x hk, shifted, Nat.shiftLeft_add_eq_or_of_lt small]

theorem toNat_shiftRight (x : UInt8) {k : Nat} (hk : k < 8) :
    (x >>> UInt8.ofNat k).toNat = x.toNat / 2 ^ k := by
  rw [UInt8.toNat_shiftRight, toNat_amount hk, Nat.shiftRight_eq_div_pow]

theorem toNat_mask (x : UInt8) {k : Nat} (hk : k < 8) :
    (x &&& UInt8.ofNat (2 ^ k - 1)).toNat = x.toNat % 2 ^ k := by
  have mask : (UInt8.ofNat (2 ^ k - 1)).toNat = 2 ^ k - 1 := by
    have := Nat.pow_lt_pow_right (a := 2) (by decide) hk
    rw [UInt8.toNat_ofNat']
    omega
  rw [UInt8.toNat_and, mask, Nat.and_two_pow_sub_one_eq_mod]

theorem shiftLeft_add (x y : UInt8) {k : Nat} (hk : k < 8) (small : y.toNat < 2 ^ k) :
    (x <<< UInt8.ofNat k) + y = x <<< UInt8.ofNat k ||| y := by
  rw [← UInt8.toNat_inj, UInt8.toNat_add, toNat_shiftLeft x hk, ← toNat_shiftLeft_or x y hk small,
    Nat.mod_eq_of_lt (UInt8.toNat_lt _)]

/-- A mask is idle where only the bits it keeps are left. -/
theorem mask_shiftRight (x m k : UInt8) {j : Nat} (hj : j < 8)
    (mask : m >>> k = UInt8.ofNat (2 ^ j - 1)) (small : (x >>> k).toNat < 2 ^ j) :
    (x &&& m) >>> k = x >>> k := by
  rw [UInt8.shiftRight_and, mask, ← UInt8.toNat_inj, toNat_mask _ hj, Nat.mod_eq_of_lt small]

theorem mask_shiftLeft (x : UInt8) {k : Nat} (hk : k < 8) (pos : 0 < k) :
    (x &&& UInt8.ofNat (2 ^ (8 - k) - 1)) <<< UInt8.ofNat k = x <<< UInt8.ofNat k := by
  have full : 256 = 2 ^ (8 - k) * 2 ^ k := by
    rw [← Nat.pow_add, Nat.sub_add_cancel hk.le]
  rw [← UInt8.toNat_inj, toNat_shiftLeft _ hk, toNat_shiftLeft _ hk, toNat_mask x (by omega), full,
    Nat.mul_mod_mul_right, Nat.mul_mod_mul_right, Nat.mod_mod]

/-- The difference of two signed words, as an unsigned one, is exact. -/
theorem toUInt64_sub_toNat {a b : Int64} (order : a ≤ b) :
    ((b.toUInt64 - a.toUInt64).toNat : Int) = b.toInt - a.toInt := by
  have order : a.toInt ≤ b.toInt := Int64.le_iff_toInt_le.mp order
  have toNat : (b.toUInt64 - a.toUInt64).toNat = (b.toBitVec - a.toBitVec).toNat := rfl
  have ha : a.toInt = a.toBitVec.toInt := rfl
  have hb : b.toInt = b.toBitVec.toInt := rfl
  have la := a.toBitVec.isLt
  have lb := b.toBitVec.isLt
  rw [toNat, BitVec.toNat_sub]
  rw [ha, hb, BitVec.toInt_eq_toNat_cond, BitVec.toInt_eq_toNat_cond] at order ⊢
  omega

end Bytes
