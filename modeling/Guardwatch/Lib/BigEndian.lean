import Mathlib.Data.UInt
import Mathlib.Tactic.Ring

/-! Numbers as bytes, the most significant byte first. -/

namespace BigEndian

/-- The last `k` bytes of the number. -/
def digits : Nat → Nat → List UInt8
  | 0, _ => []
  | k + 1, n => UInt8.ofNat (n / 256 ^ k) :: digits k n

/-- The number that the bytes continue. -/
def valueFrom : Nat → List UInt8 → Nat
  | acc, [] => acc
  | acc, byte :: bytes => valueFrom (acc * 256 + byte.toNat) bytes

theorem valueFrom_digits (acc k n : Nat) :
    valueFrom acc (digits k n) = acc * 256 ^ k + n % 256 ^ k := by
  induction k generalizing acc with
  | zero => simp [digits, valueFrom, Nat.mod_one]
  | succ k ih =>
    have split : n % 256 ^ (k + 1) = n / 256 ^ k % 256 * 256 ^ k + n % 256 ^ k := by
      rw [Nat.pow_succ, Nat.mod_mul, Nat.mul_comm (256 ^ k), Nat.add_comm]
    have byte : (UInt8.ofNat (n / 256 ^ k)).toNat = n / 256 ^ k % 256 := UInt8.toNat_ofNat'
    rw [digits, valueFrom, ih, byte, split, Nat.pow_succ]
    ring

theorem valueFrom_zero_digits {k n : Nat} (small : n < 256 ^ k) : valueFrom 0 (digits k n) = n := by
  rw [valueFrom_digits, Nat.zero_mul, Nat.zero_add, Nat.mod_eq_of_lt small]

theorem toNat_shiftLeft (byte : UInt8) {k : Nat} (hk : k ≤ 56) :
    (byte.toUInt64 <<< UInt64.ofNat k).toNat = byte.toNat <<< k := by
  have amount : (UInt64.ofNat k).toNat % 64 = k := by
    rw [UInt64.toNat_ofNat']
    omega
  have small : byte.toNat <<< k < 2 ^ 64 := by
    rw [Nat.shiftLeft_eq]
    calc byte.toNat * 2 ^ k < 2 ^ 8 * 2 ^ k :=
          Nat.mul_lt_mul_of_pos_right byte.toNat_lt (Nat.two_pow_pos k)
      _ ≤ 2 ^ 8 * 2 ^ 56 := Nat.mul_le_mul_left _ (Nat.pow_le_pow_right (by decide) hk)
      _ = 2 ^ 64 := (Nat.pow_add 2 8 56).symm
  rw [UInt64.toNat_shiftLeft, amount, UInt8.toNat_toUInt64, Nat.mod_eq_of_lt small]

/-- A byte in the place right below the bytes before it. -/
theorem shiftLeft_or (acc : Nat) (byte : UInt8) (k : Nat) :
    acc <<< (k + 8) ||| byte.toNat <<< k = (acc * 256 + byte.toNat) <<< k := by
  have join : acc <<< 8 ||| byte.toNat = acc * 256 + byte.toNat := by
    rw [← Nat.shiftLeft_add_eq_or_of_lt byte.toNat_lt, Nat.shiftLeft_eq]
  rw [Nat.add_comm k 8, Nat.shiftLeft_add, ← Nat.shiftLeft_or_distrib, join]

theorem toNat_two (byte0 byte1 : UInt8) :
    (byte0.toUInt64 <<< 8 ||| byte1.toUInt64).toNat = valueFrom 0 [byte0, byte1] := by
  have place8 : (byte0.toUInt64 <<< 8).toNat = byte0.toNat <<< 8 :=
    toNat_shiftLeft byte0 (k := 8) (by decide)
  have join0 := shiftLeft_or byte0.toNat byte1 0
  rw [UInt64.toNat_or, place8, UInt8.toNat_toUInt64]
  simpa [valueFrom] using join0

theorem toNat_eight (byte0 byte1 byte2 byte3 byte4 byte5 byte6 byte7 : UInt8) :
    (byte0.toUInt64 <<< 56 ||| byte1.toUInt64 <<< 48 ||| byte2.toUInt64 <<< 40 |||
      byte3.toUInt64 <<< 32 ||| byte4.toUInt64 <<< 24 ||| byte5.toUInt64 <<< 16 |||
      byte6.toUInt64 <<< 8 ||| byte7.toUInt64).toNat =
      valueFrom 0 [byte0, byte1, byte2, byte3, byte4, byte5, byte6, byte7] := by
  have place (byte : UInt8) (k : Nat) (amount : UInt64) (hk : k ≤ 56)
      (same : UInt64.ofNat k = amount) : (byte.toUInt64 <<< amount).toNat = byte.toNat <<< k :=
    same ▸ toNat_shiftLeft byte hk
  simp only [UInt64.toNat_or, place _ 56 56 (by decide) rfl, place _ 48 48 (by decide) rfl,
    place _ 40 40 (by decide) rfl, place _ 32 32 (by decide) rfl, place _ 24 24 (by decide) rfl,
    place _ 16 16 (by decide) rfl, place _ 8 8 (by decide) rfl, UInt8.toNat_toUInt64]
  have join (acc : Nat) (byte : UInt8) (k above : Nat) (same : k + 8 = above) :
      acc <<< above ||| byte.toNat <<< k = (acc * 256 + byte.toNat) <<< k :=
    same ▸ shiftLeft_or acc byte k
  have last (acc : Nat) : acc <<< 8 ||| byte7.toNat = acc * 256 + byte7.toNat :=
    shiftLeft_or acc byte7 0
  rw [join _ _ 48 56 rfl, join _ _ 40 48 rfl, join _ _ 32 40 rfl, join _ _ 24 32 rfl,
    join _ _ 16 24 rfl, join _ _ 8 16 rfl, last]
  simp only [valueFrom, Nat.zero_mul, Nat.zero_add]

theorem toNat_shiftLeft32 (byte : UInt8) {k : Nat} (hk : k ≤ 24) :
    (byte.toUInt32 <<< UInt32.ofNat k).toNat = byte.toNat <<< k := by
  have amount : (UInt32.ofNat k).toNat % 32 = k := by
    rw [UInt32.toNat_ofNat']
    omega
  have small : byte.toNat <<< k < 2 ^ 32 := by
    rw [Nat.shiftLeft_eq]
    calc byte.toNat * 2 ^ k < 2 ^ 8 * 2 ^ k :=
          Nat.mul_lt_mul_of_pos_right byte.toNat_lt (Nat.two_pow_pos k)
      _ ≤ 2 ^ 8 * 2 ^ 24 := Nat.mul_le_mul_left _ (Nat.pow_le_pow_right (by decide) hk)
      _ = 2 ^ 32 := (Nat.pow_add 2 8 24).symm
  rw [UInt32.toNat_shiftLeft, amount, UInt8.toNat_toUInt32, Nat.mod_eq_of_lt small]

theorem toNat_four (byte0 byte1 byte2 byte3 : UInt8) :
    (byte0.toUInt32 <<< 24 ||| byte1.toUInt32 <<< 16 ||| byte2.toUInt32 <<< 8 |||
      byte3.toUInt32).toNat = valueFrom 0 [byte0, byte1, byte2, byte3] := by
  have place (byte : UInt8) (k : Nat) (amount : UInt32) (hk : k ≤ 24)
      (same : UInt32.ofNat k = amount) : (byte.toUInt32 <<< amount).toNat = byte.toNat <<< k :=
    same ▸ toNat_shiftLeft32 byte hk
  simp only [UInt32.toNat_or, place _ 24 24 (by decide) rfl, place _ 16 16 (by decide) rfl,
    place _ 8 8 (by decide) rfl, UInt8.toNat_toUInt32]
  have join (acc : Nat) (byte : UInt8) (k above : Nat) (same : k + 8 = above) :
      acc <<< above ||| byte.toNat <<< k = (acc * 256 + byte.toNat) <<< k :=
    same ▸ shiftLeft_or acc byte k
  have last (acc : Nat) : acc <<< 8 ||| byte3.toNat = acc * 256 + byte3.toNat :=
    shiftLeft_or acc byte3 0
  rw [join _ _ 16 24 rfl, join _ _ 8 16 rfl, last]
  simp only [valueFrom, Nat.zero_mul, Nat.zero_add]

theorem ofNat_four (byte0 byte1 byte2 byte3 : UInt8) :
    byte0.toUInt32 <<< 24 ||| byte1.toUInt32 <<< 16 ||| byte2.toUInt32 <<< 8 ||| byte3.toUInt32 =
      UInt32.ofNat (valueFrom 0 [byte0, byte1, byte2, byte3]) := by
  rw [← toNat_four, UInt32.ofNat_toNat]

end BigEndian
