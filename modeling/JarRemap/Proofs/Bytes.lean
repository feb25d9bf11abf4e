import JarRemap.Bytes
import Mathlib.Data.Nat.Bitwise

/-! Big-endian numbers: reading the bytes of a number gives the number, and the other way round. -/

namespace JarRemap.Bytes

/-- Setting low bits that are all clear is addition. -/
theorem or_eq_add (high low width : Nat) (small : low < 2 ^ width) :
    high * 2 ^ width ||| low = high * 2 ^ width + low := by
  rw [← Nat.shiftLeft_eq, Nat.shiftLeft_add_eq_or_of_lt small]

theorem toUInt16_toNat (high low : UInt8) :
    (toUInt16 high low).toNat = high.toNat * 256 + low.toNat := by
  have bound := high.toNat_lt
  have shift : UInt16.toNat 8 % 16 = 8 := rfl
  simp only [toUInt16, UInt16.toNat_or, UInt16.toNat_shiftLeft, UInt8.toNat_toUInt16, shift,
    Nat.shiftLeft_eq]
  rw [Nat.mod_eq_of_lt (by omega)]
  exact or_eq_add _ _ 8 low.toNat_lt

theorem toUInt32_toNat (a b c d : UInt8) : (toUInt32 a b c d).toNat =
    ((a.toNat * 256 + b.toNat) * 256 + c.toNat) * 256 + d.toNat := by
  have first := a.toNat_lt
  have second := b.toNat_lt
  have third := c.toNat_lt
  have shift8 : UInt32.toNat 8 % 32 = 8 := rfl
  have shift16 : UInt32.toNat 16 % 32 = 16 := rfl
  have shift24 : UInt32.toNat 24 % 32 = 24 := rfl
  simp only [toUInt32, UInt32.toNat_or, UInt32.toNat_shiftLeft, UInt8.toNat_toUInt32, shift8,
    shift16, shift24, Nat.shiftLeft_eq]
  rw [Nat.mod_eq_of_lt (by omega), Nat.mod_eq_of_lt (by omega), Nat.mod_eq_of_lt (by omega)]
  -- Each byte is shifted beyond the ones behind it, so the bits add up without carries.
  have upper : a.toNat * 2 ^ 24 ||| b.toNat * 2 ^ 16 = (a.toNat * 256 + b.toNat) * 2 ^ 16 := by
    rw [or_eq_add _ _ 24 (by omega)]
    omega
  have middle : (a.toNat * 256 + b.toNat) * 2 ^ 16 ||| c.toNat * 2 ^ 8 =
      ((a.toNat * 256 + b.toNat) * 256 + c.toNat) * 2 ^ 8 := by
    rw [or_eq_add _ _ 16 (by omega)]
    omega
  rw [upper, middle]
  exact or_eq_add _ _ 8 d.toNat_lt

theorem toUInt64_toNat (high low : UInt32) :
    (toUInt64 high low).toNat = high.toNat * 4294967296 + low.toNat := by
  have bound := high.toNat_lt
  have shift : UInt64.toNat 32 % 64 = 32 := rfl
  simp only [toUInt64, UInt64.toNat_or, UInt64.toNat_shiftLeft, UInt32.toNat_toUInt64, shift,
    Nat.shiftLeft_eq]
  rw [Nat.mod_eq_of_lt (by omega)]
  exact or_eq_add _ _ 32 low.toNat_lt

/-- The bytes that a number was read from. -/
theorem ofUInt16_toUInt16 (high low : UInt8) : ofUInt16 (toUInt16 high low) = [high, low] := by
  have value := toUInt16_toNat high low
  have bound := high.toNat_lt
  have small := low.toNat_lt
  have shift : UInt16.toNat 8 % 16 = 8 := rfl
  simp only [ofUInt16, List.cons.injEq, and_true, ← UInt8.toNat_inj, UInt16.toNat_toUInt8,
    UInt16.toNat_shiftRight, value, shift, Nat.shiftRight_eq_div_pow]
  omega

theorem ofUInt32_toUInt32 (a b c d : UInt8) : ofUInt32 (toUInt32 a b c d) = [a, b, c, d] := by
  have value := toUInt32_toNat a b c d
  have first := a.toNat_lt
  have second := b.toNat_lt
  have third := c.toNat_lt
  have fourth := d.toNat_lt
  have shift8 : UInt32.toNat 8 % 32 = 8 := rfl
  have shift16 : UInt32.toNat 16 % 32 = 16 := rfl
  have shift24 : UInt32.toNat 24 % 32 = 24 := rfl
  simp only [ofUInt32, List.cons.injEq, and_true, ← UInt8.toNat_inj, UInt32.toNat_toUInt8,
    UInt32.toNat_shiftRight, value, shift8, shift16, shift24, Nat.shiftRight_eq_div_pow]
  omega

theorem ofUInt64_toUInt64 (high low : UInt32) :
    ofUInt64 (toUInt64 high low) = ofUInt32 high ++ ofUInt32 low := by
  have value := toUInt64_toNat high low
  have bound := high.toNat_lt
  have small := low.toNat_lt
  have shift : UInt64.toNat 32 % 64 = 32 := rfl
  have upper : (toUInt64 high low >>> 32).toUInt32 = high := by
    simp only [← UInt32.toNat_inj, UInt64.toNat_toUInt32, UInt64.toNat_shiftRight, value, shift,
      Nat.shiftRight_eq_div_pow]
    omega
  have lower : (toUInt64 high low).toUInt32 = low := by
    simp only [← UInt32.toNat_inj, UInt64.toNat_toUInt32, value]
    omega
  simp only [ofUInt64, upper, lower]

/-- The number that its own bytes spell. -/
theorem toUInt16_bytes (value : UInt16) : toUInt16 (value >>> 8).toUInt8 value.toUInt8 = value := by
  have bound := value.toNat_lt
  have shift : UInt16.toNat 8 % 16 = 8 := rfl
  simp only [← UInt16.toNat_inj, toUInt16_toNat, UInt16.toNat_toUInt8, UInt16.toNat_shiftRight,
    shift, Nat.shiftRight_eq_div_pow]
  omega

theorem toUInt32_bytes (value : UInt32) :
    toUInt32 (value >>> 24).toUInt8 (value >>> 16).toUInt8 (value >>> 8).toUInt8 value.toUInt8 =
      value := by
  have bound := value.toNat_lt
  have shift8 : UInt32.toNat 8 % 32 = 8 := rfl
  have shift16 : UInt32.toNat 16 % 32 = 16 := rfl
  have shift24 : UInt32.toNat 24 % 32 = 24 := rfl
  simp only [← UInt32.toNat_inj, toUInt32_toNat, UInt32.toNat_toUInt8, UInt32.toNat_shiftRight,
    shift8, shift16, shift24, Nat.shiftRight_eq_div_pow]
  omega

theorem toUInt64_halves (value : UInt64) :
    toUInt64 (value >>> 32).toUInt32 value.toUInt32 = value := by
  have bound := value.toNat_lt
  have shift : UInt64.toNat 32 % 64 = 32 := rfl
  simp only [← UInt64.toNat_inj, toUInt64_toNat, UInt64.toNat_toUInt32, UInt64.toNat_shiftRight,
    shift, Nat.shiftRight_eq_div_pow]
  omega

end JarRemap.Bytes
