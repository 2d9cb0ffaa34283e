import Coalesce.Library.ByteNumber

/-! Byte strings as signed numbers, highest byte first. -/

namespace Coalesce.Library.TwosComplement
open ByteNumber

def signBit (bytes : List UInt8) : Bool := 128 ≤ (bytes.headD 0).toNat

def twosComplement (bytes : List UInt8) : Int :=
  if signBit bytes then (beNat bytes : Int) - (256 ^ bytes.length : Nat) else beNat bytes

theorem twosComplement_of_clear {bytes : List UInt8} (clear : signBit bytes = false) :
    twosComplement bytes = beNat bytes := by
  rw [twosComplement, clear]
  rfl

theorem twosComplement_neg {bytes : List UInt8} (negative : signBit bytes = true) : twosComplement bytes < 0 := by
  have below := beNat_lt bytes
  rw [twosComplement, if_pos negative]
  omega

/-- Only a clear sign bit denotes a natural number. -/
theorem signBit_of_natural {bytes : List UInt8} {number : Nat} (value : twosComplement bytes = number) :
    signBit bytes = false := by
  by_contra negative
  have low := twosComplement_neg (Bool.eq_true_of_not_eq_false negative)
  omega

theorem beNat_of_natural {bytes : List UInt8} {number : Nat} (value : twosComplement bytes = number) :
    beNat bytes = number := by
  rw [twosComplement_of_clear (signBit_of_natural value)] at value
  exact_mod_cast value

/-- A clear sign bit costs half of the range. -/
theorem two_mul_beNat_lt {bytes : List UInt8} (clear : signBit bytes = false) : 2 * beNat bytes < 256 ^ bytes.length := by
  cases bytes with
  | nil => exact Nat.zero_lt_one
  | cons first rest =>
    have low : first.toNat < 128 := by simpa [signBit] using clear
    have tail := beNat_lt rest
    have most : first.toNat * 256 ^ rest.length ≤ 127 * 256 ^ rest.length := Nat.mul_le_mul_right _ (by omega)
    rw [beNat_cons, List.length_cons, pow_succ]
    omega

end Coalesce.Library.TwosComplement
