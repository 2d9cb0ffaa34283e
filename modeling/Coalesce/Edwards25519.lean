import Coalesce.Library.EdwardsCurve
import Coalesce.Primes25519
import Mathlib.FieldTheory.Finite.Basic

/-! The curve of RFC 8032: `-x² + y² = 1 + d x² y²` over GF(2^255 - 19). -/

namespace Coalesce.Edwards25519
open Library.EdwardsCurve Library.PrattCertificate Primes25519

/-- Equal numbers modulo p. -/
theorem cast_eq {m n : ℕ} (same : m % P = n % P) : (m : ZMod P) = n := (ZMod.natCast_eq_natCast_iff' m n P).mpr same

theorem cast_ne_zero {n : ℕ} (nonzero : n % P ≠ 0) : (n : ZMod P) ≠ 0 := fun zero =>
  nonzero (by rw [← ZMod.val_natCast, zero, ZMod.val_zero])

theorem cast_pow {base exponent result : ℕ} (rounds : ℕ) (fits : exponent < 2 ^ rounds)
    (power : powMod P base rounds exponent = result) : (base : ZMod P) ^ exponent = result := by
  rw [powMod_eq P base rounds fits] at power
  rw [← Nat.cast_pow]
  refine cast_eq ?_
  rw [← power, Nat.mod_mod]

def d : ZMod P := -121665 / 121666

/-- `d` as a number. -/
def dNumber : ℕ := 37095705934669439343138083508754565189542113879843219016388785533085940283555

/-- A square root of -1 as a number. -/
def iNumber : ℕ := 19681161376707505956807079304988542015446066515923890162744021073123829784752

theorem d_mul : d * 121666 = -121665 := by
  have nonzero : (121666 : ZMod P) ≠ 0 := cast_ne_zero (n := 121666) (by decide)
  rw [d, div_mul_cancel₀ _ nonzero]

theorem d_eq : d = dNumber := by
  have nonzero : (121666 : ZMod P) ≠ 0 := cast_ne_zero (n := 121666) (by decide)
  have sum : ((dNumber * 121666 + 121665 : ℕ) : ZMod P) = (0 : ℕ) := cast_eq (by decide)
  push_cast at sum
  refine mul_right_cancel₀ nonzero ?_
  rw [d_mul]
  linear_combination -sum

theorem i_sq : (iNumber : ZMod P) * iNumber = -1 := by
  have sum : ((iNumber * iNumber + 1 : ℕ) : ZMod P) = (0 : ℕ) := cast_eq (by decide)
  push_cast at sum
  linear_combination sum

/-- Euler: the power of `d` is not 1. -/
theorem d_nonsquare (s : ZMod P) : s * s ≠ d := by
  intro square
  have power : d ^ ((P - 1) / 2) = ((P - 1 : ℕ) : ZMod P) := by
    rw [d_eq]
    exact cast_pow 256 (by decide) (by decide +kernel)
  have s_ne : s ≠ 0 := by
    rintro rfl
    have nonzero : ((dNumber : ℕ) : ZMod P) ≠ 0 := cast_ne_zero (by decide)
    exact nonzero (by rw [← d_eq, ← square, mul_zero])
  have fermat : (s * s) ^ ((P - 1) / 2) = 1 := by
    rw [← pow_two, ← pow_mul, show 2 * ((P - 1) / 2) = P - 1 by decide]
    exact ZMod.pow_card_sub_one_eq_one s_ne
  rw [square, power] at fermat
  have two : ((P - 2 : ℕ) : ZMod P) = 0 := by
    have shifted : ((P - 1 : ℕ) : ZMod P) = ((P - 2 : ℕ) : ZMod P) + 1 := by
      rw [show P - 1 = P - 2 + 1 by decide, Nat.cast_add, Nat.cast_one]
    linear_combination fermat - shifted
  exact cast_ne_zero (by decide) two

def edwards : Curve (ZMod P) where
  d := d
  i := iNumber
  i_sq := i_sq
  nonsquare := d_nonsquare
  two_ne_zero := cast_ne_zero (n := 2) (by decide)

/-- The base point, by its coordinates. -/
def baseX : ℕ := 15112221349535400772501151409588531511454012693041857206046113283949847762202

def baseY : ℕ := 46316835694926478169428394003475163141307993866256225615783033603165251855960

theorem base_on : edwards.On baseX baseY := by
  have equation : ((baseY * baseY : ℕ) : ZMod P) =
      ((1 + baseX * baseX + dNumber * (baseX * baseX) * (baseY * baseY) : ℕ) : ZMod P) := cast_eq (by decide)
  push_cast at equation
  rw [← d_eq] at equation
  exact equation

def B : Point edwards := ⟨baseX, baseY, base_on⟩

theorem B_y : B.y * 5 = 4 := by
  have equation : ((baseY * 5 : ℕ) : ZMod P) = (4 : ℕ) := cast_eq (by decide)
  push_cast at equation
  exact equation

end Coalesce.Edwards25519
