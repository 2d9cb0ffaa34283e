import Coalesce.Edwards25519
import Coalesce.Library.ExtendedCoordinates
import Mathlib.GroupTheory.OrderOfElement

/-! The base point has the prime order L: its L-fold sum is computed on numbers modulo p. -/

namespace Coalesce.BasePoint
open Library.EdwardsCurve Library.ExtendedCoordinates Edwards25519 Primes25519

/-- Extended addition on numbers modulo p; `P - 1` stands for -1. -/
def addNumbers (p q : Extended ℕ) : Extended ℕ :=
  let a := (p.Y + (P - 1) * p.X) * (q.Y + (P - 1) * q.X) % P
  let b := (p.Y + p.X) * (q.Y + q.X) % P
  let c := p.T * q.T * (dNumber + dNumber) % P
  let d := (p.Z * q.Z + p.Z * q.Z) % P
  let e := b + (P - 1) * a
  let f := d + (P - 1) * c
  let g := d + c
  let h := b + a
  ⟨e * f % P, g * h % P, f * g % P, e * h % P⟩

def multiple (p : Extended ℕ) : ℕ → ℕ → Extended ℕ
  | 0, _ => ⟨0, 1, 1, 0⟩
  | rounds + 1, n =>
    let half := multiple p rounds (n / 2)
    if n % 2 = 1 then addNumbers (addNumbers half half) p else addNumbers half half

/-- The numbers as field elements. -/
def residues (e : Extended ℕ) : Extended (ZMod P) := ⟨e.X, e.Y, e.Z, e.T⟩

theorem cast_mod (n : ℕ) : ((n % P : ℕ) : ZMod P) = n := cast_eq (Nat.mod_mod n P)

theorem cast_minus_one : ((P - 1 : ℕ) : ZMod P) = -1 := by
  have sum : ((P - 1 + 1 : ℕ) : ZMod P) = (0 : ℕ) := cast_eq (by decide)
  push_cast at sum
  linear_combination sum

theorem residues_add (p q : Extended ℕ) :
    residues (addNumbers p q) = (residues p).add (edwards.d + edwards.d) (residues q) := by
  have minus := cast_minus_one
  have d_number : edwards.d = dNumber := d_eq
  simp only [residues, addNumbers, Extended.add, cast_mod, Nat.cast_add, Nat.cast_mul, minus, d_number,
    Extended.mk.injEq]
  refine ⟨?_, ?_, ?_, ?_⟩ <;> ring

theorem multiple_of {e : Extended ℕ} {p : Point edwards} (of : (residues e).Of p) (rounds : ℕ) {n : ℕ}
    (fits : n < 2 ^ rounds) : (residues (multiple e rounds n)).Of (n • p) := by
  induction rounds generalizing n with
  | zero =>
    obtain rfl : n = 0 := by omega
    rw [zero_nsmul]
    have identity : residues (multiple e 0 0) = Extended.identity := by
      simp [residues, multiple, Extended.identity]
    rw [identity]
    exact of_identity
  | succ rounds ih =>
    have half := ih (n := n / 2) (by omega)
    have double := half.add half
    rw [← residues_add, ← add_nsmul] at double
    simp only [multiple]
    split
    · next odd =>
      have more := double.add of
      rwa [← residues_add, ← succ_nsmul, show n / 2 + n / 2 + 1 = n by omega] at more
    · next even =>
      rwa [show n / 2 + n / 2 = n by omega] at double

def baseNumbers : Extended ℕ := ⟨baseX, baseY, 1, baseX * baseY % P⟩

theorem baseNumbers_of : (residues baseNumbers).Of B := by
  have x : (residues baseNumbers).X = B.x := rfl
  have y : (residues baseNumbers).Y = B.y := rfl
  have z : (residues baseNumbers).Z = 1 := Nat.cast_one
  have t : (residues baseNumbers).T = B.x * B.y := (cast_mod (baseX * baseY)).trans (Nat.cast_mul baseX baseY)
  refine ⟨?_, ?_, ?_, ?_⟩
  · rw [z]
    exact one_ne_zero
  · rw [x, z, mul_one]
  · rw [y, z, mul_one]
  · rw [t, z, mul_one]

/-- The coordinates of the L-fold sum, evaluated. -/
theorem multiple_L : (multiple baseNumbers 253 L).X = 0 ∧
    (multiple baseNumbers 253 L).Y = (multiple baseNumbers 253 L).Z := by decide +kernel

theorem L_nsmul_B : L • B = 0 := by
  obtain ⟨Z_ne, X, Y, -⟩ := multiple_of baseNumbers_of 253 (show L < 2 ^ 253 by decide)
  obtain ⟨zero, same⟩ := multiple_L
  have x : (L • B).x * (residues (multiple baseNumbers 253 L)).Z = 0 := by
    rw [← X]
    exact (congrArg Nat.cast zero).trans Nat.cast_zero
  have y : (L • B).y * (residues (multiple baseNumbers 253 L)).Z = 1 * (residues (multiple baseNumbers 253 L)).Z := by
    rw [← Y, one_mul]
    exact congrArg Nat.cast same
  ext
  · rw [zero_x]
    exact (mul_eq_zero.mp x).resolve_right Z_ne
  · rw [zero_y]
    exact mul_right_cancel₀ Z_ne y

theorem B_ne_zero : B ≠ 0 := by
  intro zero
  have y := B_y
  rw [zero, zero_y] at y
  exact one_ne_zero (show (1 : ZMod P) = 0 by linear_combination y)

theorem addOrderOf_B : addOrderOf B = L := addOrderOf_eq_prime L_nsmul_B B_ne_zero

/-- Multiples of the base point are numbers modulo L. -/
theorem nsmul_B_eq_iff {m n : ℕ} : m • B = n • B ↔ m % L = n % L := by
  rw [← addOrderOf_B]
  exact nsmul_eq_nsmul_iff_modEq

theorem mod_nsmul_B (n : ℕ) : (n % L) • B = n • B := nsmul_B_eq_iff.mpr (Nat.mod_mod n L)

end Coalesce.BasePoint
