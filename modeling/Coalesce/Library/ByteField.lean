import Coalesce.Library.ByteNumber
import Mathlib.Algebra.Field.ZMod
import Mathlib.Algebra.Polynomial.OfFn
import Mathlib.Data.Nat.Bitwise
import Mathlib.Data.ZMod.Basic
import Mathlib.LinearAlgebra.Matrix.Notation
import Mathlib.RingTheory.AdjoinRoot
import Mathlib.Tactic.LinearCombination

/-! The field of 256 elements: polynomials modulo `X ^ 8 + X ^ 4 + X ^ 3 + X + 1`. A byte
holds the eight coefficients; its inverse is found on bytes, and that makes it a field. -/

namespace Coalesce.Library.ByteField
open ByteNumber Polynomial

noncomputable def modulus : (ZMod 2)[X] := X ^ 8 + (X ^ 4 + X ^ 3 + X + 1)

abbrev GF256 := AdjoinRoot modulus

/-- The class of `X`. -/
noncomputable def x : GF256 := AdjoinRoot.root modulus

theorem modulus_tail : degree (X ^ 4 + X ^ 3 + X + 1 : (ZMod 2)[X]) < ((8 : ℕ) : WithBot ℕ) := by
  have four : degree (X ^ 4 + X ^ 3 + X + 1 : (ZMod 2)[X]) = 4 := by compute_degree!
  rw [four]
  decide

theorem modulus_monic : modulus.Monic := monic_X_pow_add modulus_tail

theorem modulus_degree : modulus.degree = ((8 : ℕ) : WithBot ℕ) := by
  rw [modulus, degree_add_eq_left_of_degree_lt (by rw [degree_X_pow]; exact modulus_tail), degree_X_pow]

theorem two_eq_zero : (2 : GF256) = 0 := by
  rw [← map_ofNat (AdjoinRoot.of modulus) 2, show (2 : ZMod 2) = 0 from rfl, map_zero]

theorem x_pow_eight : x ^ 8 = x ^ 4 + x ^ 3 + x + 1 := by
  have vanishes : AdjoinRoot.mk modulus (X ^ 8 + (X ^ 4 + X ^ 3 + X + 1)) = 0 := AdjoinRoot.mk_self
  simp only [map_add, map_pow, map_one, AdjoinRoot.mk_X] at vanishes
  have relation : x ^ 8 + (x ^ 4 + x ^ 3 + x + 1) = 0 := vanishes
  linear_combination relation - (x ^ 4 + x ^ 3 + x + 1) * two_eq_zero

/-! Coefficients. -/

/-- Every element is the class of one polynomial of degree below eight. -/
noncomputable def coefficients : GF256 ≃+ (Fin 8 → ZMod 2) where
  toFun z := toFn 8 (AdjoinRoot.modByMonicHom modulus_monic z)
  invFun b := AdjoinRoot.mk modulus (ofFn 8 b)
  left_inv z := by
    induction z using AdjoinRoot.induction_on with
    | ih p =>
      have small : (p %ₘ modulus).degree < ((8 : ℕ) : WithBot ℕ) := by
        rw [← modulus_degree]
        exact degree_modByMonic_lt p modulus_monic
      have short : (p %ₘ modulus).natDegree < 8 := by
        by_cases zero : p %ₘ modulus = 0
        · rw [zero, natDegree_zero]
          decide
        · exact (natDegree_lt_iff_degree_lt zero).mpr small
      change AdjoinRoot.mk modulus (ofFn 8 (toFn 8 (AdjoinRoot.modByMonicHom modulus_monic (AdjoinRoot.mk modulus p)))) = _
      rw [AdjoinRoot.modByMonicHom_mk, ofFn_comp_toFn_eq_id_of_natDegree_lt short,
        ← AdjoinRoot.modByMonicHom_mk modulus_monic, AdjoinRoot.mk_leftInverse modulus_monic]
  right_inv b := by
    have small : (ofFn 8 b).degree < modulus.degree := by
      rw [modulus_degree]
      exact ofFn_degree_lt b
    change toFn 8 (AdjoinRoot.modByMonicHom modulus_monic (AdjoinRoot.mk modulus (ofFn 8 b))) = b
    rw [AdjoinRoot.modByMonicHom_mk, (modByMonic_eq_self_iff modulus_monic).mpr small, toFn_comp_ofFn_eq_id]
  map_add' z w := by rw [map_add, map_add]

theorem coefficients_symm (b : Fin 8 → ZMod 2) :
    coefficients.symm b = ∑ i : Fin 8, AdjoinRoot.of modulus (b i) * x ^ i.val := by
  change AdjoinRoot.mk modulus (ofFn 8 b) = _
  rw [ofFn_eq_sum_monomial, map_sum]
  apply Finset.sum_congr rfl
  intro i _
  rw [← C_mul_X_pow_eq_monomial, map_mul, AdjoinRoot.mk_C, map_pow, AdjoinRoot.mk_X]
  rfl

/-! Bytes. -/

def bit (a : UInt8) (i : Fin 8) : ZMod 2 := if a.toNat.testBit i.val then 1 else 0

noncomputable def toField (a : UInt8) : GF256 := coefficients.symm (bit a)

theorem toField_sum (a : UInt8) : toField a = ∑ i : Fin 8, AdjoinRoot.of modulus (bit a i) * x ^ i.val :=
  coefficients_symm (bit a)

theorem testBit_high (a : UInt8) {k : ℕ} (high : 8 ≤ k) : a.toNat.testBit k = false :=
  Nat.testBit_lt_two_pow (Nat.lt_of_lt_of_le a.toNat_lt (Nat.pow_le_pow_right (by decide) high))

theorem bit_injective : Function.Injective bit := by
  intro a b same
  apply UInt8.toNat_inj.mp
  apply Nat.eq_of_testBit_eq
  intro i
  by_cases inside : i < 8
  · have equal := congrFun same ⟨i, inside⟩
    unfold bit at equal
    split at equal <;> split at equal <;> simp_all
  · rw [testBit_high a (Nat.le_of_not_lt inside), testBit_high b (Nat.le_of_not_lt inside)]

theorem bit_xor (a b : UInt8) : bit (a ^^^ b) = bit a + bit b := by
  funext i
  simp only [bit, Pi.add_apply, UInt8.toNat_xor, Nat.testBit_xor]
  cases a.toNat.testBit i.val <;> cases b.toNat.testBit i.val <;> decide

theorem toField_injective : Function.Injective toField := coefficients.symm.injective.comp bit_injective

theorem toField_xor (a b : UInt8) : toField (a ^^^ b) = toField a + toField b := by
  rw [toField, bit_xor, map_add]
  rfl

theorem toField_zero : toField 0 = 0 := by
  have zero : bit 0 = 0 := by decide
  rw [toField, zero, map_zero]

theorem toField_one : toField 1 = 1 := by
  have one : bit 1 = ![1, 0, 0, 0, 0, 0, 0, 0] := by decide
  rw [toField_sum, one, Fin.sum_univ_eight]
  simp

/-- The byte with these bits. -/
def ofBits (b : Fin 8 → ZMod 2) : UInt8 := UInt8.ofNat (Nat.ofBits fun i => b i = 1)

theorem bit_ofBits (b : Fin 8 → ZMod 2) : bit (ofBits b) = b := by
  funext i
  have held : (ofBits b).toNat.testBit i.val = decide (b i = 1) := by
    rw [ofBits, UInt8.toNat_ofNat_of_lt' (Nat.ofBits_lt_two_pow _), Nat.testBit_ofBits_lt _ _ i.isLt]
  rw [bit, held]
  generalize b i = value
  revert value
  decide

theorem toField_surjective : Function.Surjective toField := by
  intro z
  have bits := bit_ofBits (coefficients z)
  exact ⟨ofBits (coefficients z), by rw [toField, bits, AddEquiv.symm_apply_apply]⟩

/-- Multiplication by `x`. -/
def double (a : UInt8) : UInt8 := (a <<< 1) ^^^ (if a &&& 0x80 ≠ 0 then 0x1b else 0x00)

theorem bit_shifted (a : UInt8) : bit (a <<< 1) = ![0, bit a 0, bit a 1, bit a 2, bit a 3, bit a 4, bit a 5, bit a 6] := by
  have shifted (k : ℕ) : (a <<< 1).toNat.testBit k = (decide (k < 8) && (decide (1 ≤ k) && a.toNat.testBit (k - 1))) := by
    rw [UInt8.toNat_shiftLeft]
    change (a.toNat <<< 1 % 2 ^ 8).testBit k = _
    rw [Nat.testBit_mod_two_pow, Nat.testBit_shiftLeft]
  funext i
  rw [bit, shifted]
  fin_cases i <;> simp [bit]

theorem bit_cases (a : UInt8) (i : Fin 8) : bit a i = 0 ∨ bit a i = 1 := by
  unfold bit
  split
  · exact Or.inr rfl
  · exact Or.inl rfl

theorem high_bit (a : UInt8) : a &&& 0x80 ≠ 0 ↔ bit a 7 = 1 := by
  have top : (a &&& 0x80).toNat = 128 * (a.toNat.testBit 7).toNat := by
    rw [UInt8.toNat_and]
    exact (Nat.and_two_pow a.toNat 7).trans (Nat.mul_comm _ _)
  rw [Ne, ← UInt8.toNat_inj, top, bit]
  cases high : a.toNat.testBit 7 <;> simp [high]

theorem bit_reduced (a : UInt8) :
    bit (if a &&& 0x80 ≠ 0 then 0x1b else 0x00) = ![bit a 7, bit a 7, 0, bit a 7, bit a 7, 0, 0, 0] := by
  have reduced : bit 0x1b = ![1, 1, 0, 1, 1, 0, 0, 0] := by decide
  have kept : bit 0x00 = ![0, 0, 0, 0, 0, 0, 0, 0] := by decide
  rcases bit_cases a 7 with low | high
  · rw [if_neg (by rw [high_bit, low]; decide), low, kept]
  · rw [if_pos ((high_bit a).mpr high), high, reduced]

theorem bit_double (a : UInt8) :
    bit (double a) = ![bit a 7, bit a 0 + bit a 7, bit a 1, bit a 2 + bit a 7, bit a 3 + bit a 7, bit a 4, bit a 5, bit a 6] := by
  rw [double, bit_xor, bit_shifted, bit_reduced]
  simp

theorem toField_double (a : UInt8) : toField (double a) = x * toField a := by
  rw [toField_sum, toField_sum, bit_double, Fin.sum_univ_eight, Fin.sum_univ_eight]
  simp
  linear_combination -AdjoinRoot.of modulus (bit a 7) * x_pow_eight

/-- From the highest bit of `b` down. -/
def times (a b : UInt8) : UInt8 :=
  (List.finRange 8).foldr (fun i product => double product ^^^ (if b.toNat.testBit i.val then a else 0)) 0

theorem toField_step (a b product : UInt8) (i : Fin 8) :
    toField (double product ^^^ (if b.toNat.testBit i.val then a else 0)) =
      x * toField product + AdjoinRoot.of modulus (bit b i) * toField a := by
  rw [toField_xor, toField_double, bit]
  split
  · rw [map_one, one_mul]
  · rw [map_zero, zero_mul, toField_zero]

theorem toField_times (a b : UInt8) : toField (times a b) = toField a * toField b := by
  have indices : List.finRange 8 = [0, 1, 2, 3, 4, 5, 6, 7] := by decide
  rw [times, indices]
  simp only [List.foldr_cons, List.foldr_nil, toField_step, toField_zero]
  rw [toField_sum b, Fin.sum_univ_eight]
  simp only [Fin.isValue, Fin.coe_ofNat_eq_mod, Nat.reduceMod]
  ring

/-! The powers of `x + 1` run through all bytes but zero. -/

def tripled (a : UInt8) : UInt8 := double a ^^^ a

def powers : ℕ → UInt8 → List UInt8
  | 0, _ => []
  | count + 1, a => a :: powers count (tripled a)

theorem powers_full : valueMask (0 :: powers 255 1) = 2 ^ 256 - 1 := by decide +kernel

theorem mem_powers (a : UInt8) : a = 0 ∨ a ∈ powers 255 1 := by
  have present : (valueMask (0 :: powers 255 1)).testBit a.toNat = true := by
    rw [powers_full, Nat.testBit_two_pow_sub_one, decide_eq_true_eq]
    exact a.toNat_lt
  obtain ⟨entry, member, same⟩ := mem_of_testBit present
  rw [UInt8.toNat_inj] at same
  rw [← same]
  exact List.mem_cons.mp member

theorem tripled_period : tripled^[255] 1 = 1 := by decide +kernel

theorem toField_tripled (a : UInt8) : toField (tripled a) = (x + 1) * toField a := by
  rw [tripled, toField_xor, toField_double, add_mul, one_mul]

theorem toField_iterate (count : ℕ) (a : UInt8) : toField (tripled^[count] a) = (x + 1) ^ count * toField a := by
  induction count with
  | zero => rw [Function.iterate_zero_apply, pow_zero, one_mul]
  | succ count ih => rw [Function.iterate_succ_apply', toField_tripled, ih, pow_succ', mul_assoc]

theorem exists_power {a b : UInt8} {count : ℕ} (member : a ∈ powers count b) : ∃ k, a = tripled^[k] b := by
  induction count generalizing b with
  | zero => exact absurd member List.not_mem_nil
  | succ count ih =>
    rw [powers, List.mem_cons] at member
    rcases member with here | later
    · exact ⟨0, here⟩
    · obtain ⟨k, power⟩ := ih later
      exact ⟨k + 1, power⟩

theorem generator_period : (x + 1) ^ 255 = 1 := by
  have period := toField_iterate 255 1
  rw [tripled_period, toField_one, mul_one] at period
  exact period.symm

theorem exists_inverse {z : GF256} (nonzero : z ≠ 0) : ∃ w, z * w = 1 := by
  obtain ⟨a, byte⟩ := toField_surjective z
  rcases mem_powers a with zero | member
  · rw [zero, toField_zero] at byte
    exact absurd byte.symm nonzero
  · obtain ⟨k, power⟩ := exists_power member
    rw [power, toField_iterate, toField_one, mul_one] at byte
    have product : (x + 1) ^ k * (x + 1) ^ (254 * k) = 1 := by
      calc
        _ = (x + 1) ^ (255 * k) := by
          rw [← pow_add]
          congr 1
          omega
        _ = ((x + 1) ^ 255) ^ k := pow_mul _ _ _
        _ = 1 := by rw [generator_period, one_pow]
    exact ⟨(x + 1) ^ (254 * k), by rw [← byte, product]⟩

theorem isField : IsField GF256 where
  exists_pair_ne := ⟨0, 1, fun same => by
    rw [← toField_zero, ← toField_one] at same
    exact absurd (toField_injective same) (by decide)⟩
  mul_comm := mul_comm
  mul_inv_cancel := exists_inverse

theorem modulus_irreducible : Irreducible modulus := by
  have maximal : (Ideal.span {modulus}).IsMaximal := Ideal.Quotient.maximal_of_isField _ isField
  have prime := (Ideal.span_singleton_prime modulus_monic.ne_zero).mp maximal.isPrime
  exact prime.irreducible

instance : Fact (Irreducible modulus) := ⟨modulus_irreducible⟩

theorem toField_inverse {a b : UInt8} (product : times a b = 1) : (toField a)⁻¹ = toField b := by
  have one := congrArg toField product
  rw [toField_times, toField_one] at one
  exact inv_eq_of_mul_eq_one_right one

end Coalesce.Library.ByteField
