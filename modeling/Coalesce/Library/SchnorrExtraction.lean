import Mathlib.Algebra.Field.ZMod
import Mathlib.Algebra.Module.NatInt
import Mathlib.Tactic.Abel

/-! The equation behind Schnorr signatures, in any commutative group, and what two answers to
one commitment give away. -/

namespace Coalesce.Library.SchnorrExtraction

section
variable {G : Type} [AddCommGroup G] {q : ℕ} {B A R : G} {k k' s s' : ℕ}

/-- `s` answers the challenge `k` to the commitment `R`, for the key `A`. -/
def Passes (B A R : G) (k s : ℕ) : Prop := s • B = R + k • A

/-- Whoever knows the logarithm of the key can answer. -/
theorem passes_of_secret (x r k : ℕ) : Passes B (x • B) (r • B) k (r + k * x) := by
  rw [Passes, add_nsmul, mul_nsmul']

/-- The commitment drops out of two answers. -/
theorem Passes.sub (first : Passes B A R k s) (second : Passes B A R k' s') :
    ((s : ℤ) - s') • B = ((k : ℤ) - k') • A := by
  rw [sub_zsmul, sub_zsmul, natCast_zsmul, natCast_zsmul, natCast_zsmul, natCast_zsmul, first, second]
  abel

/-- Multiples of an element of order `q` are taken modulo `q`. -/
theorem zsmul_congr (order : q • A = 0) {a b : ℤ} (same : (a : ZMod q) = b) : a • A = b • A := by
  obtain ⟨c, apart⟩ := (ZMod.intCast_eq_intCast_iff_dvd_sub a b q).mp same
  have multiple : ((q : ℤ) * c) • A = 0 := by rw [mul_comm, mul_zsmul, natCast_zsmul, order, zsmul_zero]
  calc
    a • A = a • A + ((q : ℤ) * c) • A := by rw [multiple, add_zero]
    _ = b • A := by rw [← apart, ← add_zsmul, add_sub_cancel]

/-- The logarithm that two answers to different challenges stand for. -/
def extracted (q k s k' s' : ℕ) : ℕ := (((s : ZMod q) - s') * ((k : ZMod q) - k')⁻¹).val

theorem extracted_lt [NeZero q] : extracted q k s k' s' < q := ZMod.val_lt _

theorem extracted_nsmul [Fact q.Prime] (orderB : q • B = 0) (orderA : q • A = 0) (first : Passes B A R k s)
    (second : Passes B A R k' s') (differ : (k : ZMod q) ≠ k') : extracted q k s k' s' • B = A := by
  have unit : (((k : ZMod q) - k')⁻¹) * ((k : ZMod q) - k') = 1 := inv_mul_cancel₀ (sub_ne_zero.mpr differ)
  generalize inverse : ((k : ZMod q) - k')⁻¹ = m at unit
  have answer : (((extracted q k s k' s' : ℕ) : ℤ) : ZMod q) = ((m.val * ((s : ℤ) - s') : ℤ) : ZMod q) := by
    rw [extracted, inverse]
    push_cast
    rw [ZMod.natCast_zmod_val, ZMod.natCast_zmod_val, mul_comm]
  have one : ((m.val * ((k : ℤ) - k') : ℤ) : ZMod q) = ((1 : ℤ) : ZMod q) := by
    push_cast
    rw [ZMod.natCast_zmod_val, unit]
  calc
    extracted q k s k' s' • B = (m.val * ((s : ℤ) - s')) • B := by rw [← natCast_zsmul, zsmul_congr orderB answer]
    _ = (m.val : ℤ) • ((s : ℤ) - s') • B := mul_zsmul _ _ _
    _ = (m.val : ℤ) • ((k : ℤ) - k') • A := by rw [first.sub second]
    _ = (m.val * ((k : ℤ) - k')) • A := (mul_zsmul _ _ _).symm
    _ = A := by rw [zsmul_congr orderA one, one_zsmul]

end

end Coalesce.Library.SchnorrExtraction
