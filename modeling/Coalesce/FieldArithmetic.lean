import Coalesce.Field25519
import Coalesce.Primes25519
import Mathlib.FieldTheory.Finite.Basic

/-! What the limb arithmetic computes in the field. Limbs are bounded by multiples of
those of 2p: a subtrahend by 2p itself, the factors of a product by 8p. -/

namespace Coalesce.FieldArithmetic
open Library.ByteNumber Library.WordBytes Library.BitLoop Field25519 Primes25519

/-- The number the limbs stand for. -/
def value (a : Fe25519) : ℕ :=
  a.l0.toNat + 2 ^ 51 * a.l1.toNat + 2 ^ 102 * a.l2.toNat + 2 ^ 153 * a.l3.toNat + 2 ^ 204 * a.l4.toNat

/-- Limbs at most `k` times those of 2p. -/
structure Within (k : ℕ) (a : Fe25519) : Prop where
  l0 : a.l0.toNat ≤ k * (2 ^ 52 - 38)
  l1 : a.l1.toNat ≤ k * (2 ^ 52 - 2)
  l2 : a.l2.toNat ≤ k * (2 ^ 52 - 2)
  l3 : a.l3.toNat ≤ k * (2 ^ 52 - 2)
  l4 : a.l4.toNat ≤ k * (2 ^ 52 - 2)

/-- Limbs for a field element. -/
structure Rep (k : ℕ) (a : Fe25519) (x : ZMod P) : Prop where
  within : Within k a
  denotes : (value a : ZMod P) = x

/-- Limbs below a bound, all of them the same. -/
structure Below (bound : ℕ) (a : Fe25519) : Prop where
  l0 : a.l0.toNat < bound
  l1 : a.l1.toNat < bound
  l2 : a.l2.toNat < bound
  l3 : a.l3.toNat < bound
  l4 : a.l4.toNat < bound

/-- Limbs that carries have passed through. -/
structure Normalized (a : Fe25519) : Prop where
  l0 : a.l0.toNat < 2 ^ 51 + 19
  l1 : a.l1.toNat < 2 ^ 51
  l2 : a.l2.toNat < 2 ^ 51
  l3 : a.l3.toNat < 2 ^ 51
  l4 : a.l4.toNat < 2 ^ 51

theorem two_pow_255 : (2 : ZMod P) ^ 255 = 19 := by
  have wrapped : ((2 ^ 255 : ℕ) : ZMod P) = (19 : ℕ) := by
    rw [ZMod.natCast_eq_natCast_iff']
    decide
  rwa [Nat.cast_pow, Nat.cast_ofNat, Nat.cast_ofNat] at wrapped

theorem Within.mono {j k : ℕ} {a : Fe25519} (within : Within j a) (more : j ≤ k) : Within k a :=
  ⟨within.l0.trans (Nat.mul_le_mul_right _ more), within.l1.trans (Nat.mul_le_mul_right _ more),
    within.l2.trans (Nat.mul_le_mul_right _ more), within.l3.trans (Nat.mul_le_mul_right _ more),
    within.l4.trans (Nat.mul_le_mul_right _ more)⟩

theorem Rep.mono {j k : ℕ} {a : Fe25519} {x : ZMod P} (rep : Rep j a x) (more : j ≤ k) : Rep k a x :=
  ⟨rep.within.mono more, rep.denotes⟩

theorem Below.mono {m n : ℕ} {a : Fe25519} (below : Below m a) (more : m ≤ n) : Below n a :=
  ⟨Nat.lt_of_lt_of_le below.l0 more, Nat.lt_of_lt_of_le below.l1 more, Nat.lt_of_lt_of_le below.l2 more,
    Nat.lt_of_lt_of_le below.l3 more, Nat.lt_of_lt_of_le below.l4 more⟩

theorem Within.below {a : Fe25519} (within : Within 4 a) : Below (2 ^ 54) a := by
  obtain ⟨l0, l1, l2, l3, l4⟩ := within
  constructor <;> omega

theorem Within.carries {a : Fe25519} (within : Within 4 a) : Below (2 ^ 63) a := within.below.mono (by decide)

theorem Normalized.within {a : Fe25519} (normalized : Normalized a) : Within 1 a := by
  obtain ⟨l0, l1, l2, l3, l4⟩ := normalized
  constructor <;> omega

theorem Normalized.below {a : Fe25519} (normalized : Normalized a) : Below (2 ^ 54) a :=
  (normalized.within.mono (by decide)).below

/-! Sums and differences. -/

theorem mask_toNat (x : BitVec 64) : (x &&& MASK51).toNat = x.toNat % 2 ^ 51 := by
  rw [BitVec.toNat_and, show MASK51.toNat = 2 ^ 51 - 1 from rfl, Nat.and_two_pow_sub_one_eq_mod]

theorem shift_toNat (x : BitVec 64) : (x >>> 51).toNat = x.toNat / 2 ^ 51 := by
  rw [BitVec.toNat_ushiftRight, Nat.shiftRight_eq_div_pow]

theorem add_toNat {x y : BitVec 64} (fits : x.toNat + y.toNat < 2 ^ 64) : (x + y).toNat = x.toNat + y.toNat :=
  BitVec.toNat_add_of_lt fits

theorem rep_add {j k : ℕ} {a b : Fe25519} {x y : ZMod P} (first : Rep j a x) (second : Rep k b y)
    (room : j + k ≤ 4) : Rep (j + k) (fe25519Add a b) (x + y) := by
  obtain ⟨⟨a0, a1, a2, a3, a4⟩, rfl⟩ := first
  obtain ⟨⟨b0, b1, b2, b3, b4⟩, rfl⟩ := second
  have s0 : (a.l0 + b.l0).toNat = a.l0.toNat + b.l0.toNat := add_toNat (by omega)
  have s1 : (a.l1 + b.l1).toNat = a.l1.toNat + b.l1.toNat := add_toNat (by omega)
  have s2 : (a.l2 + b.l2).toNat = a.l2.toNat + b.l2.toNat := add_toNat (by omega)
  have s3 : (a.l3 + b.l3).toNat = a.l3.toNat + b.l3.toNat := add_toNat (by omega)
  have s4 : (a.l4 + b.l4).toNat = a.l4.toNat + b.l4.toNat := add_toNat (by omega)
  refine ⟨⟨?_, ?_, ?_, ?_, ?_⟩, ?_⟩ <;> simp only [fe25519Add, value, s0, s1, s2, s3, s4]
  iterate 5 omega
  push_cast
  ring

/-- Adding a limb of 2p first keeps the difference positive. -/
theorem sub_toNat {x p y : BitVec 64} {n : ℕ} (small : x.toNat < 2 ^ 63) (limb : p.toNat = n) (below : y.toNat ≤ n)
    (bound : n < 2 ^ 63) : (x + p - y).toNat = x.toNat + n - y.toNat := by
  subst limb
  rw [BitVec.toNat_sub, add_toNat (by omega)]
  omega

theorem rep_sub {k : ℕ} {a b : Fe25519} {x y : ZMod P} (first : Rep k a x) (second : Rep 1 b y)
    (room : k ≤ 3) : Rep (k + 1) (fe25519Sub a b) (x - y) := by
  obtain ⟨⟨a0, a1, a2, a3, a4⟩, rfl⟩ := first
  obtain ⟨⟨b0, b1, b2, b3, b4⟩, rfl⟩ := second
  have s0 : (a.l0 + P2.l0 - b.l0).toNat = a.l0.toNat + (2 ^ 52 - 38) - b.l0.toNat :=
    sub_toNat (by omega) rfl (by omega) (by decide)
  have s1 : (a.l1 + P2.l1 - b.l1).toNat = a.l1.toNat + (2 ^ 52 - 2) - b.l1.toNat :=
    sub_toNat (by omega) rfl (by omega) (by decide)
  have s2 : (a.l2 + P2.l2 - b.l2).toNat = a.l2.toNat + (2 ^ 52 - 2) - b.l2.toNat :=
    sub_toNat (by omega) rfl (by omega) (by decide)
  have s3 : (a.l3 + P2.l3 - b.l3).toNat = a.l3.toNat + (2 ^ 52 - 2) - b.l3.toNat :=
    sub_toNat (by omega) rfl (by omega) (by decide)
  have s4 : (a.l4 + P2.l4 - b.l4).toNat = a.l4.toNat + (2 ^ 52 - 2) - b.l4.toNat :=
    sub_toNat (by omega) rfl (by omega) (by decide)
  refine ⟨⟨?_, ?_, ?_, ?_, ?_⟩, ?_⟩ <;> simp only [fe25519Sub, s0, s1, s2, s3, s4]
  iterate 5 omega
  have numbers : value (fe25519Sub a b) + value b = value a + 2 * P := by
    simp only [value, fe25519Sub, s0, s1, s2, s3, s4, P]
    omega
  have cast := congrArg (Nat.cast (R := ZMod P)) numbers
  rw [Nat.cast_add, Nat.cast_add, Nat.cast_mul, ZMod.natCast_self, mul_zero, add_zero] at cast
  exact eq_sub_of_add_eq cast

/-! Carries. -/

theorem carry_toNat {x y : BitVec 64} (small : x.toNat < 2 ^ 63) :
    (x + y >>> 51).toNat = x.toNat + y.toNat / 2 ^ 51 := by
  have bound := y.isLt
  rw [add_toNat, shift_toNat]
  rw [shift_toNat]
  omega

/-- One pass, limb by limb: `c0` to `c4` are the carries. -/
theorem carryPass_limbs {a : Fe25519} (l1 : a.l1.toNat < 2 ^ 63) (l2 : a.l2.toNat < 2 ^ 63)
    (l3 : a.l3.toNat < 2 ^ 63) (l4 : a.l4.toNat < 2 ^ 63) :
    ∃ r c0 c1 c2 c3 c4, a.l0.toNat = r + 2 ^ 51 * c0 ∧ a.l1.toNat + c0 = (carryPass a).l1.toNat + 2 ^ 51 * c1 ∧
      a.l2.toNat + c1 = (carryPass a).l2.toNat + 2 ^ 51 * c2 ∧ a.l3.toNat + c2 = (carryPass a).l3.toNat + 2 ^ 51 * c3 ∧
      a.l4.toNat + c3 = (carryPass a).l4.toNat + 2 ^ 51 * c4 ∧ (carryPass a).l0.toNat = r + 19 * c4 ∧ r < 2 ^ 51 ∧
      (carryPass a).l1.toNat < 2 ^ 51 ∧ (carryPass a).l2.toNat < 2 ^ 51 ∧ (carryPass a).l3.toNat < 2 ^ 51 ∧
      (carryPass a).l4.toNat < 2 ^ 51 := by
  have s1 := carry_toNat (y := a.l0) l1
  have s2 := carry_toNat (y := a.l1 + a.l0 >>> 51) l2
  have s3 := carry_toNat (y := a.l2 + (a.l1 + a.l0 >>> 51) >>> 51) l3
  have s4 := carry_toNat (y := a.l3 + (a.l2 + (a.l1 + a.l0 >>> 51) >>> 51) >>> 51) l4
  have around : ((a.l0 &&& MASK51) + (a.l4 + (a.l3 + (a.l2 + (a.l1 + a.l0 >>> 51) >>> 51) >>> 51) >>> 51) >>> 51 * 19).toNat =
      a.l0.toNat % 2 ^ 51 + (a.l4 + (a.l3 + (a.l2 + (a.l1 + a.l0 >>> 51) >>> 51) >>> 51) >>> 51).toNat / 2 ^ 51 * 19 := by
    rw [BitVec.toNat_add, BitVec.toNat_mul, mask_toNat, shift_toNat, show (19 : BitVec 64).toNat = 19 from rfl]
    omega
  refine ⟨a.l0.toNat % 2 ^ 51, a.l0.toNat / 2 ^ 51, (a.l1 + a.l0 >>> 51).toNat / 2 ^ 51,
    (a.l2 + (a.l1 + a.l0 >>> 51) >>> 51).toNat / 2 ^ 51,
    (a.l3 + (a.l2 + (a.l1 + a.l0 >>> 51) >>> 51) >>> 51).toNat / 2 ^ 51,
    (a.l4 + (a.l3 + (a.l2 + (a.l1 + a.l0 >>> 51) >>> 51) >>> 51) >>> 51).toNat / 2 ^ 51, ?_⟩
  simp only [carryPass, mask_toNat, around]
  omega

/-- The number changes by a multiple of p, and the limbs get small. -/
theorem carryPass_value {a : Fe25519} (l1 : a.l1.toNat < 2 ^ 63) (l2 : a.l2.toNat < 2 ^ 63)
    (l3 : a.l3.toNat < 2 ^ 63) (l4 : a.l4.toNat < 2 ^ 63) :
    ∃ c, value (carryPass a) + c * 2 ^ 255 = value a + c * 19 ∧ Within 1 (carryPass a) := by
  have bound := a.l0.isLt
  obtain ⟨r, c0, c1, c2, c3, c4, carries⟩ := carryPass_limbs l1 l2 l3 l4
  refine ⟨c4, by simp only [value]; omega, ?_⟩
  constructor <;> omega

theorem carryPass_normalized {a : Fe25519} (l1 : a.l1.toNat < 2 ^ 51) (l2 : a.l2.toNat < 2 ^ 51)
    (l3 : a.l3.toNat < 2 ^ 51) (l4 : a.l4.toNat < 2 ^ 51) : Normalized (carryPass a) := by
  have bound := a.l0.isLt
  obtain ⟨r, c0, c1, c2, c3, c4, carries⟩ := @carryPass_limbs a (by omega) (by omega) (by omega) (by omega)
  constructor <;> omega

/-- Wrapping around at 2^255 times 19 is no change modulo p. -/
theorem cast_wrapped {m n c : ℕ} (wrapped : m + c * 2 ^ 255 = n + c * 19) : (m : ZMod P) = n := by
  have cast := congrArg (Nat.cast (R := ZMod P)) wrapped
  rw [Nat.cast_add, Nat.cast_add, Nat.cast_mul, Nat.cast_mul, Nat.cast_pow, Nat.cast_ofNat, Nat.cast_ofNat,
    two_pow_255] at cast
  exact add_right_cancel cast

def columnsValue (t : Columns) : ℕ :=
  t.t0.toNat + 2 ^ 51 * t.t1.toNat + 2 ^ 102 * t.t2.toNat + 2 ^ 153 * t.t3.toNat + 2 ^ 204 * t.t4.toNat

/-- Columns that the carries do not overflow. -/
structure Bounded (t : Columns) : Prop where
  t0 : t.t0.toNat < 2 ^ 120
  t1 : t.t1.toNat < 2 ^ 120
  t2 : t.t2.toNat < 2 ^ 120
  t3 : t.t3.toNat < 2 ^ 120
  t4 : t.t4.toNat < 6 * 2 ^ 108

theorem lowLimb_toNat (v : BitVec 128) : (lowLimb v).toNat = v.toNat % 2 ^ 51 := by
  rw [lowLimb, BitVec.toNat_setWidth, BitVec.toNat_and, show (MASK51.setWidth 128).toNat = 2 ^ 51 - 1 from rfl,
    Nat.and_two_pow_sub_one_eq_mod]
  omega

theorem carryWide_toNat {x y : BitVec 128} (small : x.toNat < 2 ^ 127) :
    (x + y >>> 51).toNat = x.toNat + y.toNat / 2 ^ 51 := by
  have bound := y.isLt
  rw [BitVec.toNat_add, BitVec.toNat_ushiftRight, Nat.shiftRight_eq_div_pow]
  omega

theorem lowLimb_lt (v : BitVec 128) : (lowLimb v).toNat < 2 ^ 51 := by
  rw [lowLimb_toNat]
  exact Nat.mod_lt _ (by decide)

/-- The columns with the carries into them. -/
theorem Bounded.carried {t : Columns} (bounded : Bounded t) :
    let v1 := t.t1 + t.t0 >>> 51
    let v2 := t.t2 + v1 >>> 51
    let v3 := t.t3 + v2 >>> 51
    let v4 := t.t4 + v3 >>> 51
    v1.toNat = t.t1.toNat + t.t0.toNat / 2 ^ 51 ∧ v2.toNat = t.t2.toNat + v1.toNat / 2 ^ 51 ∧
      v3.toNat = t.t3.toNat + v2.toNat / 2 ^ 51 ∧ v4.toNat = t.t4.toNat + v3.toNat / 2 ^ 51 := by
  obtain ⟨b0, b1, b2, b3, b4⟩ := bounded
  exact ⟨carryWide_toNat (by omega), carryWide_toNat (by omega), carryWide_toNat (by omega), carryWide_toNat (by omega)⟩

/-- Whatever is in the columns. -/
theorem carryColumns_normalized (t : Columns) : Normalized (carryColumns t) :=
  carryPass_normalized (lowLimb_lt _) (lowLimb_lt _) (lowLimb_lt _) (lowLimb_lt _)

theorem carryColumns_value {t : Columns} (bounded : Bounded t) : (value (carryColumns t) : ZMod P) = columnsValue t := by
  obtain ⟨s1, s2, s3, s4⟩ := bounded.carried
  obtain ⟨b0, b1, b2, b3, b4⟩ := bounded
  generalize v4 : t.t4 + (t.t3 + (t.t2 + (t.t1 + t.t0 >>> 51) >>> 51) >>> 51) >>> 51 = last at s4
  generalize v3 : t.t3 + (t.t2 + (t.t1 + t.t0 >>> 51) >>> 51) >>> 51 = third at *
  generalize v2 : t.t2 + (t.t1 + t.t0 >>> 51) >>> 51 = second at *
  generalize v1 : t.t1 + t.t0 >>> 51 = first at *
  have carried : (lowLimb t.t0 + ((last >>> 51) * 19).setWidth 64).toNat = t.t0.toNat % 2 ^ 51 + last.toNat / 2 ^ 51 * 19 := by
    rw [BitVec.toNat_add, lowLimb_toNat, BitVec.toNat_setWidth, BitVec.toNat_mul, BitVec.toNat_ushiftRight,
      Nat.shiftRight_eq_div_pow, show (19 : BitVec 128).toNat = 19 from rfl]
    omega
  have limbs : carryColumns t = carryPass ⟨lowLimb t.t0 + ((last >>> 51) * 19).setWidth 64, lowLimb first,
      lowLimb second, lowLimb third, lowLimb last⟩ := by
    simp only [carryColumns, v1, v2, v3, v4]
  have small (v : BitVec 128) : (lowLimb v).toNat < 2 ^ 63 := Nat.lt_trans (lowLimb_lt v) (by decide)
  obtain ⟨c, passed, -⟩ := @carryPass_value ⟨lowLimb t.t0 + ((last >>> 51) * 19).setWidth 64, lowLimb first, lowLimb second,
    lowLimb third, lowLimb last⟩ (small _) (small _) (small _) (small _)
  rw [limbs, cast_wrapped passed]
  apply cast_wrapped (c := last.toNat / 2 ^ 51)
  simp only [value, columnsValue, carried, lowLimb_toNat]
  omega

/-! Products. -/

theorem mulWide_toNat (a b : BitVec 64) : (mulWide a b).toNat = a.toNat * b.toNat := by
  have small : a.toNat * b.toNat < 2 ^ 128 := by
    calc a.toNat * b.toNat < 2 ^ 64 * 2 ^ 64 := Nat.mul_lt_mul'' a.isLt b.isLt
      _ = 2 ^ 128 := by decide
  have first := a.isLt
  have second := b.isLt
  rw [mulWide, BitVec.toNat_mul, BitVec.toNat_setWidth, BitVec.toNat_setWidth,
    Nat.mod_eq_of_lt (show a.toNat < 2 ^ 128 by omega), Nat.mod_eq_of_lt (show b.toNat < 2 ^ 128 by omega),
    Nat.mod_eq_of_lt small]

/-- The columns as numbers, products below 2^108 leaving room for their sums. -/
structure Products (a b : Fe25519) (t : Columns) : Prop where
  t0 : t.t0.toNat = a.l0.toNat * b.l0.toNat + (a.l1.toNat * b.l4.toNat + a.l2.toNat * b.l3.toNat +
    a.l3.toNat * b.l2.toNat + a.l4.toNat * b.l1.toNat) * 19
  t1 : t.t1.toNat = a.l0.toNat * b.l1.toNat + a.l1.toNat * b.l0.toNat + (a.l2.toNat * b.l4.toNat +
    a.l3.toNat * b.l3.toNat + a.l4.toNat * b.l2.toNat) * 19
  t2 : t.t2.toNat = a.l0.toNat * b.l2.toNat + a.l1.toNat * b.l1.toNat + a.l2.toNat * b.l0.toNat +
    (a.l3.toNat * b.l4.toNat + a.l4.toNat * b.l3.toNat) * 19
  t3 : t.t3.toNat = a.l0.toNat * b.l3.toNat + a.l1.toNat * b.l2.toNat + a.l2.toNat * b.l1.toNat +
    a.l3.toNat * b.l0.toNat + a.l4.toNat * b.l4.toNat * 19
  t4 : t.t4.toNat = a.l0.toNat * b.l4.toNat + a.l1.toNat * b.l3.toNat + a.l2.toNat * b.l2.toNat +
    a.l3.toNat * b.l1.toNat + a.l4.toNat * b.l0.toNat

theorem Below.limbs {bound : ℕ} {a : Fe25519} (below : Below bound a) :
    ∀ l ∈ [a.l0, a.l1, a.l2, a.l3, a.l4], l.toNat < bound := by
  obtain ⟨l0, l1, l2, l3, l4⟩ := below
  simp only [List.forall_mem_cons, List.not_mem_nil, false_imp_iff, implies_true, and_true]
  exact ⟨l0, l1, l2, l3, l4⟩

/-- The 25 products of limbs. -/
theorem limb_products {a b : Fe25519} (first : Below (2 ^ 54) a) (second : Below (2 ^ 54) b) :
    ∀ m ∈ [a.l0, a.l1, a.l2, a.l3, a.l4], ∀ n ∈ [b.l0, b.l1, b.l2, b.l3, b.l4], m.toNat * n.toNat < 2 ^ 108 := by
  intro m left n right
  calc m.toNat * n.toNat < 2 ^ 54 * 2 ^ 54 := Nat.mul_lt_mul'' (first.limbs m left) (second.limbs n right)
    _ = 2 ^ 108 := by decide

theorem products_spec {a b : Fe25519} (first : Below (2 ^ 54) a) (second : Below (2 ^ 54) b) :
    Products a b (products a b) ∧ Bounded (products a b) := by
  have small := limb_products first second
  simp only [List.forall_mem_cons, List.not_mem_nil, false_imp_iff, implies_true, and_true] at small
  have columns : Products a b (products a b) := by
    constructor <;> simp only [products, BitVec.toNat_add, BitVec.toNat_mul, mulWide_toNat,
      show (19 : BitVec 128).toNat = 19 from rfl] <;> omega
  refine ⟨columns, ?_⟩
  obtain ⟨t0, t1, t2, t3, t4⟩ := columns
  constructor <;> omega

/-- The columns `t[5]` to `t[8]`, at the places they are folded to. -/
def highColumns (a b : Fe25519) : ℕ :=
  (a.l1.toNat * b.l4.toNat + a.l2.toNat * b.l3.toNat + a.l3.toNat * b.l2.toNat + a.l4.toNat * b.l1.toNat) +
    2 ^ 51 * (a.l2.toNat * b.l4.toNat + a.l3.toNat * b.l3.toNat + a.l4.toNat * b.l2.toNat) +
    2 ^ 102 * (a.l3.toNat * b.l4.toNat + a.l4.toNat * b.l3.toNat) + 2 ^ 153 * (a.l4.toNat * b.l4.toNat)

theorem mul_value {a b : Fe25519} (first : Below (2 ^ 54) a) (second : Below (2 ^ 54) b) :
    (value (fe25519Mul a b) : ZMod P) = value a * value b := by
  obtain ⟨⟨t0, t1, t2, t3, t4⟩, bounded⟩ := products_spec first second
  have wrapped : columnsValue (products a b) + highColumns a b * 2 ^ 255 =
      value a * value b + highColumns a b * 19 := by
    simp only [columnsValue, highColumns, value, t0, t1, t2, t3, t4]
    ring
  rw [fe25519Mul, carryColumns_value bounded, cast_wrapped wrapped, Nat.cast_mul]

theorem rep_mul {a b : Fe25519} {x y : ZMod P} (first : Rep 4 a x) (second : Rep 4 b y) :
    Rep 1 (fe25519Mul a b) (x * y) := by
  refine ⟨(carryColumns_normalized _).within, ?_⟩
  rw [mul_value first.within.below second.within.below, first.denotes, second.denotes]

theorem rep_sq {a : Fe25519} {x : ZMod P} (rep : Rep 4 a x) : Rep 1 (fe25519Sq a) (x * x) := rep_mul rep rep

/-- `(u128)a[i] * 121666` -/
def scaledColumns (a : Fe25519) : Columns :=
  ⟨mulWide a.l0 121666, mulWide a.l1 121666, mulWide a.l2 121666, mulWide a.l3 121666, mulWide a.l4 121666⟩

theorem scaledColumns_bounded {a : Fe25519} (below : Below (2 ^ 54) a) : Bounded (scaledColumns a) := by
  obtain ⟨l0, l1, l2, l3, l4⟩ := below
  have constant : (121666 : BitVec 64).toNat = 121666 := rfl
  constructor <;> simp only [scaledColumns, mulWide_toNat, constant] <;> omega

theorem mul121666_value {a : Fe25519} (below : Below (2 ^ 54) a) :
    (value (fe25519Mul121666 a) : ZMod P) = value a * 121666 := by
  have constant : (121666 : BitVec 64).toNat = 121666 := rfl
  have carried := carryColumns_value (scaledColumns_bounded below)
  rw [fe25519Mul121666]
  rw [scaledColumns] at carried
  rw [carried]
  simp only [columnsValue, value, mulWide_toNat, constant]
  push_cast
  ring

theorem rep_mul121666 {a : Fe25519} {x : ZMod P} (rep : Rep 4 a x) : Rep 1 (fe25519Mul121666 a) (x * 121666) := by
  refine ⟨(carryColumns_normalized _).within, ?_⟩
  rw [mul121666_value rep.within.below, rep.denotes]

/-! Constants, exchanges and powers. -/

theorem rep_small {v : BitVec 64} (small : v.toNat ≤ 2 ^ 52 - 38) : Rep 1 ⟨v, 0, 0, 0, 0⟩ (v.toNat : ZMod P) := by
  refine ⟨⟨by omega, ?_, ?_, ?_, ?_⟩, ?_⟩
  iterate 4 exact Nat.zero_le _
  simp [value]

theorem rep_zero : Rep 1 fe25519SetZero 0 := by
  have zero := rep_small (v := 0) (by decide)
  rwa [show ((0 : BitVec 64).toNat : ZMod P) = 0 from Nat.cast_zero] at zero

theorem rep_one : Rep 1 fe25519SetOne 1 := by
  have one := rep_small (v := 1) (by decide)
  rwa [show ((1 : BitVec 64).toNat : ZMod P) = 1 from Nat.cast_one] at one

theorem fe25519Cswap_eq (a b : Fe25519) (swap : ℕ) :
    fe25519Cswap a b swap = if swap ≠ 0 then (b, a) else (a, b) := by
  have exchange (x y : BitVec 64) : x ^^^ (x ^^^ y) = y := by
    rw [← BitVec.xor_assoc, BitVec.xor_self, BitVec.zero_xor]
  have ones : (0 - 1 : BitVec 64) = BitVec.allOnes 64 := by decide
  rw [fe25519Cswap]
  split
  · simp only [ones, BitVec.allOnes_and, exchange]
    simp only [BitVec.xor_comm a.l0, BitVec.xor_comm a.l1, BitVec.xor_comm a.l2, BitVec.xor_comm a.l3,
      BitVec.xor_comm a.l4, exchange]
  · simp

theorem normalized_one : Normalized fe25519SetOne := by
  constructor <;> decide

/-- Every round leaves limbs that the next one can take. -/
theorem pow_value {a : Fe25519} (below : Below (2 ^ 54) a) (e : List UInt8) :
    Normalized (fe25519Pow a e) ∧ (value (fe25519Pow a e) : ZMod P) = (value a : ZMod P) ^ (leNat e % 2 ^ 256) := by
  apply bitsDown_holds (fun sofar r => Normalized r ∧ (value r : ZMod P) = (value a : ZMod P) ^ sofar) (leNat e)
  · intro sofar r bit ⟨normalized, power⟩
    have squared : (value (fe25519Sq r) : ZMod P) = (value a : ZMod P) ^ (2 * sofar) := by
      rw [fe25519Sq, mul_value normalized.below normalized.below, power, two_mul, pow_add]
    rw [← bitAt_eq]
    rcases Nat.mod_two_eq_zero_or_one ((e.getD (bit / 8) 0).toNat >>> (bit % 8)) with even | odd
    · rw [bitAt, even, if_neg (by decide)]
      exact ⟨carryColumns_normalized _, squared⟩
    · rw [bitAt, odd, if_pos (by decide), pow_succ, ← squared]
      exact ⟨carryColumns_normalized _, mul_value (carryColumns_normalized _).below below⟩
  · refine ⟨normalized_one, ?_⟩
    rw [pow_zero]
    exact rep_one.denotes

theorem rep_pow {a : Fe25519} {x : ZMod P} (rep : Rep 4 a x) (e : List UInt8) :
    Rep 1 (fe25519Pow a e) (x ^ (leNat e % 2 ^ 256)) := by
  obtain ⟨normalized, power⟩ := pow_value rep.within.below e
  rw [rep.denotes] at power
  exact ⟨normalized.within, power⟩

/-- Fermat: this power is the inverse, and 0 for 0. -/
theorem pow_P_sub_two (x : ZMod P) : x ^ (P - 2) = x⁻¹ := by
  have positive : P - 2 ≠ 0 := by decide
  by_cases zero : x = 0
  · rw [zero, zero_pow positive, inv_zero]
  have one := ZMod.pow_card_sub_one_eq_one zero
  rw [show P - 1 = P - 2 + 1 by decide, pow_succ] at one
  exact eq_inv_of_mul_eq_one_left one

theorem invert_value {a : Fe25519} (below : Below (2 ^ 54) a) :
    Normalized (fe25519Invert a) ∧ (value (fe25519Invert a) : ZMod P) = (value a : ZMod P)⁻¹ := by
  have power := pow_value below FE25519_P_MINUS_2
  rw [show leNat FE25519_P_MINUS_2 % 2 ^ 256 = P - 2 by decide, pow_P_sub_two] at power
  exact power

theorem rep_invert {a : Fe25519} {x : ZMod P} (rep : Rep 4 a x) : Rep 1 (fe25519Invert a) x⁻¹ := by
  obtain ⟨normalized, inverse⟩ := invert_value rep.within.below
  rw [rep.denotes] at inverse
  exact ⟨normalized.within, inverse⟩

end Coalesce.FieldArithmetic
