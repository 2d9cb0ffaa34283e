import Coalesce.FieldBytes
import Coalesce.Library.CheckedWord

/-! The arithmetic of fe25519.c once more, where every sum, product and conversion stops
the computation if it does not fit its type. Within the bounds on limbs nothing stops. -/

namespace Coalesce.CheckedField
open Library.CheckedWord Field25519 FieldArithmetic FieldBytes

def fe25519AddChecked (a b : Fe25519) : Option Fe25519 := do
  let l0 ← checkedAdd a.l0 b.l0
  let l1 ← checkedAdd a.l1 b.l1
  let l2 ← checkedAdd a.l2 b.l2
  let l3 ← checkedAdd a.l3 b.l3
  let l4 ← checkedAdd a.l4 b.l4
  some ⟨l0, l1, l2, l3, l4⟩

/-- `(a[i] + P2[i]) - b[i]`, where the sum has to cover `b[i]`. -/
def subLimb (x p y : BitVec 64) : Option (BitVec 64) := (checkedAdd x p).bind fun sum => checkedSub sum y

def fe25519SubChecked (a b : Fe25519) : Option Fe25519 := do
  let l0 ← subLimb a.l0 P2.l0 b.l0
  let l1 ← subLimb a.l1 P2.l1 b.l1
  let l2 ← subLimb a.l2 P2.l2 b.l2
  let l3 ← subLimb a.l3 P2.l3 b.l3
  let l4 ← subLimb a.l4 P2.l4 b.l4
  some ⟨l0, l1, l2, l3, l4⟩

/-- `times19` is what becomes of the last carry. -/
def carryPassChecked (times19 : BitVec 64 → Option (BitVec 64)) (a : Fe25519) : Option Fe25519 := do
  let l1 ← checkedAdd a.l1 (a.l0 >>> 51)
  let l2 ← checkedAdd a.l2 (l1 >>> 51)
  let l3 ← checkedAdd a.l3 (l2 >>> 51)
  let l4 ← checkedAdd a.l4 (l3 >>> 51)
  let c ← times19 (l4 >>> 51)
  let l0 ← checkedAdd (a.l0 &&& MASK51) c
  some ⟨l0, l1 &&& MASK51, l2 &&& MASK51, l3 &&& MASK51, l4 &&& MASK51⟩

/-- `(uint64_t)(c * 19)`, where `c` is a `u128`. -/
def narrow19 (c : BitVec 128) : Option (BitVec 64) := (checkedMul c 19).bind (checkedNarrow 64)

def carryColumnsChecked (t : Columns) : Option Fe25519 := do
  let v0 := t.t0
  let v1 ← checkedAdd t.t1 (v0 >>> 51)
  let v2 ← checkedAdd t.t2 (v1 >>> 51)
  let v3 ← checkedAdd t.t3 (v2 >>> 51)
  let v4 ← checkedAdd t.t4 (v3 >>> 51)
  let c ← narrow19 (v4 >>> 51)
  let l0 ← checkedAdd (lowLimb v0) c
  carryPassChecked (fun c => narrow19 (c.setWidth 128)) ⟨l0, lowLimb v1, lowLimb v2, lowLimb v3, lowLimb v4⟩

/-- `t[k]`, the sum of the `(u128)a[i] * (u128)b[j]`. -/
def columnChecked (pairs : List (BitVec 64 × BitVec 64)) : Option (BitVec 128) :=
  checkedSum 0 (pairs.map fun pair => (pair.1.setWidth 128, pair.2.setWidth 128))

/-- `t[i] += t[i + 5] * 19` -/
def foldDown (low high : BitVec 128) : Option (BitVec 128) := (checkedMul high 19).bind (checkedAdd low)

def productsChecked (a b : Fe25519) : Option Columns := do
  let t0 ← columnChecked [(a.l0, b.l0)]
  let t1 ← columnChecked [(a.l0, b.l1), (a.l1, b.l0)]
  let t2 ← columnChecked [(a.l0, b.l2), (a.l1, b.l1), (a.l2, b.l0)]
  let t3 ← columnChecked [(a.l0, b.l3), (a.l1, b.l2), (a.l2, b.l1), (a.l3, b.l0)]
  let t4 ← columnChecked [(a.l0, b.l4), (a.l1, b.l3), (a.l2, b.l2), (a.l3, b.l1), (a.l4, b.l0)]
  let t5 ← columnChecked [(a.l1, b.l4), (a.l2, b.l3), (a.l3, b.l2), (a.l4, b.l1)]
  let t6 ← columnChecked [(a.l2, b.l4), (a.l3, b.l3), (a.l4, b.l2)]
  let t7 ← columnChecked [(a.l3, b.l4), (a.l4, b.l3)]
  let t8 ← columnChecked [(a.l4, b.l4)]
  let t0 ← foldDown t0 t5
  let t1 ← foldDown t1 t6
  let t2 ← foldDown t2 t7
  let t3 ← foldDown t3 t8
  some ⟨t0, t1, t2, t3, t4⟩

def fe25519MulChecked (a b : Fe25519) : Option Fe25519 := (productsChecked a b).bind carryColumnsChecked

/-- `(u128)a[i] * 121666` -/
def scaledChecked (x : BitVec 64) : Option (BitVec 128) := checkedMul (x.setWidth 128) 121666

def scaledColumnsChecked (a : Fe25519) : Option Columns := do
  let t0 ← scaledChecked a.l0
  let t1 ← scaledChecked a.l1
  let t2 ← scaledChecked a.l2
  let t3 ← scaledChecked a.l3
  let t4 ← scaledChecked a.l4
  some ⟨t0, t1, t2, t3, t4⟩

def fe25519Mul121666Checked (a : Fe25519) : Option Fe25519 := (scaledColumnsChecked a).bind carryColumnsChecked

def plus19Checked (a : Fe25519) : Option (Fe25519 × BitVec 64) := do
  let l0 ← checkedAdd a.l0 19
  let l1 ← checkedAdd a.l1 (l0 >>> 51)
  let l2 ← checkedAdd a.l2 (l1 >>> 51)
  let l3 ← checkedAdd a.l3 (l2 >>> 51)
  let l4 ← checkedAdd a.l4 (l3 >>> 51)
  some (⟨l0 &&& MASK51, l1 &&& MASK51, l2 &&& MASK51, l3 &&& MASK51, l4 &&& MASK51⟩, l4 >>> 51)

/-- `c * 19`, where `c` is a `uint64_t`. -/
def word19 (c : BitVec 64) : Option (BitVec 64) := checkedMul c 19

def fe25519TobytesChecked (a : Fe25519) : Option (List UInt8) := do
  let once ← carryPassChecked word19 a
  let carried ← carryPassChecked word19 once
  let (t, c) ← plus19Checked carried
  some (packWords (select carried t c))

/-! Sums and differences. -/

theorem addChecked_eq {j k : ℕ} {a b : Fe25519} (first : Within j a) (second : Within k b) (room : j + k ≤ 4) :
    fe25519AddChecked a b = some (fe25519Add a b) := by
  obtain ⟨a0, a1, a2, a3, a4⟩ := first
  obtain ⟨b0, b1, b2, b3, b4⟩ := second
  have s0 : checkedAdd a.l0 b.l0 = some _ := checkedAdd_eq (by omega)
  have s1 : checkedAdd a.l1 b.l1 = some _ := checkedAdd_eq (by omega)
  have s2 : checkedAdd a.l2 b.l2 = some _ := checkedAdd_eq (by omega)
  have s3 : checkedAdd a.l3 b.l3 = some _ := checkedAdd_eq (by omega)
  have s4 : checkedAdd a.l4 b.l4 = some _ := checkedAdd_eq (by omega)
  rw [fe25519AddChecked, s0, s1, s2, s3, s4]
  rfl

theorem subLimb_eq {x p y : BitVec 64} {n : ℕ} (small : x.toNat < 2 ^ 63) (limb : p.toNat = n) (below : y.toNat ≤ n)
    (bound : n < 2 ^ 63) : subLimb x p y = some (x + p - y) := by
  subst limb
  have sum := add_toNat (x := x) (y := p) (by omega)
  rw [subLimb, checkedAdd_eq (by omega), Option.bind_some, checkedSub_eq (by omega)]

theorem subChecked_eq {k : ℕ} {a b : Fe25519} (first : Within k a) (second : Within 1 b) (room : k ≤ 3) :
    fe25519SubChecked a b = some (fe25519Sub a b) := by
  obtain ⟨a0, a1, a2, a3, a4⟩ := first
  obtain ⟨b0, b1, b2, b3, b4⟩ := second
  have s0 : subLimb a.l0 P2.l0 b.l0 = some _ :=
    subLimb_eq (by omega) (show P2.l0.toNat = 2 ^ 52 - 38 from rfl) (by omega) (by decide)
  have s1 : subLimb a.l1 P2.l1 b.l1 = some _ :=
    subLimb_eq (by omega) (show P2.l1.toNat = 2 ^ 52 - 2 from rfl) (by omega) (by decide)
  have s2 : subLimb a.l2 P2.l2 b.l2 = some _ :=
    subLimb_eq (by omega) (show P2.l2.toNat = 2 ^ 52 - 2 from rfl) (by omega) (by decide)
  have s3 : subLimb a.l3 P2.l3 b.l3 = some _ :=
    subLimb_eq (by omega) (show P2.l3.toNat = 2 ^ 52 - 2 from rfl) (by omega) (by decide)
  have s4 : subLimb a.l4 P2.l4 b.l4 = some _ :=
    subLimb_eq (by omega) (show P2.l4.toNat = 2 ^ 52 - 2 from rfl) (by omega) (by decide)
  rw [fe25519SubChecked, s0, s1, s2, s3, s4]
  rfl

/-! Carries. -/

/-- A carry into a limb that has room for it. -/
theorem checkedAdd_carry {x y : BitVec 64} (small : x.toNat < 2 ^ 63) : checkedAdd x (y >>> 51) = some (x + y >>> 51) := by
  have bound := y.isLt
  apply checkedAdd_eq
  rw [shift_toNat]
  omega

theorem times19_toNat (y : BitVec 64) : (y >>> 51 * 19).toNat = y.toNat / 2 ^ 51 * 19 := by
  have bound := y.isLt
  rw [BitVec.toNat_mul, shift_toNat, show (19 : BitVec 64).toNat = 19 from rfl, Nat.mod_eq_of_lt (by omega)]

theorem word19_eq (y : BitVec 64) : word19 (y >>> 51) = some (y >>> 51 * 19) := by
  have bound := y.isLt
  apply checkedMul_eq
  rw [shift_toNat, show (19 : BitVec 64).toNat = 19 from rfl]
  omega

/-- The product in the wide type is the one in the narrow type. -/
theorem narrow19_eq (y : BitVec 64) : narrow19 ((y >>> 51).setWidth 128) = some (y >>> 51 * 19) := by
  have bound := y.isLt
  have wide : ((y >>> 51).setWidth 128).toNat = y.toNat / 2 ^ 51 := by
    rw [BitVec.toNat_setWidth, shift_toNat, Nat.mod_eq_of_lt (by omega)]
  have product : ((y >>> 51).setWidth 128 * 19).toNat = y.toNat / 2 ^ 51 * 19 := by
    rw [BitVec.toNat_mul, wide, show (19 : BitVec 128).toNat = 19 from rfl, Nat.mod_eq_of_lt (by omega)]
  rw [narrow19, checkedMul_eq (by rw [wide, show (19 : BitVec 128).toNat = 19 from rfl]; omega), Option.bind_some,
    checkedNarrow_eq (by omega), Option.some.injEq]
  apply BitVec.eq_of_toNat_eq
  rw [BitVec.toNat_setWidth, product, times19_toNat, Nat.mod_eq_of_lt (by omega)]

theorem carryPassChecked_eq {times19 : BitVec 64 → Option (BitVec 64)} {a : Fe25519}
    (exact : ∀ y : BitVec 64, times19 (y >>> 51) = some (y >>> 51 * 19)) (l1 : a.l1.toNat < 2 ^ 63)
    (l2 : a.l2.toNat < 2 ^ 63) (l3 : a.l3.toNat < 2 ^ 63) (l4 : a.l4.toNat < 2 ^ 63) :
    carryPassChecked times19 a = some (carryPass a) := by
  have s1 := checkedAdd_carry (y := a.l0) l1
  have s2 := checkedAdd_carry (y := a.l1 + a.l0 >>> 51) l2
  have s3 := checkedAdd_carry (y := a.l2 + (a.l1 + a.l0 >>> 51) >>> 51) l3
  have s4 := checkedAdd_carry (y := a.l3 + (a.l2 + (a.l1 + a.l0 >>> 51) >>> 51) >>> 51) l4
  have last (y : BitVec 64) : checkedAdd (a.l0 &&& MASK51) (y >>> 51 * 19) = some ((a.l0 &&& MASK51) + y >>> 51 * 19) := by
    have bound := y.isLt
    apply checkedAdd_eq
    rw [mask_toNat, times19_toNat]
    omega
  rw [carryPassChecked]
  simp only [s1, s2, s3, s4, exact, last, Option.bind_eq_bind, Option.bind_some]
  rfl

theorem checkedAdd_carryWide {x y : BitVec 128} (small : x.toNat < 2 ^ 127) :
    checkedAdd x (y >>> 51) = some (x + y >>> 51) := by
  have bound := y.isLt
  apply checkedAdd_eq
  rw [BitVec.toNat_ushiftRight, Nat.shiftRight_eq_div_pow]
  omega

/-- No column overflows with the carry into it. -/
theorem carriesChecked_eq {t : Columns} (bounded : Bounded t) :
    let v1 := t.t1 + t.t0 >>> 51
    let v2 := t.t2 + v1 >>> 51
    let v3 := t.t3 + v2 >>> 51
    checkedAdd t.t1 (t.t0 >>> 51) = some v1 ∧ checkedAdd t.t2 (v1 >>> 51) = some v2 ∧
      checkedAdd t.t3 (v2 >>> 51) = some v3 ∧ checkedAdd t.t4 (v3 >>> 51) = some (t.t4 + v3 >>> 51) := by
  obtain ⟨b0, b1, b2, b3, b4⟩ := bounded
  exact ⟨checkedAdd_carryWide (by omega), checkedAdd_carryWide (by omega), checkedAdd_carryWide (by omega),
    checkedAdd_carryWide (by omega)⟩

theorem carryColumnsChecked_eq {t : Columns} (bounded : Bounded t) : carryColumnsChecked t = some (carryColumns t) := by
  obtain ⟨c1, c2, c3, c4⟩ := carriesChecked_eq bounded
  obtain ⟨s1, s2, s3, s4⟩ := bounded.carried
  obtain ⟨b0, b1, b2, b3, b4⟩ := bounded
  rw [carryColumnsChecked]
  simp only [c1, c2, c3, c4, Option.bind_eq_bind, Option.bind_some, carryColumns]
  generalize t.t4 + (t.t3 + (t.t2 + (t.t1 + t.t0 >>> 51) >>> 51) >>> 51) >>> 51 = last at s4 ⊢
  have shifted : (last >>> 51).toNat = last.toNat / 2 ^ 51 := by
    rw [BitVec.toNat_ushiftRight, Nat.shiftRight_eq_div_pow]
  have product : (last >>> 51 * 19).toNat = last.toNat / 2 ^ 51 * 19 := by
    rw [BitVec.toNat_mul, shifted, show (19 : BitVec 128).toNat = 19 from rfl]
    omega
  have narrow : narrow19 (last >>> 51) = some ((last >>> 51 * 19).setWidth 64) := by
    rw [narrow19, checkedMul_eq (by rw [shifted, show (19 : BitVec 128).toNat = 19 from rfl]; omega), Option.bind_some,
      checkedNarrow_eq (by omega)]
  have narrowed : ((last >>> 51 * 19).setWidth 64).toNat = last.toNat / 2 ^ 51 * 19 := by
    rw [BitVec.toNat_setWidth, product, Nat.mod_eq_of_lt (by omega)]
  have around : checkedAdd (lowLimb t.t0) ((last >>> 51 * 19).setWidth 64) = some (lowLimb t.t0 + (last >>> 51 * 19).setWidth 64) := by
    apply checkedAdd_eq
    rw [lowLimb_toNat, narrowed]
    omega
  rw [narrow, Option.bind_some, around, Option.bind_some]
  apply carryPassChecked_eq narrow19_eq <;> rw [lowLimb_toNat] <;> omega

/-! Products. -/

/-- At most five products of limbs have room in a column. -/
theorem columnChecked_eq {pairs : List (BitVec 64 × BitVec 64)} (small : ∀ pair ∈ pairs, pair.1.toNat * pair.2.toNat < 2 ^ 108)
    (few : pairs.length ≤ 5) :
    columnChecked pairs = some (pairs.foldl (fun t pair => t + mulWide pair.1 pair.2) 0) ∧
      (pairs.foldl (fun t pair => t + mulWide pair.1 pair.2) 0).toNat < 2 ^ 111 := by
  have wide (x : BitVec 64) : (x.setWidth 128).toNat = x.toNat := by
    rw [BitVec.toNat_setWidth, Nat.mod_eq_of_lt (Nat.lt_of_lt_of_le x.isLt (by decide))]
  have bounded : ∀ pair ∈ pairs.map fun pair => (pair.1.setWidth 128, pair.2.setWidth 128),
      pair.1.toNat * pair.2.toNat < 2 ^ 108 := by
    intro pair member
    obtain ⟨limbs, inside, rfl⟩ := List.mem_map.mp member
    rw [wide, wide]
    exact small limbs inside
  have zero : (0 : BitVec 128).toNat = 0 := rfl
  obtain ⟨sum, limit⟩ := @checkedSum_eq 128 (2 ^ 108) 0 _ bounded (by rw [List.length_map, zero]; omega)
  rw [List.foldl_map] at sum limit
  rw [List.length_map, zero] at limit
  exact ⟨sum, Nat.lt_of_le_of_lt limit (by omega)⟩

theorem foldDown_eq {low high : BitVec 128} (low_small : low.toNat < 2 ^ 111) (high_small : high.toNat < 2 ^ 111) :
    foldDown low high = some (low + high * 19) := by
  have product : (high * 19).toNat = high.toNat * 19 := by
    rw [BitVec.toNat_mul, show (19 : BitVec 128).toNat = 19 from rfl, Nat.mod_eq_of_lt (by omega)]
  rw [foldDown, checkedMul_eq (by rw [show (19 : BitVec 128).toNat = 19 from rfl]; omega), Option.bind_some,
    checkedAdd_eq (by omega)]

theorem columnChecked_limbs {a b : Fe25519} (first : Below (2 ^ 54) a) (second : Below (2 ^ 54) b)
    {pairs : List (BitVec 64 × BitVec 64)}
    (limbs : ∀ pair ∈ pairs, pair.1 ∈ [a.l0, a.l1, a.l2, a.l3, a.l4] ∧ pair.2 ∈ [b.l0, b.l1, b.l2, b.l3, b.l4])
    (few : pairs.length ≤ 5) :
    columnChecked pairs = some (pairs.foldl (fun t pair => t + mulWide pair.1 pair.2) 0) ∧
      (pairs.foldl (fun t pair => t + mulWide pair.1 pair.2) 0).toNat < 2 ^ 111 := by
  apply columnChecked_eq _ few
  intro pair member
  obtain ⟨left, right⟩ := limbs pair member
  exact limb_products first second pair.1 left pair.2 right

theorem productsChecked_eq {a b : Fe25519} (first : Below (2 ^ 54) a) (second : Below (2 ^ 54) b) :
    productsChecked a b = some (products a b) := by
  have column (pairs : List (BitVec 64 × BitVec 64)) := @columnChecked_limbs a b first second pairs
  have zero (x : BitVec 128) : 0 + x = x := BitVec.zero_add x
  obtain ⟨t0, b0⟩ := column [(a.l0, b.l0)] (by simp) (by simp)
  obtain ⟨t1, b1⟩ := column [(a.l0, b.l1), (a.l1, b.l0)] (by simp) (by simp)
  obtain ⟨t2, b2⟩ := column [(a.l0, b.l2), (a.l1, b.l1), (a.l2, b.l0)] (by simp) (by simp)
  obtain ⟨t3, b3⟩ := column [(a.l0, b.l3), (a.l1, b.l2), (a.l2, b.l1), (a.l3, b.l0)] (by simp) (by simp)
  obtain ⟨t4, -⟩ := column [(a.l0, b.l4), (a.l1, b.l3), (a.l2, b.l2), (a.l3, b.l1), (a.l4, b.l0)] (by simp) (by simp)
  obtain ⟨t5, b5⟩ := column [(a.l1, b.l4), (a.l2, b.l3), (a.l3, b.l2), (a.l4, b.l1)] (by simp) (by simp)
  obtain ⟨t6, b6⟩ := column [(a.l2, b.l4), (a.l3, b.l3), (a.l4, b.l2)] (by simp) (by simp)
  obtain ⟨t7, b7⟩ := column [(a.l3, b.l4), (a.l4, b.l3)] (by simp) (by simp)
  obtain ⟨t8, b8⟩ := column [(a.l4, b.l4)] (by simp) (by simp)
  rw [productsChecked, t0, t1, t2, t3, t4, t5, t6, t7, t8]
  simp only [Option.bind_eq_bind, Option.bind_some, foldDown_eq b0 b5, foldDown_eq b1 b6, foldDown_eq b2 b7,
    foldDown_eq b3 b8]
  simp only [List.foldl_cons, List.foldl_nil, zero, products]

theorem mulChecked_eq {a b : Fe25519} (first : Below (2 ^ 54) a) (second : Below (2 ^ 54) b) :
    fe25519MulChecked a b = some (fe25519Mul a b) := by
  rw [fe25519MulChecked, productsChecked_eq first second, Option.bind_some,
    carryColumnsChecked_eq (products_spec first second).2, fe25519Mul]

theorem scaledChecked_eq (x : BitVec 64) : scaledChecked x = some (mulWide x 121666) := by
  have bound := x.isLt
  have wide : (x.setWidth 128).toNat = x.toNat := by rw [BitVec.toNat_setWidth, Nat.mod_eq_of_lt (by omega)]
  rw [scaledChecked, checkedMul_eq (by rw [wide, show (121666 : BitVec 128).toNat = 121666 from rfl]; omega)]
  rfl

theorem mul121666Checked_eq {a : Fe25519} (below : Below (2 ^ 54) a) :
    fe25519Mul121666Checked a = some (fe25519Mul121666 a) := by
  have columns : scaledColumnsChecked a = some (scaledColumns a) := by
    simp only [scaledColumnsChecked, scaledChecked_eq, Option.bind_eq_bind, Option.bind_some, scaledColumns]
  rw [fe25519Mul121666Checked, columns, Option.bind_some, carryColumnsChecked_eq (scaledColumns_bounded below)]
  rfl

/-! Bytes. -/

theorem plus19Checked_eq {a : Fe25519} (reduced : Reduced a) : plus19Checked a = some (plus19 a) := by
  obtain ⟨b0, b1, b2, b3, b4⟩ := reduced
  have s0 : checkedAdd a.l0 19 = some (a.l0 + 19) :=
    checkedAdd_eq (by rw [show (19 : BitVec 64).toNat = 19 from rfl]; omega)
  have s1 := checkedAdd_carry (y := a.l0 + 19) (show a.l1.toNat < 2 ^ 63 by omega)
  have s2 := checkedAdd_carry (y := a.l1 + (a.l0 + 19) >>> 51) (show a.l2.toNat < 2 ^ 63 by omega)
  have s3 := checkedAdd_carry (y := a.l2 + (a.l1 + (a.l0 + 19) >>> 51) >>> 51) (show a.l3.toNat < 2 ^ 63 by omega)
  have s4 := checkedAdd_carry (y := a.l3 + (a.l2 + (a.l1 + (a.l0 + 19) >>> 51) >>> 51) >>> 51)
    (show a.l4.toNat < 2 ^ 63 by omega)
  rw [plus19Checked]
  simp only [s0, s1, s2, s3, s4, Option.bind_eq_bind, Option.bind_some, plus19]

theorem tobytesChecked_eq {a : Fe25519} (below : Below (2 ^ 63) a) : fe25519TobytesChecked a = some (fe25519Tobytes a) := by
  have pass {a : Fe25519} (below : Below (2 ^ 63) a) : carryPassChecked word19 a = some (carryPass a) :=
    carryPassChecked_eq word19_eq below.l1 below.l2 below.l3 below.l4
  have once := (carryPass_denotes below).2
  rw [fe25519TobytesChecked, pass below]
  simp only [Option.bind_eq_bind, Option.bind_some, pass once, plus19Checked_eq (carryPass_reduced below)]
  rfl

end Coalesce.CheckedField
