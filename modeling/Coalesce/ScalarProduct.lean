import Coalesce.Scalar25519

/-! `a * b + c` modulo L on bytes: rows of products with their carries. -/

namespace Coalesce.ScalarProduct
open Library.ByteNumber Scalar25519 Primes25519

/-- What is in the bytes and the carry together, the carry standing before byte `k`. -/
def total (s : Carrying) (k : ℕ) : ℕ := leNat s.prod + s.carry.toNat * 256 ^ k

theorem total_no_carry (prod : List UInt8) (k : ℕ) : total ⟨prod, 0⟩ k = leNat prod := by simp [total]

theorem addByte_value {s : Carrying} {k : ℕ} {addend : BitVec 32} (inside : k < s.prod.length)
    (small : addend.toNat ≤ 255 * 255) (carry : s.carry.toNat ≤ 255) :
    total (addByte s k addend) (k + 1) = total s k + addend.toNat * 256 ^ k ∧
      (addByte s k addend).carry.toNat ≤ 255 ∧ (addByte s k addend).prod.length = s.prod.length := by
  have byte := UInt8.toNat_lt (s.prod.getD k 0)
  have sum : ((s.prod.getD k 0).toBitVec.setWidth 32 + addend + s.carry).toNat =
      (s.prod.getD k 0).toNat + addend.toNat + s.carry.toNat := by
    rw [BitVec.toNat_add, BitVec.toNat_add, BitVec.toNat_setWidth, UInt8.toNat_toBitVec]
    omega
  generalize sum_eq : (s.prod.getD k 0).toBitVec.setWidth 32 + addend + s.carry = v at sum
  have high : (v >>> 8).toNat = v.toNat / 256 := by rw [BitVec.toNat_ushiftRight, Nat.shiftRight_eq_div_pow]
  have low : (UInt8.ofBitVec ((v &&& 0xFF).setWidth 8)).toNat = v.toNat % 256 := by
    rw [UInt8.toNat_ofBitVec, BitVec.toNat_setWidth, BitVec.toNat_and, show (0xFF : BitVec 32).toNat = 2 ^ 8 - 1 from rfl,
      Nat.and_two_pow_sub_one_eq_mod]
    omega
  have stored := leNat_set inside (UInt8.ofBitVec ((v &&& 0xFF).setWidth 8))
  rw [low] at stored
  simp only [addByte, sum_eq, total, high, List.length_set, and_true]
  refine ⟨?_, by omega⟩
  have parts : 256 ^ k * v.toNat = 256 ^ k * (v.toNat % 256) + v.toNat / 256 * 256 ^ (k + 1) := by
    conv_lhs => rw [← Nat.mod_add_div v.toNat 256]
    ring
  have split : 256 ^ k * v.toNat = 256 ^ k * (s.prod.getD k 0).toNat + addend.toNat * 256 ^ k + s.carry.toNat * 256 ^ k := by
    rw [sum]
    ring
  omega

theorem addBytes_value {addend : ℕ → BitVec 32} {factor : ℕ} {bytes : List UInt8}
    (addends : ∀ j, (addend j).toNat = factor * (bytes.getD j 0).toNat) (byte : factor ≤ 255) {s : Carrying}
    (carry : s.carry.toNat ≤ 255) {start count : ℕ} (inside : start + count ≤ s.prod.length)
    (present : count ≤ bytes.length) :
    total (addBytes addend start s count) (start + count) =
        total s start + factor * leNat (bytes.take count) * 256 ^ start ∧
      (addBytes addend start s count).carry.toNat ≤ 255 ∧
      (addBytes addend start s count).prod.length = s.prod.length := by
  induction count with
  | zero => simpa [addBytes] using carry
  | succ count ih =>
    obtain ⟨value, small, length⟩ := ih (by omega) (by omega)
    have bound := UInt8.toNat_lt (bytes.getD count 0)
    have limited : (addend count).toNat ≤ 255 * 255 := by
      rw [addends]
      exact Nat.mul_le_mul byte (by omega)
    obtain ⟨value', small', length'⟩ :=
      @addByte_value (addBytes addend start s count) (start + count) (addend count) (by omega) limited small
    refine ⟨?_, small', length'.trans length⟩
    rw [addBytes, ← Nat.add_assoc, value', value, addends, leNat_take_succ (by omega)]
    ring

theorem ripple_value {s : Carrying} (carry : s.carry.toNat ≤ 255) {k rounds : ℕ} (last : k + rounds = s.prod.length) :
    total (ripple s k rounds) s.prod.length = total s k ∧ (ripple s k rounds).prod.length = s.prod.length := by
  induction rounds generalizing s k with
  | zero =>
    obtain rfl : k = s.prod.length := by omega
    exact ⟨rfl, rfl⟩
  | succ rounds ih =>
    unfold ripple
    split
    · obtain ⟨value, small, length⟩ := @addByte_value s k 0 (by omega) (by decide) carry
      obtain ⟨rest, same⟩ := ih small (k := k + 1) (by omega)
      rw [length] at rest same
      rw [rest, value]
      exact ⟨by simp, same⟩
    · next zero =>
      rw [not_not] at zero
      exact ⟨by simp [total, zero], rfl⟩

/-- The carry has run out when the number fits. -/
theorem ripple_fits {s : Carrying} (carry : s.carry.toNat ≤ 255) {k rounds : ℕ} (last : k + rounds = s.prod.length)
    (fits : total s k < 256 ^ s.prod.length) : leNat (ripple s k rounds).prod = total s k := by
  have value := (ripple_value carry last).1
  rw [total] at value
  rcases Nat.eq_zero_or_pos (ripple s k rounds).carry.toNat with zero | positive
  · rw [← value, zero, Nat.zero_mul, Nat.add_zero]
  · have excess : 1 * 256 ^ s.prod.length ≤ (ripple s k rounds).carry.toNat * 256 ^ s.prod.length :=
      Nat.mul_le_mul_right _ positive
    omega

theorem byteWord_toNat (bytes : List UInt8) (j : ℕ) : (byteWord bytes j).toNat = (bytes.getD j 0).toNat := by
  have byte := UInt8.toNat_lt (bytes.getD j 0)
  rw [byteWord, BitVec.toNat_setWidth, UInt8.toNat_toBitVec, Nat.mod_eq_of_lt (by omega)]

theorem product_toNat (a b : List UInt8) (i j : ℕ) :
    (byteWord a i * byteWord b j).toNat = (a.getD i 0).toNat * (b.getD j 0).toNat := by
  have first := UInt8.toNat_lt (a.getD i 0)
  have second := UInt8.toNat_lt (b.getD j 0)
  have small : (a.getD i 0).toNat * (b.getD j 0).toNat < 2 ^ 8 * 2 ^ 8 := Nat.mul_lt_mul'' first second
  rw [BitVec.toNat_mul, byteWord_toNat, byteWord_toNat, Nat.mod_eq_of_lt (by omega)]

section
variable {a b c prod : List UInt8}

theorem mulRow_value (b_length : b.length = 32) (prod_length : prod.length = 64) {i : ℕ} (row : i < 32)
    (fits : leNat prod + (a.getD i 0).toNat * leNat b * 256 ^ i < 256 ^ 64) :
    leNat (mulRow a b prod i) = leNat prod + (a.getD i 0).toNat * leNat b * 256 ^ i ∧
      (mulRow a b prod i).length = 64 := by
  have byte := UInt8.toNat_lt (a.getD i 0)
  obtain ⟨value, carry, length⟩ := @addBytes_value (fun j => byteWord a i * byteWord b j) _ b (product_toNat a b i)
    (by omega) ⟨prod, 0⟩ (Nat.zero_le _) i 32 (by rw [prod_length]; omega) (by omega)
  rw [List.take_of_length_le (by omega)] at value
  simp only [prod_length] at length
  rw [total_no_carry] at value
  have last : i + 32 + (64 - (i + 32)) =
      (addBytes (fun j => byteWord a i * byteWord b j) i ⟨prod, 0⟩ 32).prod.length := by omega
  refine ⟨?_, ?_⟩
  · rw [mulRow, ripple_fits carry last (by rw [length, value]; exact fits), value]
  · rw [mulRow, (ripple_value carry last).2, length]

theorem mulRows_value (a_length : a.length = 32) (b_length : b.length = 32) {count : ℕ} (rows : count ≤ 32) :
    leNat (mulRows a b (List.replicate 64 0) count) = leNat (a.take count) * leNat b ∧
      (mulRows a b (List.replicate 64 0) count).length = 64 := by
  induction count with
  | zero =>
    refine ⟨?_, List.length_replicate⟩
    rw [mulRows, List.take_zero, leNat_nil, Nat.zero_mul]
    decide
  | succ count ih =>
    obtain ⟨value, length⟩ := ih (by omega)
    have next : leNat (a.take count) * leNat b + (a.getD count 0).toNat * leNat b * 256 ^ count =
        leNat (a.take (count + 1)) * leNat b := by
      rw [leNat_take_succ (by omega)]
      ring
    have left := leNat_lt (a.take (count + 1))
    have right := leNat_lt b
    rw [List.length_take, Nat.min_eq_left (by omega)] at left
    rw [b_length] at right
    have fits : leNat (a.take (count + 1)) * leNat b < 256 ^ 64 := by
      calc _ < 256 ^ (count + 1) * 256 ^ 32 := Nat.mul_lt_mul'' left right
        _ ≤ 256 ^ 32 * 256 ^ 32 := Nat.mul_le_mul_right _ (Nat.pow_le_pow_right (by decide) rows)
        _ = 256 ^ 64 := by rw [← pow_add]
    obtain ⟨row, row_length⟩ := @mulRow_value a b _ b_length length count (by omega) (by rw [value, next]; exact fits)
    exact ⟨by rw [mulRows, row, value, next], row_length⟩

theorem scMuladd_eq (a_length : a.length = 32) (b_length : b.length = 32) (c_length : c.length = 32) :
    scMuladd a b c = leBytes 32 ((leNat a * leNat b + leNat c) % L) := by
  obtain ⟨value, length⟩ := mulRows_value a_length b_length (Nat.le_refl 32)
  rw [List.take_of_length_le (by omega)] at value
  have addends (j : ℕ) : (byteWord c j).toNat = 1 * (c.getD j 0).toNat := by rw [byteWord_toNat, Nat.one_mul]
  obtain ⟨sum, carry, sum_length⟩ := @addBytes_value (byteWord c) 1 c addends (by decide)
    ⟨mulRows a b (List.replicate 64 0) 32, 0⟩ (Nat.zero_le _) 0 32 (by rw [length]; omega) (by omega)
  simp only [length] at sum_length
  rw [total_no_carry, value, List.take_of_length_le (by omega), Nat.one_mul, pow_zero, Nat.mul_one, Nat.zero_add] at sum
  have fits : leNat a * leNat b + leNat c < 256 ^ 64 := by
    have a_bound := leNat_lt a
    have b_bound := leNat_lt b
    have c_bound := leNat_lt c
    rw [a_length] at a_bound
    rw [b_length] at b_bound
    rw [c_length] at c_bound
    have product : leNat a * leNat b ≤ (256 ^ 32 - 1) * (256 ^ 32 - 1) := Nat.mul_le_mul (by omega) (by omega)
    omega
  have last : 32 + 32 = (addBytes (byteWord c) 0 ⟨mulRows a b (List.replicate 64 0) 32, 0⟩ 32).prod.length := by
    rw [sum_length]
  rw [scMuladd, scReduceWide_eq ((ripple_value carry last).2.trans sum_length),
    ripple_fits carry last (by rw [sum_length, sum]; exact fits), sum]

end

/-- Scalars modulo L, exactly: the reduction of up to 64 bytes, product and sum of any 32 bytes,
and the comparison. -/
theorem scalar_arithmetic_exact :
    L = 2 ^ 252 + 27742317777372353535851937790883648493 ∧
      (∀ input : List UInt8, input.length ≤ 64 → scReduceWide input input.length = leBytes 32 (leNat input % L)) ∧
      (∀ a b c : Vector UInt8 32, scMuladd a.toList b.toList c.toList =
        leBytes 32 ((leNat a.toList * leNat b.toList + leNat c.toList) % L)) ∧
      ∀ s : Vector UInt8 32, scLtL s.toList = true ↔ leNat s.toList < L := by
  refine ⟨rfl, ?_, ?_, ?_⟩
  · intro input _
    exact scReduceWide_eq rfl
  · intro a b c
    exact scMuladd_eq Vector.length_toList Vector.length_toList Vector.length_toList
  · intro s
    rw [scLtL_eq Vector.length_toList, decide_eq_true_eq]

end Coalesce.ScalarProduct
