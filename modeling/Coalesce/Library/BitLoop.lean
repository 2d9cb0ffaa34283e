import Coalesce.Library.ByteNumber

/-! Loops that take the bits of a number from the highest one down: double-and-add,
square-and-multiply, shift-and-reduce. -/

namespace Coalesce.Library.BitLoop
open ByteNumber

variable {σ : Type}

/-- `for (bit = count - 1; bit >= 0; bit--) s = step(s, bit);` -/
def bitsDown (step : σ → ℕ → σ) : ℕ → σ → σ
  | 0, s => s
  | count + 1, s => bitsDown step count (step s count)

/-- The same loop, by the rounds done. -/
theorem bitsDown_eq_foldl (step : σ → ℕ → σ) (count : ℕ) (s : σ) :
    bitsDown step count s = (List.range count).foldl (fun s i => step s (count - 1 - i)) s := by
  induction count generalizing s with
  | zero => rfl
  | succ count ih =>
    rw [bitsDown, ih, List.range_succ_eq_map, List.foldl_cons, List.foldl_map]
    congr 1
    funext t i
    rw [Nat.succ_eq_add_one, show count + 1 - 1 - (i + 1) = count - 1 - i by omega]

/-- Two loops side by side. -/
theorem bitsDown_related {τ : Type} {step : σ → ℕ → σ} {step' : τ → ℕ → τ} (related : σ → τ → Prop)
    (round : ∀ s t bit, related s t → related (step s bit) (step' t bit)) (count : ℕ) {s : σ} {t : τ}
    (start : related s t) : related (bitsDown step count s) (bitsDown step' count t) := by
  induction count generalizing s t with
  | zero => exact start
  | succ count ih => exact ih (round s t count start)

section
variable {step : σ → ℕ → σ} (holds : ℕ → σ → Prop) (number : ℕ)

theorem bitsDown_holds_from
    (round : ∀ sofar s bit, holds sofar s → holds (2 * sofar + number / 2 ^ bit % 2) (step s bit))
    (count : ℕ) {sofar : ℕ} {s : σ} (start : holds sofar s) :
    holds (sofar * 2 ^ count + number % 2 ^ count) (bitsDown step count s) := by
  induction count generalizing sofar s with
  | zero => simpa [bitsDown, Nat.mod_one] using start
  | succ count ih =>
    have rest := ih (round sofar s count start)
    have bits : number % 2 ^ (count + 1) = number / 2 ^ count % 2 * 2 ^ count + number % 2 ^ count := by
      rw [pow_succ, Nat.mod_mul, Nat.mul_comm, Nat.add_comm]
    have joined : (2 * sofar + number / 2 ^ count % 2) * 2 ^ count + number % 2 ^ count =
        sofar * 2 ^ (count + 1) + number % 2 ^ (count + 1) := by
      rw [bits]
      ring
    rwa [joined] at rest

/-- What holds of the number read so far when every round doubles it and adds its bit
holds in the end of the `count` low bits. -/
theorem bitsDown_holds
    (round : ∀ sofar s bit, holds sofar s → holds (2 * sofar + number / 2 ^ bit % 2) (step s bit))
    (count : ℕ) {s : σ} (start : holds 0 s) : holds (number % 2 ^ count) (bitsDown step count s) := by
  have loop := bitsDown_holds_from holds number round count start
  rwa [Nat.zero_mul, Nat.zero_add] at loop

end

/-- `(bytes[bit / 8] >> (bit & 7)) & 1` -/
def bitAt (bytes : List UInt8) (bit : ℕ) : ℕ := ((bytes.getD (bit / 8) 0).toNat >>> (bit % 8)) % 2

theorem bitAt_eq (bytes : List UInt8) (bit : ℕ) : bitAt bytes bit = leNat bytes / 2 ^ bit % 2 := by
  have position : 2 ^ bit = 256 ^ (bit / 8) * 2 ^ (bit % 8) := by
    rw [show 256 = 2 ^ 8 from rfl, ← pow_mul, ← pow_add, Nat.div_add_mod]
  have within : bit % 8 < 8 := Nat.mod_lt _ (by decide)
  rw [bitAt, Nat.shiftRight_eq_div_pow, position, ← Nat.div_div_eq_div_mul]
  by_cases inside : bit / 8 < bytes.length
  · have low := leNat_lt (bytes.take (bit / 8))
    rw [List.length_take, Nat.min_eq_left (by omega)] at low
    rw [leNat_take_drop bytes (bit / 8) (by omega), Nat.add_mul_div_left _ _ (by positivity),
      Nat.div_eq_of_lt low, Nat.zero_add, List.drop_eq_getElem_cons inside, leNat_cons,
      List.getD_eq_getElem?_getD, List.getElem?_eq_getElem inside, Option.getD_some]
    have split : 256 * leNat (bytes.drop (bit / 8 + 1)) =
        2 ^ (bit % 8) * (2 * (2 ^ (7 - bit % 8) * leNat (bytes.drop (bit / 8 + 1)))) := by
      rw [← Nat.mul_assoc, ← Nat.mul_assoc, ← pow_succ, ← pow_add, show bit % 8 + 1 + (7 - bit % 8) = 8 by omega,
        show 2 ^ 8 = 256 from rfl]
    rw [split, Nat.add_mul_div_left _ _ (by positivity), Nat.add_mul_mod_self_left]
  · have small := leNat_lt bytes
    have below : leNat bytes < 256 ^ (bit / 8) := Nat.lt_of_lt_of_le small (Nat.pow_le_pow_right (by decide) (by omega))
    rw [Nat.div_eq_of_lt below, List.getD_eq_getElem?_getD, List.getElem?_eq_none (by omega)]
    simp

end Coalesce.Library.BitLoop
