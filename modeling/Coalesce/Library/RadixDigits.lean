import Mathlib.Algebra.Order.Ring.Nat
import Mathlib.Data.List.Basic
import Mathlib.Data.List.Induction
import Mathlib.Tactic.Ring

/-! Numbers as digit strings of a given length in any base, most significant digit first. -/

namespace Coalesce.Library.RadixDigits

variable {b : ℕ}

/-- The `count` low digits of a number. -/
def toDigits (b : ℕ) : (count value : ℕ) → List ℕ
  | 0, _ => []
  | count + 1, value => toDigits b count (value / b) ++ [value % b]

def ofDigits (b : ℕ) (digits : List ℕ) : ℕ := digits.foldl (fun value digit => value * b + digit) 0

@[simp] theorem toDigits_length (count value : ℕ) : (toDigits b count value).length = count := by
  induction count generalizing value with
  | zero => rfl
  | succ count ih => rw [toDigits, List.length_append, ih, List.length_singleton]

theorem toDigits_lt (positive : 0 < b) {count value digit : ℕ} (member : digit ∈ toDigits b count value) : digit < b := by
  induction count generalizing value with
  | zero => exact absurd member List.not_mem_nil
  | succ count ih =>
    rw [toDigits, List.mem_append, List.mem_singleton] at member
    rcases member with higher | last
    · exact ih higher
    · rw [last]
      exact Nat.mod_lt value positive

@[simp] theorem ofDigits_nil : ofDigits b [] = 0 := rfl

theorem ofDigits_concat (digits : List ℕ) (digit : ℕ) : ofDigits b (digits ++ [digit]) = ofDigits b digits * b + digit := by
  rw [ofDigits, List.foldl_append]
  rfl

theorem ofDigits_toDigits (count value : ℕ) : ofDigits b (toDigits b count value) = value % b ^ count := by
  induction count generalizing value with
  | zero => rw [toDigits, ofDigits_nil, pow_zero, Nat.mod_one]
  | succ count ih =>
    rw [toDigits, ofDigits_concat, ih, pow_succ', Nat.mod_mul, Nat.add_comm, Nat.mul_comm]

/-- A string of digits is that of its number. -/
theorem toDigits_ofDigits {digits : List ℕ} (small : ∀ digit ∈ digits, digit < b) :
    toDigits b digits.length (ofDigits b digits) = digits := by
  induction digits using List.reverseRecOn with
  | nil => rfl
  | append_singleton digits digit ih =>
    have last := small digit (List.mem_append_right _ (List.mem_singleton_self digit))
    have front := ih fun other member => small other (List.mem_append_left _ member)
    rw [ofDigits_concat, List.length_append, List.length_singleton, toDigits, Nat.mul_add_mod_of_lt last,
      Nat.mul_comm, Nat.mul_add_div (Nat.zero_lt_of_lt last), Nat.div_eq_of_lt last, Nat.add_zero, front]

theorem ofDigits_lt {digits : List ℕ} (small : ∀ digit ∈ digits, digit < b) : ofDigits b digits < b ^ digits.length := by
  by_cases empty : digits = []
  · rw [empty]
    exact Nat.one_pos
  · obtain ⟨digit, member⟩ := List.exists_mem_of_ne_nil digits empty
    have positive : 0 < b := Nat.zero_lt_of_lt (small digit member)
    have number := @ofDigits_toDigits b digits.length (ofDigits b digits)
    rw [toDigits_ofDigits small] at number
    rw [number]
    exact Nat.mod_lt _ (Nat.pow_pos positive)

/-- A number cut in two behind its `high` leading digits. -/
theorem toDigits_append {high low value rest : ℕ} (small : rest < b ^ low) :
    toDigits b (high + low) (value * b ^ low + rest) = toDigits b high value ++ toDigits b low rest := by
  induction low generalizing rest with
  | zero =>
    rw [pow_zero, Nat.lt_one_iff] at small
    rw [small, pow_zero, Nat.mul_one, toDigits, List.append_nil]
    rfl
  | succ low ih =>
    have positive : 0 < b := by
      apply Nat.pos_of_ne_zero
      intro zero
      rw [zero, pow_succ, Nat.mul_zero] at small
      exact Nat.not_lt_zero rest small
    have shifted : value * b ^ (low + 1) + rest = b * (value * b ^ low) + rest := by ring
    have higher : (value * b ^ (low + 1) + rest) / b = value * b ^ low + rest / b := by
      rw [shifted, Nat.mul_add_div positive]
    have last : (value * b ^ (low + 1) + rest) % b = rest % b := by
      rw [shifted, Nat.mul_add_mod]
    have smaller : rest / b < b ^ low := by
      rw [Nat.div_lt_iff_lt_mul positive, ← pow_succ]
      exact small
    rw [← Nat.add_assoc, toDigits, higher, last, ih smaller, toDigits, List.append_assoc]

end Coalesce.Library.RadixDigits
