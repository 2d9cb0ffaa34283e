import Mathlib.Data.List.Basic

/-! Keys of any length from a hash of fixed length: each block hashes a shared string and
all blocks before it, the first block a string of its own in their place. -/

namespace Coalesce.Library.KeyExpansion

variable {α : Type} (hash : List α → List α) (shared start : List α)

/-- The first blocks, one behind the other. -/
def expand : Nat → List α
  | 0 => []
  | 1 => hash (shared ++ start)
  | count + 2 => expand (count + 1) ++ hash (shared ++ expand (count + 1))

theorem expand_succ {count : Nat} (later : 0 < count) :
    expand hash shared start (count + 1) =
      expand hash shared start count ++ hash (shared ++ expand hash shared start count) := by
  cases count with
  | zero => cases later
  | succ count => rfl

theorem expand_step (count : Nat) : ∃ block, expand hash shared start (count + 1) = expand hash shared start count ++ block := by
  cases count with
  | zero => exact ⟨hash (shared ++ start), rfl⟩
  | succ count => exact ⟨_, expand_succ hash shared start (Nat.succ_pos count)⟩

/-- More blocks leave those that are there. -/
theorem expand_prefix {count more : Nat} (fewer : count ≤ more) :
    expand hash shared start count <+: expand hash shared start more := by
  induction fewer with
  | refl => exact List.prefix_rfl
  | @step more _ ih =>
    obtain ⟨block, grown⟩ := expand_step hash shared start more
    rw [grown]
    exact ih.trans (List.prefix_append _ _)

/-- What is hashed for a block. -/
def message (index : Nat) : List α := shared ++ if index = 0 then start else expand hash shared start index

theorem expand_message (count : Nat) :
    expand hash shared start (count + 1) = expand hash shared start count ++ hash (message hash shared start count) := by
  cases count with
  | zero => rfl
  | succ count => rw [message, if_neg (Nat.succ_ne_zero count)]; exact expand_succ hash shared start (Nat.succ_pos count)

variable {size : Nat} (fixed : ∀ message, (hash message).length = size)
include fixed

theorem expand_length (count : Nat) : (expand hash shared start count).length = size * count := by
  induction count with
  | zero => rfl
  | succ count ih =>
    cases count with
    | zero => rw [expand, fixed, Nat.mul_one]
    | succ count => rw [expand, List.length_append, ih, fixed, Nat.mul_succ size (count + 1)]

/-- A key does not depend on how many blocks more than it needs are made. -/
theorem expand_take {length count more : Nat} (enough : length ≤ size * count) (enough' : length ≤ size * more) :
    (expand hash shared start count).take length = (expand hash shared start more).take length := by
  have cut {few many : Nat} (fewer : few ≤ many) (within : length ≤ size * few) :
      (expand hash shared start few).take length = (expand hash shared start many).take length := by
    obtain ⟨rest, split⟩ := expand_prefix hash shared start fewer
    rw [← split, List.take_append_of_le_length (by rw [expand_length hash shared start fixed]; exact within)]
  rcases Nat.le_total count more with fewer | fewer
  · exact cut fewer enough
  · exact (cut fewer enough').symm

/-- The block at an index is the hash of its message. -/
theorem expand_block {index count : Nat} (inside : index < count) :
    ((expand hash shared start count).drop (size * index)).take size = hash (message hash shared start index) := by
  obtain ⟨rest, split⟩ := expand_prefix hash shared start inside
  have front := expand_length hash shared start fixed index
  rw [← split, expand_message, List.append_assoc, ← front, List.drop_left, List.take_append_of_le_length (Nat.le_of_eq (fixed _).symm),
    List.take_of_length_le (Nat.le_of_eq (fixed _))]

/-- The first block, of one block or more. -/
theorem expand_first {count : Nat} (some_block : 0 < count) :
    (expand hash shared start count).take size = hash (shared ++ start) := by
  have first := expand_block hash shared start fixed some_block
  rw [Nat.mul_zero, List.drop_zero] at first
  exact first

/-- Blocks of two keys are the same only if the keys are made from the same strings and the
blocks stand at one index, or if two messages that are hashed on the way there collide. No
string of the start may have the length of whole blocks. -/
theorem expand_separates {shared' start' : List α} {i j : Nat} (positive : 0 < size)
    (split : ∀ rest rest' : List α, shared ++ rest = shared' ++ rest' → shared = shared' ∧ rest = rest')
    (uneven : ¬size ∣ start.length) (uneven' : ¬size ∣ start'.length)
    (same : hash (message hash shared start i) = hash (message hash shared' start' j)) :
    (shared = shared' ∧ start = start' ∧ i = j) ∨
      ∃ a ≤ i, ∃ b ≤ j, message hash shared start a ≠ message hash shared' start' b ∧
        hash (message hash shared start a) = hash (message hash shared' start' b) := by
  by_cases equal : message hash shared start i = message hash shared' start' j
  swap
  · exact Or.inr ⟨i, Nat.le_refl i, j, Nat.le_refl j, equal, same⟩
  obtain ⟨front, tails⟩ := split _ _ equal
  have length := expand_length hash shared start fixed
  have length' := expand_length hash shared' start' fixed
  by_cases first : i = 0
  · rw [if_pos first] at tails
    by_cases first' : j = 0
    · rw [if_pos first'] at tails
      exact Or.inl ⟨front, tails, first.trans first'.symm⟩
    · rw [if_neg first'] at tails
      exact absurd ⟨j, by rw [tails, length']⟩ uneven
  · rw [if_neg first] at tails
    by_cases first' : j = 0
    · rw [if_pos first'] at tails
      exact absurd ⟨i, by rw [← tails, length]⟩ uneven'
    · rw [if_neg first'] at tails
      have index : i = j := by
        apply Nat.eq_of_mul_eq_mul_left positive
        rw [← length, tails, length']
      -- what is hashed before a later block begins with the first
      have heads : hash (shared ++ start) = hash (shared' ++ start') := by
        rw [← expand_first hash shared start fixed (Nat.pos_of_ne_zero first),
          ← expand_first hash shared' start' fixed (Nat.pos_of_ne_zero first'), tails]
      by_cases starts : shared ++ start = shared' ++ start'
      · exact Or.inl ⟨front, (split _ _ starts).2, index⟩
      · exact Or.inr ⟨0, Nat.zero_le i, 0, Nat.zero_le j, starts, heads⟩

end Coalesce.Library.KeyExpansion
