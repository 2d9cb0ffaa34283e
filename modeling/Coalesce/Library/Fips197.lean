import Coalesce.Library.ByteField
import Mathlib.Data.Matrix.Mul

/-! FIPS 197 over the field of 256 elements: Cipher (section 5.1) and KeyExpansion (5.2).
Byte `r` of word `c` stands in row `r`, column `c`. -/

namespace Coalesce.Library.Fips197
open ByteField

inductive KeySize where
  | bits128 | bits192 | bits256
  deriving DecidableEq, Repr

/-- `Nk` -/
def KeySize.words : KeySize → ℕ
  | bits128 => 4
  | bits192 => 6
  | bits256 => 8

/-- `Nr` -/
def KeySize.rounds : KeySize → ℕ
  | bits128 => 10
  | bits192 => 12
  | bits256 => 14

theorem KeySize.words_pos (size : KeySize) : 0 < size.words := by cases size <;> decide

abbrev Word := Fin 4 → GF256

abbrev State := Matrix (Fin 4) (Fin 4) GF256

/-- Bit `i` is the sum of the bits `i`, `i + 4`, …, `i + 7` modulo eight and bit `i` of `63`. -/
def affine (b : Fin 8 → ZMod 2) : Fin 8 → ZMod 2 := fun i =>
  b i + b (i + 4) + b (i + 5) + b (i + 6) + b (i + 7) + ![1, 1, 0, 0, 0, 1, 1, 0] i

/-- Zero is its own inverse here. -/
noncomputable def sBox (z : GF256) : GF256 := coefficients.symm (affine (coefficients z⁻¹))

noncomputable def subBytes (s : State) : State := s.map sBox

def shiftRows (s : State) : State := Matrix.of fun r c => s r (c + r)

noncomputable def mixColumns (s : State) : State :=
  !![x, x + 1, 1, 1;
     1, x, x + 1, 1;
     1, 1, x, x + 1;
     x + 1, 1, 1, x] * s

noncomputable def addRoundKey (w : ℕ → Word) (round : ℕ) (s : State) : State :=
  Matrix.of fun r c => s r c + w (4 * round + c.val) r

noncomputable def cipherRound (w : ℕ → Word) (s : State) (round : ℕ) : State :=
  addRoundKey w round (mixColumns (shiftRows (subBytes s)))

/-- The last round does without `mixColumns`. -/
noncomputable def cipher (size : KeySize) (w : ℕ → Word) (input : State) : State :=
  let s := (List.range' 1 (size.rounds - 1)).foldl (cipherRound w) (addRoundKey w 0 input)
  addRoundKey w size.rounds (shiftRows (subBytes s))

def rotWord (a : Word) : Word := fun r => a (r + 1)

noncomputable def subWord (a : Word) : Word := fun r => sBox (a r)

noncomputable def rcon (i : ℕ) : Word := ![x ^ (i - 1), 0, 0, 0]

/-- `temp` of word `i`, from the word before. -/
noncomputable def scheduleTemp (size : KeySize) (i : ℕ) (temp : Word) : Word :=
  if i % size.words = 0 then subWord (rotWord temp) + rcon (i / size.words)
  else if size.words > 6 ∧ i % size.words = 4 then subWord temp
  else temp

noncomputable def keyExpansion (size : KeySize) (key : ℕ → Word) (i : ℕ) : Word :=
  if i < size.words then key i
  else keyExpansion size key (i - size.words) + scheduleTemp size i (keyExpansion size key (i - 1))
termination_by i
decreasing_by
  all_goals
    have positive := size.words_pos
    omega

variable {size : KeySize} {key : ℕ → Word} {i : ℕ}

theorem keyExpansion_key (inside : i < size.words) : keyExpansion size key i = key i := by
  rw [keyExpansion, if_pos inside]

theorem keyExpansion_step (behind : size.words ≤ i) : keyExpansion size key i =
    keyExpansion size key (i - size.words) + scheduleTemp size i (keyExpansion size key (i - 1)) := by
  rw [keyExpansion, if_neg (Nat.not_lt_of_le behind)]

end Coalesce.Library.Fips197
