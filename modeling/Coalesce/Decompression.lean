import Coalesce.ValidPoint
import Mathlib.NumberTheory.LegendreSymbol.Basic

/-! Decompression: a string is read just when there is a point with its y-coordinate and
parity, and then it is read as that point. Strings that hold a y of p or more are read as
well, where `y - p` is on the curve. -/

namespace Coalesce.Decompression
open Library.ByteNumber Library.PrattCertificate Library.EdwardsCurve Library.ExtendedCoordinates Library.PointCompression
open Primes25519 Edwards25519 PointEncoding Ed25519 GroupArithmetic GroupBytes ValidPoint

theorem reads_iff {input : List UInt8} (length : input.length = 32) :
    (∃ g, geFrombytes input edInit = some g) ↔
      ∃ p : Point edwards, p.y = decodeY input ∧ p.x.val % 2 = signBit input := by
  constructor
  · rintro ⟨g, read⟩
    obtain ⟨p, y, parity, -⟩ := geFrombytes_some edInit_context length read
    exact ⟨p, y, parity⟩
  · rintro ⟨p, y, parity⟩
    rcases read : geFrombytes input edInit with _ | g
    · exact absurd parity (geFrombytes_none edInit_context length read y)
    · exact ⟨g, rfl⟩

/-- Decompression is sound and complete, and undoes compression. -/
theorem decompression_exact :
    (∀ input : Vector UInt8 32,
      let y := decodeY input.toList
      let sign := signBit input.toList
      ((∃ g, geFrombytes input.toList edInit = some g) ↔
        ∃ x : ZMod P, -x ^ 2 + y ^ 2 = 1 + d * x ^ 2 * y ^ 2 ∧ x.val % 2 = sign) ∧
      ∀ g, geFrombytes input.toList edInit = some g →
        Valid g ∧ ∃ x : ZMod P, -x ^ 2 + y ^ 2 = 1 + d * x ^ 2 * y ^ 2 ∧ x.val % 2 = sign ∧
          residue g.X = x ∧ residue g.Y = y ∧ residue g.Z = 1 ∧ residue g.T = x * y) ∧
    ∀ g (valid : Valid g), ∃ h, geFrombytes (geTobytes g) edInit = some h ∧ ∃ read : Valid h, read.point = valid.point := by
  constructor
  · intro input y sign
    have length : input.toList.length = 32 := Vector.length_toList
    constructor
    · rw [reads_iff length]
      constructor
      · rintro ⟨p, y_eq, parity⟩
        have equation := equation_of_on p.on
        rw [y_eq] at equation
        exact ⟨p.x, equation, parity⟩
      · rintro ⟨x, equation, parity⟩
        exact ⟨⟨x, y, on_of_equation equation⟩, rfl, parity⟩
    · intro g read
      obtain ⟨p, y_eq, parity, limbs⟩ := geFrombytes_some edInit_context length read
      have equation := equation_of_on p.on
      rw [y_eq] at equation
      have denotes : Denotes g p := limbs.denotes
      have product : residue g.T = p.x * p.y := limbs.T.denotes
      rw [y_eq] at product
      exact ⟨(valid_of_denotes denotes).1, p.x, equation, parity, limbs.X.denotes, limbs.Y.denotes.trans y_eq,
        limbs.Z.denotes, product⟩
  · intro g valid
    rw [geTobytes_eq valid.denotes]
    obtain ⟨h, read, limbs⟩ := geFrombytes_encode edInit_context valid.point
    exact ⟨h, read, valid_of_denotes limbs.denotes⟩

/-! Strings with a y that is not reduced. -/

/-- Which `y` of 0 to 18 are no coordinate of a point. -/
def offCurve : List ℕ := [2, 7, 8, 11, 12, 13, 17]

/-- The number in the low 255 bits is reduced, or the string is not read: `y - p` is not on
the curve, or it is 1 and asks for an odd zero. -/
def Harmless (input : List UInt8) : Prop :=
  leNat input % 2 ^ 255 < P ∨ (∃ y ∈ offCurve, leNat input % 2 ^ 255 = P + y) ∨
    (leNat input % 2 ^ 255 = P + 1 ∧ signBit input = 1)

/-- Modulo p, y is at least 19, so that its one string is the reduced one; or no string with it
is read. -/
def Unaliased (input : List UInt8) : Prop :=
  let y := leNat input % 2 ^ 255 % P
  19 ≤ y ∨ y ∈ offCurve ∨ (y = 1 ∧ signBit input = 1)

/-- The square of `x`, times the square of its denominator. -/
def squareNumber (y : ℕ) : ℕ := (y * y + (P - 1)) * (dNumber * (y * y) + 1)

/-- Euler's criterion for it. -/
def character (y : ℕ) : ℕ := powMod P (squareNumber y) 256 (P / 2)

theorem character_off : ∀ y ∈ offCurve, character y = P - 1 := by decide +kernel

theorem character_on : ∀ y ∈ [0, 3, 4, 5, 6, 9, 10, 14, 15, 16, 18], character y = 1 := by decide +kernel

theorem cast_squareNumber (y : ℕ) :
    (squareNumber y : ZMod P) = ((y : ZMod P) * y - 1) * (d * ((y : ZMod P) * y) + 1) := by
  have minus : ((P - 1 : ℕ) : ZMod P) = -1 := by
    have sum : ((P - 1 + 1 : ℕ) : ZMod P) = (0 : ℕ) := cast_eq (by decide)
    push_cast at sum
    linear_combination sum
  rw [squareNumber, d_eq]
  push_cast [minus]
  ring

theorem cast_character (y : ℕ) : (squareNumber y : ZMod P) ^ (P / 2) = character y :=
  cast_pow 256 (by decide) rfl

/-- A point has this y-coordinate just when its square number is a square. -/
theorem on_iff_square (y : ℕ) : (∃ x, edwards.On x y) ↔ IsSquare (squareNumber y : ZMod P) := by
  have nonzero : d * ((y : ZMod P) * y) + 1 ≠ 0 := denominator_ne_zero (C := edwards) (y : ZMod P)
  have root (x : ZMod P) : edwards.On x y ↔ x * x * (d * ((y : ZMod P) * y) + 1) = (y : ZMod P) * y - 1 := by
    rw [on_iff, ← div_eq_mul_inv]
    exact eq_div_iff nonzero
  rw [cast_squareNumber]
  constructor
  · rintro ⟨x, on⟩
    have square := (root x).mp on
    refine ⟨x * (d * ((y : ZMod P) * y) + 1), ?_⟩
    linear_combination -(d * ((y : ZMod P) * y) + 1) * square
  · rintro ⟨s, square⟩
    refine ⟨s / (d * ((y : ZMod P) * y) + 1), (root _).mpr ?_⟩
    rw [div_mul_div_comm, ← square, mul_div_mul_right _ _ nonzero, div_mul_cancel₀ _ nonzero]

theorem not_on_of_character {y : ℕ} (negative : character y = P - 1) : ¬∃ x, edwards.On x y := by
  rw [on_iff_square]
  intro square
  have power := cast_character y
  have two : ((P - 1 : ℕ) : ZMod P) ≠ (1 : ℕ) := by
    rw [ne_eq, ZMod.natCast_eq_natCast_iff']
    decide
  rw [negative] at power
  by_cases zero : (squareNumber y : ZMod P) = 0
  · rw [zero, zero_pow (by decide)] at power
    exact cast_ne_zero (n := P - 1) (by decide) power.symm
  · rw [(ZMod.euler_criterion P zero).mp square] at power
    exact two (power.symm.trans Nat.cast_one.symm)

theorem on_of_character {y : ℕ} (positive : character y = 1) : ∃ x, x ≠ 0 ∧ edwards.On x y := by
  have power := cast_character y
  rw [positive, Nat.cast_one] at power
  have nonzero : (squareNumber y : ZMod P) ≠ 0 := by
    intro zero
    rw [zero, zero_pow (by decide)] at power
    exact zero_ne_one power
  obtain ⟨x, on⟩ := (on_iff_square y).mpr ((ZMod.euler_criterion P nonzero).mpr power)
  refine ⟨x, ?_, on⟩
  rintro rfl
  have square := on_iff.mp on
  rw [mul_zero, zero_eq_mul] at square
  apply nonzero
  rw [cast_squareNumber]
  rcases square with zero | inverse
  · rw [zero, zero_mul]
  · exact absurd (inv_eq_zero.mp inverse) (denominator_ne_zero (C := edwards) (y : ZMod P))

/-- Off zero, x has either parity. -/
theorem point_of_parity {x y : ZMod P} (nonzero : x ≠ 0) (on : edwards.On x y) {sign : ℕ} (bit : sign ≤ 1) :
    ∃ p : Point edwards, p.y = y ∧ p.x.val % 2 = sign := by
  by_cases parity : x.val % 2 = sign
  · exact ⟨⟨x, y, on⟩, rfl, parity⟩
  · refine ⟨-⟨x, y, on⟩, rfl, ?_⟩
    rw [neg_x, parity_neg nonzero]
    omega

/-- The small y that belong to points. -/
theorem point_of_small {y sign : ℕ} (few : y < 19) (on : y ∉ offCurve) (bit : sign ≤ 1) (even : ¬(y = 1 ∧ sign = 1)) :
    ∃ p : Point edwards, p.y = y ∧ p.x.val % 2 = sign := by
  have cases : ∀ y < 19, y ∈ [0, 3, 4, 5, 6, 9, 10, 14, 15, 16, 18] ∨ y = 1 ∨ y ∈ offCurve := by decide
  rcases cases y few with listed | rfl | off
  · obtain ⟨x, nonzero, equation⟩ := on_of_character (character_on y listed)
    exact point_of_parity nonzero equation bit
  · have zero : sign = 0 := by omega
    refine ⟨0, ?_, ?_⟩
    · rw [zero_y, Nat.cast_one]
    · rw [zero_x, zero, ZMod.val_zero]
  · exact absurd off on

/-- And those that do not. -/
theorem off_curve {p : Point edwards} {y : ℕ} (off : y ∈ offCurve) : p.y ≠ y := by
  intro same
  have on := p.on
  rw [same] at on
  exact not_on_of_character (character_off y off) ⟨p.x, on⟩

theorem even_of_one {p : Point edwards} (one : p.y = 1) : p.x.val % 2 = 0 := by
  have square := on_iff.mp p.on
  rw [one, mul_one, sub_self, zero_mul] at square
  rw [mul_self_eq_zero.mp square, ZMod.val_zero]

theorem decodeY_of_offset {input : List UInt8} {y : ℕ} (number : leNat input % 2 ^ 255 = P + y) : decodeY input = y := by
  rw [decodeY, number, Nat.cast_add, ZMod.natCast_self, zero_add]

theorem encode_reduced (p : Point edwards) : leNat (encode p) % 2 ^ 255 < P := by
  rw [leNat_encode, Nat.add_mul_mod_self_left, Nat.mod_eq_of_lt (val_lt p.y)]
  exact ZMod.val_lt p.y

section
variable {input : List UInt8} (length : input.length = 32)
include length

theorem signBit_le : signBit input ≤ 1 := by
  have bound := leNat_lt input
  rw [length] at bound
  unfold signBit
  omega

/-- What is read and is written as it was read has a reduced y. -/
theorem reduced_of_roundtrip {g : GeP3} (read : geFrombytes input edInit = some g) (same : geTobytes g = input) :
    leNat input % 2 ^ 255 < P := by
  obtain ⟨p, -, -, limbs⟩ := geFrombytes_some edInit_context length read
  rw [geTobytes_eq limbs.denotes] at same
  rw [← same]
  exact encode_reduced p

theorem roundtrip_of_reduced {g : GeP3} (read : geFrombytes input edInit = some g)
    (reduced : leNat input % 2 ^ 255 < P) : geTobytes g = input := by
  obtain ⟨p, y, parity, limbs⟩ := geFrombytes_some edInit_context length read
  have number : p.y.val = leNat input % 2 ^ 255 := by
    rw [y, decodeY]
    exact ZMod.val_cast_of_lt reduced
  have parts : leNat input % 2 ^ 255 + 2 ^ 255 * signBit input = leNat input := Nat.mod_add_div _ _
  have back := leBytes_leNat input
  rw [length] at back
  rw [geTobytes_eq limbs.denotes, encode, number, parity, parts, back]

/-- What is not harmless is read. -/
theorem reads_of_harm (harm : ¬Harmless input) : ∃ g, geFrombytes input edInit = some g := by
  have unreduced : P ≤ leNat input % 2 ^ 255 := Nat.le_of_not_lt fun reduced => harm (Or.inl reduced)
  obtain ⟨y, number⟩ := Nat.exists_eq_add_of_le unreduced
  have few : y < 19 := by
    have below := Nat.mod_lt (leNat input) (show 2 ^ 255 > 0 by decide)
    unfold P at number
    omega
  rw [reads_iff length, decodeY_of_offset number]
  refine point_of_small few (fun off => harm (Or.inr (Or.inl ⟨y, off, number⟩))) (signBit_le length) ?_
  rintro ⟨rfl, odd⟩
  exact harm (Or.inr (Or.inr ⟨number, odd⟩))

theorem reduced_of_harmless (harmless : Harmless input) {g : GeP3} (read : geFrombytes input edInit = some g) :
    leNat input % 2 ^ 255 < P := by
  obtain ⟨p, y_eq, parity⟩ := (reads_iff length).mp ⟨g, read⟩
  rcases harmless with reduced | ⟨y, off, number⟩ | ⟨number, odd⟩
  · exact reduced
  · rw [decodeY_of_offset number] at y_eq
    exact absurd y_eq (off_curve off)
  · rw [decodeY_of_offset number, Nat.cast_one] at y_eq
    rw [even_of_one y_eq, odd] at parity
    contradiction

/-! Strings that are read as the same point. -/

/-- Y and the top bit are all that is read. -/
theorem affine_of_same {other : List UInt8} (lengthOther : other.length = 32) (sameY : decodeY input = decodeY other)
    (sameSign : signBit input = signBit other) {g h : GeP3} (readInput : geFrombytes input edInit = some g)
    (readOther : geFrombytes other edInit = some h) : affineX g = affineX h ∧ affineY g = affineY h := by
  obtain ⟨p, y, parity, limbs⟩ := geFrombytes_some edInit_context length readInput
  obtain ⟨q, yOther, parityOther, limbsOther⟩ := geFrombytes_some edInit_context lengthOther readOther
  have same : p = q := eq_of_parity (y.trans (sameY.trans yOther.symm)) (parity.trans (sameSign.trans parityOther.symm))
  obtain ⟨first, before⟩ := valid_of_denotes limbs.denotes
  obtain ⟨second, after⟩ := valid_of_denotes limbsOther.denotes
  have points : first.point = second.point := before.trans (same.trans after.symm)
  exact ⟨congrArg Point.x points, congrArg Point.y points⟩

theorem same_of_affine {other : List UInt8} (lengthOther : other.length = 32) {g h : GeP3}
    (readInput : geFrombytes input edInit = some g) (readOther : geFrombytes other edInit = some h)
    (sameX : affineX g = affineX h) (sameY : affineY g = affineY h) :
    decodeY input = decodeY other ∧ signBit input = signBit other := by
  obtain ⟨p, y, parity, limbs⟩ := geFrombytes_some edInit_context length readInput
  obtain ⟨q, yOther, parityOther, limbsOther⟩ := geFrombytes_some edInit_context lengthOther readOther
  obtain ⟨first, before⟩ := valid_of_denotes limbs.denotes
  obtain ⟨second, after⟩ := valid_of_denotes limbsOther.denotes
  have points : first.point = second.point := Point.ext sameX sameY
  have same : p = q := before.symm.trans (points.trans after)
  exact ⟨y.symm.trans (same ▸ yOther), parity.symm.trans (same ▸ parityOther)⟩

/-- Below 19, y has a second string, with p added or taken away. -/
theorem second_string (few : leNat input % 2 ^ 255 % P < 19) : ∃ other : Vector UInt8 32, other.toList ≠ input ∧
    decodeY input = decodeY other.toList ∧ signBit input = signBit other.toList := by
  have bit := signBit_le length
  have below : leNat input % 2 ^ 255 < 2 ^ 255 := Nat.mod_lt _ (by decide)
  let number := leNat input % 2 ^ 255
  let second := if number < P then P + number else number - P
  have small : second < 2 ^ 255 := by
    simp only [second, number]
    unfold P at few ⊢
    split <;> omega
  have residue_eq : number % P = second % P := by
    simp only [second, number]
    unfold P
    split <;> omega
  have other_number : leNat (leBytes 32 (second + 2 ^ 255 * signBit input)) = second + 2 ^ 255 * signBit input := by
    rw [leNat_leBytes]
    exact Nat.mod_eq_of_lt (by omega)
  have low : leNat (leBytes 32 (second + 2 ^ 255 * signBit input)) % 2 ^ 255 = second := by
    rw [other_number, Nat.add_mul_mod_self_left, Nat.mod_eq_of_lt small]
  refine ⟨⟨(leBytes 32 (second + 2 ^ 255 * signBit input)).toArray, leBytes_length 32 _⟩, ?_, ?_, ?_⟩
  · intro same
    have numbers : second = number := by
      rw [← low]
      exact congrArg (fun bytes => leNat bytes % 2 ^ 255) same
    simp only [second] at numbers
    unfold P at numbers
    split at numbers <;> omega
  · change (number : ZMod P) = ((leNat (leBytes 32 _) % 2 ^ 255 : ℕ) : ZMod P)
    rw [low]
    exact cast_eq residue_eq
  · change signBit input = leNat (leBytes 32 _) / 2 ^ 255
    rw [other_number]
    omega

/-- And both are read, unless no string with this y and this parity is. -/
theorem read_twice (aliased : ¬Unaliased input) : ∃ other : Vector UInt8 32, other.toList ≠ input ∧
    decodeY input = decodeY other.toList ∧ signBit input = signBit other.toList ∧
      ∃ p : Point edwards, p.y = decodeY input ∧ p.x.val % 2 = signBit input := by
  obtain ⟨few, rest⟩ := not_or.mp aliased
  obtain ⟨on, even⟩ := not_or.mp rest
  obtain ⟨other, differ, sameY, sameSign⟩ := second_string length (Nat.lt_of_not_le few)
  obtain ⟨p, y, parity⟩ := point_of_small (Nat.lt_of_not_le few) on (signBit_le length) even
  exact ⟨other, differ, sameY, sameSign, p, y.trans (ZMod.natCast_mod _ P), parity⟩

/-- From 19 on it has one. -/
theorem number_unique {other : List UInt8} (lengthOther : other.length = 32) (large : 19 ≤ leNat input % 2 ^ 255 % P)
    (sameY : decodeY input = decodeY other) (sameSign : signBit input = signBit other) : input = other := by
  apply leNat_injective (length.trans lengthOther.symm)
  have residues : leNat input % 2 ^ 255 % P = leNat other % 2 ^ 255 % P := (ZMod.natCast_eq_natCast_iff' _ _ P).mp sameY
  unfold signBit at sameSign
  have parts := Nat.mod_add_div (leNat input) (2 ^ 255)
  have partsOther := Nat.mod_add_div (leNat other) (2 ^ 255)
  have below : leNat input % 2 ^ 255 < 2 ^ 255 := Nat.mod_lt _ (by decide)
  have belowOther : leNat other % 2 ^ 255 < 2 ^ 255 := Nat.mod_lt _ (by decide)
  rw [← parts, ← partsOther, sameSign]
  congr 1
  unfold P at *
  omega

theorem unaliased_of_read (unaliased : Unaliased input) {g : GeP3} (read : geFrombytes input edInit = some g) :
    19 ≤ leNat input % 2 ^ 255 % P := by
  obtain ⟨p, y_eq, parity⟩ := (reads_iff length).mp ⟨g, read⟩
  have reduced : p.y = ((leNat input % 2 ^ 255 % P : ℕ) : ZMod P) := y_eq.trans (ZMod.natCast_mod _ P).symm
  rcases unaliased with large | off | ⟨one, odd⟩
  · exact large
  · exact absurd reduced (off_curve off)
  · rw [one, Nat.cast_one] at reduced
    rw [even_of_one reduced, odd] at parity
    contradiction

omit length in
theorem harmless_of_unaliased (unaliased : Unaliased input) : Harmless input := by
  have below : leNat input % 2 ^ 255 < 2 ^ 255 := Nat.mod_lt _ (by decide)
  by_cases reduced : leNat input % 2 ^ 255 < P
  · exact Or.inl reduced
  have number : leNat input % 2 ^ 255 = P + leNat input % 2 ^ 255 % P := by
    unfold P at *
    omega
  rcases unaliased with large | off | ⟨one, odd⟩
  · unfold P at *
    omega
  · exact Or.inr (Or.inl ⟨_, off, number⟩)
  · rw [one] at number
    exact Or.inr (Or.inr ⟨number, odd⟩)

end

/-- Decompression and compression give the string back just for the harmless ones. No other
string is read as the same point just for the unaliased ones, which are all harmless. -/
theorem canonical_encodings_iff (a : Vector UInt8 32) :
    ((∀ g, geFrombytes a.toList edInit = some g → geTobytes g = a.toList) ↔ Harmless a.toList) ∧
    ((∀ (b : Vector UInt8 32) (g h : GeP3), geFrombytes a.toList edInit = some g → geFrombytes b.toList edInit = some h →
      affineX g = affineX h → affineY g = affineY h → a = b) ↔ Unaliased a.toList) ∧
    (Unaliased a.toList → Harmless a.toList) := by
  have length : a.toList.length = 32 := Vector.length_toList
  refine ⟨⟨fun roundtrips => ?_, fun harmless g read => ?_⟩, ⟨fun unique => ?_, fun unaliased b g h readA readB sameX sameY => ?_⟩,
    harmless_of_unaliased⟩
  · by_contra harm
    obtain ⟨g, read⟩ := reads_of_harm length harm
    exact harm (Or.inl (reduced_of_roundtrip length read (roundtrips g read)))
  · exact roundtrip_of_reduced length read (reduced_of_harmless length harmless read)
  · by_contra aliased
    obtain ⟨b, differ, sameY, sameSign, p, y, parity⟩ := read_twice length aliased
    obtain ⟨g, readA⟩ := (reads_iff length).mpr ⟨p, y, parity⟩
    obtain ⟨h, readB⟩ := (reads_iff Vector.length_toList).mpr ⟨p, y.trans sameY, parity.trans sameSign⟩
    obtain ⟨first, second⟩ := affine_of_same length Vector.length_toList sameY sameSign readA readB
    exact differ (congrArg Vector.toList (unique b g h readA readB first second).symm)
  · obtain ⟨sameYs, sameSigns⟩ := same_of_affine length Vector.length_toList readA readB sameX sameY
    exact Vector.toList_inj.mp
      (number_unique length Vector.length_toList (unaliased_of_read length unaliased readA) sameYs sameSigns)

/-- `p + 1` in 32 bytes. -/
def unreducedOne : Vector UInt8 32 := ⟨(0xee :: List.replicate 30 0xff ++ [0x7f] : List UInt8).toArray, rfl⟩

theorem unreducedOne_number : leNat unreducedOne.toList % 2 ^ 255 = P + 1 := by decide

theorem unreducedOne_harm : ¬Harmless unreducedOne.toList := by
  have number := unreducedOne_number
  have even : signBit unreducedOne.toList = 0 := by decide
  intro harmless
  rw [Harmless, number, even] at harmless
  rcases harmless with reduced | ⟨y, off, same⟩ | ⟨-, odd⟩
  · omega
  · rw [← Nat.add_left_cancel same] at off
    exact absurd off (by decide)
  · contradiction

/-- `p + 1` is read as 1, for the neutral element. -/
theorem unreduced_y_accepted :
    ¬∀ input : Vector UInt8 32, ∀ g, geFrombytes input.toList edInit = some g → geTobytes g = input.toList := by
  intro claimed
  have length : unreducedOne.toList.length = 32 := Vector.length_toList
  obtain ⟨g, read⟩ := reads_of_harm length unreducedOne_harm
  have reduced := reduced_of_roundtrip length read (claimed unreducedOne g read)
  exact unreducedOne_harm (Or.inl reduced)

end Coalesce.Decompression
