import Coalesce.X25519

/-! Inputs for which `curve25519_eval` hands out the zero string. The call returns 0 on them as
on all others, and nothing in the code looks at the secret that comes out. -/

namespace Coalesce.LowOrder
open Library.ByteNumber Library.BitLoop Library.LadderCurve Library.EdwardsCurve Primes25519 Edwards25519 Curve25519 X25519
open Library.MontgomeryLadder (Points State step start start_eq ladder)

/-- The string stands for the u-coordinate of the point: reduced or not, whatever its top bit. -/
def UOf (bytes : List UInt8) (p : Point edwards) : Prop := decodeUCoordinate bytes = uCoordinate p

theorem two_ne_zero_P : (2 : ZMod P) ≠ 0 := by
  have two : ((2 : ℕ) : ZMod P) ≠ 0 := cast_ne_zero (by decide)
  exact_mod_cast two

/-- The neutral point and the one of order 2 have the u-coordinate 0, and no others have. -/
theorem uCoordinate_zero_iff (p : Point edwards) : uCoordinate p = 0 ↔ p + p = 0 := by
  refine ⟨uCoordinate_eq_zero, fun double => ?_⟩
  have opposite : p.x = -p.x := congrArg Point.x (eq_neg_of_add_eq_zero_left double)
  have x : p.x = 0 := by
    have twice : 2 * p.x = 0 := by linear_combination opposite
    exact (mul_eq_zero.mp twice).resolve_left two_ne_zero_P
  have on := p.on
  unfold Curve.On at on
  rw [x] at on
  have product : (1 + p.y) * (1 - p.y) = 0 := by linear_combination -on
  exact div_eq_zero_iff.mpr (mul_eq_zero.mp product)

theorem curve25519Eval_uOf {scalar point : List UInt8} (scalar_length : scalar.length = 32) (point_length : point.length = 32)
    {p : Point edwards} (stands : UOf point p) :
    curve25519Eval scalar point = encodeUCoordinate (uCoordinate (decodeScalar scalar • p)) := by
  rw [curve25519Eval_ladder scalar_length point_length, stands,
    ladder_quotient a24_constant p (decodeScalar_fits scalar) (decodeScalar_even scalar)]

theorem encode_zero_iff (u : ZMod P) : encodeUCoordinate u = List.replicate 32 0 ↔ u = 0 := by
  have zeros : encodeUCoordinate 0 = List.replicate 32 0 := by decide
  rw [← zeros]
  refine ⟨fun same => ?_, fun zero => by rw [zero]⟩
  rw [← decode_encode u, same, decode_encode]

/-! The twist has a point of order 4 too, at `u = -1`. Its multiples are infinity, itself, the
point at `u = 0`, and itself again. -/

/-- The projective coordinates of multiple `k` of that point. -/
inductive Fourth : ℕ → ZMod P → ZMod P → Prop
  | infinity {k : ℕ} {x : ZMod P} (multiple : k % 4 = 0) (nonzero : x ≠ 0) : Fourth k x 0
  | itself {k : ℕ} {z : ZMod P} (odd : k % 2 = 1) (nonzero : z ≠ 0) : Fourth k (-z) z
  | middle {k : ℕ} {z : ZMod P} (half : k % 4 = 2) (nonzero : z ≠ 0) : Fourth k 0 z

theorem fourth_double {k : ℕ} {points : Points (ZMod P)} (fourth : Fourth k points.x2 points.z2) (u : ZMod P) :
    Fourth (2 * k) (points.advance a24 u).x2 (points.advance a24 u).z2 := by
  rw [Points.advance_x2, Points.advance_z2]
  generalize points.x2 = x, points.z2 = z at fourth
  cases fourth with
  | infinity multiple nonzero =>
    have x' : (x + 0) * (x + 0) * ((x - 0) * (x - 0)) ≠ 0 := by simpa using nonzero
    convert Fourth.infinity (k := 2 * k) (by omega) x' using 1
    ring
  | itself odd nonzero =>
    have square : z * z ≠ 0 := mul_ne_zero nonzero nonzero
    have constant : 16 * a24 ≠ 0 := by
      have number : ((16 * 121665 : ℕ) : ZMod P) ≠ 0 := cast_ne_zero (by decide)
      rw [a24]
      exact_mod_cast number
    have z' : 16 * a24 * ((z * z) * (z * z)) ≠ 0 := mul_ne_zero constant (mul_ne_zero square square)
    convert Fourth.middle (k := 2 * k) (by omega) z' using 1 <;> ring
  | middle half nonzero =>
    have x' : z * z * (z * z) ≠ 0 := mul_ne_zero (mul_ne_zero nonzero nonzero) (mul_ne_zero nonzero nonzero)
    convert Fourth.infinity (k := 2 * k) (by omega) x' using 1 <;> ring

/-- Neighbours, whose difference is the point itself. -/
theorem fourth_add {k : ℕ} {points : Points (ZMod P)} (lower : Fourth k points.x2 points.z2)
    (upper : Fourth (k + 1) points.x3 points.z3) :
    Fourth (2 * k + 1) (points.advance a24 (-1)).x3 (points.advance a24 (-1)).z3 := by
  rw [Points.advance_x3, Points.advance_z3]
  generalize points.x2 = x, points.z2 = z at lower
  generalize points.x3 = x', points.z3 = z' at upper
  have product {a b : ZMod P} (first : a ≠ 0) (second : b ≠ 0) : -(4 * ((a * b) * (a * b))) ≠ 0 := by
    have four : (4 : ZMod P) ≠ 0 := by
      have number : ((4 : ℕ) : ZMod P) ≠ 0 := cast_ne_zero (by decide)
      exact_mod_cast number
    exact neg_ne_zero.mpr (mul_ne_zero four (mul_ne_zero (mul_ne_zero first second) (mul_ne_zero first second)))
  cases lower with
  | infinity multiple nonzero =>
    cases upper with
    | infinity multiple' => omega
    | itself odd nonzero' => convert Fourth.itself (k := 2 * k + 1) (by omega) (product nonzero nonzero') using 1 <;> ring
    | middle half => omega
  | itself odd nonzero =>
    cases upper with
    | infinity multiple nonzero' => convert Fourth.itself (k := 2 * k + 1) (by omega) (product nonzero nonzero') using 1 <;> ring
    | itself odd' => omega
    | middle half nonzero' => convert Fourth.itself (k := 2 * k + 1) (by omega) (product nonzero nonzero') using 1 <;> ring
  | middle half nonzero =>
    cases upper with
    | infinity multiple => omega
    | itself odd nonzero' => convert Fourth.itself (k := 2 * k + 1) (by omega) (product nonzero nonzero') using 1 <;> ring
    | middle half' => omega

structure Fourths (k : ℕ) (points : Points (ZMod P)) : Prop where
  lower : Fourth k points.x2 points.z2
  upper : Fourth (k + 1) points.x3 points.z3

/-- One round on points in order, and on points that are exchanged. -/
theorem fourths_advance {k : ℕ} {points : Points (ZMod P)} (fourths : Fourths k points) :
    Fourths (2 * k) (points.advance a24 (-1)) ∧ Fourths (2 * k + 1) (((points.cswap 1).advance a24 (-1)).cswap 1) := by
  obtain ⟨lower, upper⟩ := fourths
  have sum := fourth_add lower upper
  have x3 : ((points.cswap 1).advance a24 (-1)).x3 = (points.advance a24 (-1)).x3 := by
    rw [Points.advance_x3, Points.advance_x3, Points.cswap, if_pos one_ne_zero]
    ring
  have z3 : ((points.cswap 1).advance a24 (-1)).z3 = (points.advance a24 (-1)).z3 := by
    rw [Points.advance_z3, Points.advance_z3, Points.cswap, if_pos one_ne_zero]
    ring
  rw [← x3, ← z3] at sum
  exact ⟨⟨fourth_double lower (-1), fourth_add lower upper⟩, sum, @fourth_double (k + 1) (points.cswap 1) upper (-1)⟩

theorem ladder_fourths (bits k : ℕ) : Fourths (k % 2 ^ bits) (ladder a24 bits k (-1)) := by
  have begun : Fourths 0 (start (-1)) := by
    obtain ⟨x2, z2, x3, z3⟩ := start_eq (-1 : ZMod P)
    refine ⟨?_, ?_⟩
    · rw [x2, z2]
      exact .infinity rfl one_ne_zero
    · rw [x3, z3]
      exact .itself rfl one_ne_zero
  unfold ladder
  refine (bitsDown_holds (fun sofar (s : State (ZMod P)) => s.swap ≤ 1 ∧ Fourths sofar (s.points.cswap s.swap)) k ?_ bits
    (s := ⟨start (-1), 0⟩) ⟨Nat.zero_le 1, begun⟩).2
  rintro sofar s bit ⟨small, fourths⟩
  have two := Nat.mod_lt (k / 2 ^ bit) (show 2 > 0 by decide)
  obtain ⟨plain, exchanged⟩ := fourths_advance fourths
  simp only [step, s.points.cswap_xor small two]
  refine ⟨by omega, ?_⟩
  rcases Nat.mod_two_eq_zero_or_one (k / 2 ^ bit) with zero | one
  · rw [zero]
    exact plain
  · rw [one]
    exact exchanged

/-- A multiple of 4 takes it to infinity. -/
theorem ladder_minus_one {bits k : ℕ} (fits : k < 2 ^ bits) (multiple : 4 ∣ k) :
    (ladder a24 bits k (-1)).x2 * (ladder a24 bits k (-1)).z2⁻¹ = 0 := by
  have lower := (ladder_fourths bits k).lower
  rw [Nat.mod_eq_of_lt fits] at lower
  generalize (ladder a24 bits k (-1)).x2 = x, (ladder a24 bits k (-1)).z2 = z at lower
  cases lower with
  | infinity _ _ => rw [inv_zero, mul_zero]
  | itself odd _ => omega
  | middle half _ => omega

/-- No point of the curve has this u. -/
theorem uCoordinate_ne_minus_one (p : Point edwards) : uCoordinate p ≠ -1 := by
  intro twist
  by_cases one : 1 - p.y = 0
  · rw [uCoordinate, one, div_zero] at twist
    exact one_ne_zero (neg_eq_zero.mp twist.symm)
  · rw [uCoordinate, div_eq_iff one] at twist
    apply two_ne_zero_P
    linear_combination twist

/-! What every private key makes of these points. -/

/-- Every private key and every public string. If the string stands for a point of the curve,
the secret is the zero string exactly when twice the clamped key takes the point to the neutral
one; the points of order 1, 2, 4 and 8 are taken there by every key. The string with u = -1
stands for no point of the curve, and its secret is the zero string too. -/
theorem zero_secret_exactly (scalar point : Vector UInt8 32) :
    (∀ p : Point edwards, UOf point.toList p →
      (curve25519Eval scalar.toList point.toList = List.replicate 32 0 ↔ (2 * decodeScalar scalar.toList) • p = 0) ∧
        (8 • p = 0 → curve25519Eval scalar.toList point.toList = List.replicate 32 0)) ∧
      (decodeUCoordinate point.toList = -1 →
        (∀ p : Point edwards, ¬UOf point.toList p) ∧ curve25519Eval scalar.toList point.toList = List.replicate 32 0) := by
  refine ⟨fun p stands => ?_, fun twist => ⟨fun p stands => uCoordinate_ne_minus_one p (stands.symm.trans twist), ?_⟩⟩
  · have exactly : curve25519Eval scalar.toList point.toList = List.replicate 32 0 ↔
        (2 * decodeScalar scalar.toList) • p = 0 := by
      rw [curve25519Eval_uOf Vector.length_toList Vector.length_toList stands, encode_zero_iff, uCoordinate_zero_iff,
        mul_nsmul', two_nsmul]
    refine ⟨exactly, fun order => exactly.mpr ?_⟩
    have eights : 8 ∣ 2 * decodeScalar scalar.toList := by
      unfold decodeScalar
      omega
    obtain ⟨count, factor⟩ := eights
    rw [factor, mul_nsmul, order, nsmul_zero]
  · have fours : 4 ∣ decodeScalar scalar.toList := by
      unfold decodeScalar
      omega
    rw [curve25519Eval_ladder Vector.length_toList Vector.length_toList, twist,
      ladder_minus_one (decodeScalar_fits scalar.toList) fours, encode_zero_iff]

end Coalesce.LowOrder
