import Coalesce.Curve25519
import Coalesce.Edwards25519
import Coalesce.Library.LadderCurve

/-! The limb-level ladder simulates the exact one, round by round; what both compute are
multiples of points, from which the agreement of two keys follows. -/

namespace Coalesce.X25519
open Library.ByteNumber Library.BitLoop Field25519 FieldArithmetic FieldBytes Primes25519 Curve25519
open Library.LadderCurve Library.EdwardsCurve Edwards25519
open Library.MontgomeryLadder (Points State step start start_eq ladder)

structure Simulates (c : LadderPoints) (f : Points (ZMod P)) : Prop where
  x2 : Rep 1 c.x2 f.x2
  z2 : Rep 1 c.z2 f.z2
  x3 : Rep 1 c.x3 f.x3
  z3 : Rep 1 c.z3 f.z3

variable {c : LadderPoints} {f : Points (ZMod P)}

theorem Simulates.cswap (related : Simulates c f) (swap : ℕ) : Simulates (c.cswap swap) (f.cswap swap) := by
  obtain ⟨x2, z2, x3, z3⟩ := related
  unfold LadderPoints.cswap Points.cswap
  simp only [fe25519Cswap_eq]
  split
  · exact ⟨x3, z3, x2, z2⟩
  · exact ⟨x2, z2, x3, z3⟩

theorem a24_succ : a24 + 1 = 121666 := by
  rw [a24, Nat.cast_ofNat]
  norm_num

/-- The code multiplies `BB + 121666 E`, the standard `AA + 121665 E`. -/
theorem Simulates.advance (related : Simulates c f) {x1 : Fe25519} {u : ZMod P} (base : Rep 1 x1 u) :
    Simulates (c.advance x1) (f.advance a24 u) := by
  obtain ⟨x2, z2, x3, z3⟩ := related
  have A := rep_add x2 z2 (by decide)
  have AA := rep_sq (A.mono (by decide))
  have B := rep_sub x2 z2 (by decide)
  have BB := rep_sq (B.mono (by decide))
  have E := rep_sub AA BB (by decide)
  have C := rep_add x3 z3 (by decide)
  have D := rep_sub x3 z3 (by decide)
  have DA := rep_mul (D.mono (by decide)) (A.mono (by decide))
  have CB := rep_mul (C.mono (by decide)) (B.mono (by decide))
  have sum := rep_add DA CB (by decide)
  have difference := rep_sq ((rep_sub DA CB (by decide)).mono (by decide))
  have scaled := rep_add BB (rep_mul121666 (E.mono (by decide))) (by decide)
  constructor
  · rw [Points.advance_x2]
    exact rep_mul (AA.mono (by decide)) (BB.mono (by decide))
  · rw [Points.advance_z2, a24_succ]
    exact rep_mul (E.mono (by decide)) (scaled.mono (by decide))
  · rw [Points.advance_x3]
    exact rep_sq (sum.mono (by decide))
  · rw [Points.advance_z3]
    exact rep_mul (base.mono (by decide)) (difference.mono (by decide))

/-- The same points, swapped or not at the same time. -/
structure InStep (c : LadderState) (f : State (ZMod P)) : Prop where
  points : Simulates c.points f.points
  swap : c.swap = f.swap

theorem InStep.round {c : LadderState} {f : State (ZMod P)} (related : InStep c f) {x1 : Fe25519} {u : ZMod P}
    (base : Rep 1 x1 u) {e : List UInt8} {k : ℕ} (scalar : leNat e = k) (t : ℕ) :
    InStep (ladderRound x1 e c t) (step a24 u k f t) := by
  have bit : bitAt e t = k / 2 ^ t % 2 := by rw [bitAt_eq, scalar]
  unfold ladderRound step
  simp only [bit, related.swap]
  exact ⟨(related.points.cswap _).advance base, rfl⟩

theorem simulates_start {x1 : Fe25519} {u : ZMod P} (base : Rep 1 x1 u) :
    Simulates ⟨fe25519SetOne, fe25519SetZero, x1, fe25519SetOne⟩ (start u) := by
  obtain ⟨x2, z2, x3, z3⟩ := start_eq u
  constructor
  · rw [x2]
    exact rep_one
  · rw [z2]
    exact rep_zero
  · rw [x3]
    exact base
  · rw [z3]
    exact rep_one

/-- The code computes the exact ladder on every scalar and every u-coordinate. -/
theorem curve25519Eval_ladder {scalar point : List UInt8} (scalar_length : scalar.length = 32)
    (point_length : point.length = 32) :
    curve25519Eval scalar point =
      encodeUCoordinate ((ladder a24 255 (decodeScalar scalar) (decodeUCoordinate point)).x2 *
        (ladder a24 255 (decodeScalar scalar) (decodeUCoordinate point)).z2⁻¹) := by
  have base : Rep 1 (fe25519Frombytes point) (decodeUCoordinate point) := rep_frombytes point_length
  have begun : InStep ⟨⟨fe25519SetOne, fe25519SetZero, fe25519Frombytes point, fe25519SetOne⟩, 0⟩
      ⟨start (decodeUCoordinate point), 0⟩ := ⟨simulates_start base, rfl⟩
  have loop := bitsDown_related InStep
    (fun _ _ t related => InStep.round related base (leNat_clamp scalar_length) t) 255 begun
  have last := loop.points.cswap
    (bitsDown (step a24 (decodeUCoordinate point) (decodeScalar scalar)) 255 ⟨start (decodeUCoordinate point), 0⟩).swap
  have quotient := rep_mul (last.x2.mono (by decide)) ((rep_invert (last.z2.mono (by decide))).mono (by decide))
  rw [curve25519Eval]
  simp only [loop.swap]
  rw [fe25519Tobytes_eq (quotient.mono (by decide))]
  rfl

theorem eval_refines_x25519 (scalar point : Vector UInt8 32) :
    curve25519Eval scalar.toList point.toList = x25519 scalar.toList point.toList := by
  rw [curve25519Eval_ladder Vector.length_toList Vector.length_toList, ← pow_P_sub_two]
  rfl

/-! Multiples of points. -/

theorem a24_constant : a24 * (1 + edwards.d) = -edwards.d := by
  change a24 * (1 + d) = -d
  rw [a24, Nat.cast_ofNat]
  linear_combination d_mul

theorem decodeScalar_fits (k : List UInt8) : decodeScalar k < 2 ^ 255 := by
  unfold decodeScalar
  omega

theorem decodeScalar_even (k : List UInt8) : 2 ∣ decodeScalar k := by
  unfold decodeScalar
  omega

theorem decode_encode (u : ZMod P) : decodeUCoordinate (encodeUCoordinate u) = u := by
  have below : u.val < 2 ^ 255 := Nat.lt_of_lt_of_le (ZMod.val_lt u) (by decide)
  rw [decodeUCoordinate, encodeUCoordinate, leNat_leBytes, Nat.mod_eq_of_lt (show u.val < 256 ^ 32 by omega),
    Nat.mod_eq_of_lt below, ZMod.natCast_val, ZMod.cast_id]

/-- From the u-coordinate of any point, the u-coordinate of its multiple. -/
theorem curve25519Eval_point {scalar : List UInt8} (length : scalar.length = 32) (p : Point edwards) :
    curve25519Eval scalar (encodeUCoordinate (uCoordinate p)) =
      encodeUCoordinate (uCoordinate (decodeScalar scalar • p)) := by
  rw [curve25519Eval_ladder length (by rw [encodeUCoordinate, leBytes_length]), decode_encode,
    ladder_quotient a24_constant p (decodeScalar_fits scalar) (decodeScalar_even scalar)]

theorem basePoint_eq : basePoint = encodeUCoordinate (uCoordinate B) := by
  have one : 1 - B.y ≠ 0 := fun zero => one_ne_zero (show (1 : ZMod P) = 0 by linear_combination 5 * zero + B_y)
  have nine : uCoordinate B = (9 : ℕ) := by
    rw [uCoordinate, div_eq_iff one, Nat.cast_ofNat]
    linear_combination 2 * B_y
  rw [encodeUCoordinate, nine, ZMod.val_natCast]
  decide

theorem curve25519Base_eq {scalar : List UInt8} (length : scalar.length = 32) :
    curve25519Base scalar = encodeUCoordinate (uCoordinate (decodeScalar scalar • B)) := by
  rw [curve25519Base, basePoint_eq, curve25519Eval_point length]

theorem key_agreement (a b : Vector UInt8 32) :
    curve25519Eval a.toList (curve25519Base b.toList) = curve25519Eval b.toList (curve25519Base a.toList) := by
  rw [curve25519Base_eq Vector.length_toList, curve25519Base_eq Vector.length_toList,
    curve25519Eval_point Vector.length_toList, curve25519Eval_point Vector.length_toList, ← mul_nsmul, ← mul_nsmul,
    Nat.mul_comm]

end Coalesce.X25519
