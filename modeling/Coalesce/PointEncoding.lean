import Coalesce.Edwards25519
import Coalesce.Library.ByteNumber
import Coalesce.Library.PointCompression

/-! Points of the curve as 32 bytes: the canonical y-coordinate, and the parity of x in the
top bit. -/

namespace Coalesce.PointEncoding
open Library.ByteNumber Library.EdwardsCurve Library.PointCompression Edwards25519 Primes25519

def encode (p : Point edwards) : List UInt8 := leBytes 32 (p.y.val + 2 ^ 255 * (p.x.val % 2))

/-- The low 255 bits, modulo p. -/
def decodeY (bytes : List UInt8) : ZMod P := (leNat bytes % 2 ^ 255 : ℕ)

/-- The top bit. -/
def signBit (bytes : List UInt8) : ℕ := leNat bytes / 2 ^ 255

theorem encode_length (p : Point edwards) : (encode p).length = 32 := leBytes_length 32 _

theorem val_lt (x : ZMod P) : x.val < 2 ^ 255 := Nat.lt_of_lt_of_le (ZMod.val_lt x) (by decide)

theorem leNat_encode (p : Point edwards) : leNat (encode p) = p.y.val + 2 ^ 255 * (p.x.val % 2) := by
  have y := val_lt p.y
  rw [encode, leNat_leBytes, Nat.mod_eq_of_lt (by omega)]

theorem decodeY_encode (p : Point edwards) : decodeY (encode p) = p.y := by
  have y := val_lt p.y
  rw [decodeY, leNat_encode, show (p.y.val + 2 ^ 255 * (p.x.val % 2)) % 2 ^ 255 = p.y.val by omega, ZMod.natCast_val,
    ZMod.cast_id]

theorem signBit_encode (p : Point edwards) : signBit (encode p) = p.x.val % 2 := by
  have y := val_lt p.y
  rw [signBit, leNat_encode]
  omega

/-- Of a nonzero number and its negative, one is odd. -/
theorem parity_neg {x : ZMod P} (nonzero : x ≠ 0) : (-x).val % 2 = 1 - x.val % 2 := by
  have bound := ZMod.val_lt x
  have odd : P % 2 = 1 := by decide
  rw [ZMod.neg_val, if_neg nonzero]
  omega

/-- The y-coordinate and the parity of x determine the point. -/
theorem eq_of_parity {p q : Point edwards} (y : p.y = q.y) (parity : p.x.val % 2 = q.x.val % 2) : p = q := by
  rcases eq_or_eq_neg y with same | opposite
  · exact same
  by_cases zero : q.x = 0
  · refine Point.ext ?_ y
    rw [opposite, neg_x, zero, neg_zero]
  · rw [opposite, neg_x, parity_neg zero] at parity
    omega

theorem encode_injective {p q : Point edwards} (same : encode p = encode q) : p = q := by
  refine eq_of_parity ?_ ?_
  · rw [← decodeY_encode p, same, decodeY_encode]
  · rw [← signBit_encode p, same, signBit_encode]

end Coalesce.PointEncoding
