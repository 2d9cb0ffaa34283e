import Coalesce.FieldBytes
import Coalesce.Library.MontgomeryLadder

/-! X25519 from curve25519.c, against the Montgomery ladder of RFC 7748. -/

namespace Coalesce.Curve25519
open Library.ByteNumber Library.BitLoop Field25519 FieldArithmetic FieldBytes Primes25519

def CURVE25519_KEY_SIZE : ℕ := 32

/-- `e[0] &= 248; e[31] &= 127; e[31] |= 64;` -/
def clamp (scalar : List UInt8) : List UInt8 :=
  ((scalar.modify 0 (· &&& 248)).modify 31 (· &&& 127)).modify 31 (· ||| 64)

structure LadderPoints where
  x2 : Fe25519
  z2 : Fe25519
  x3 : Fe25519
  z3 : Fe25519

def LadderPoints.cswap (p : LadderPoints) (swap : ℕ) : LadderPoints :=
  { x2 := (fe25519Cswap p.x2 p.x3 swap).1
    x3 := (fe25519Cswap p.x2 p.x3 swap).2
    z2 := (fe25519Cswap p.z2 p.z3 swap).1
    z3 := (fe25519Cswap p.z2 p.z3 swap).2 }

/-- The arithmetic of one round. -/
def LadderPoints.advance (x1 : Fe25519) (p : LadderPoints) : LadderPoints :=
  let A := fe25519Add p.x2 p.z2
  let AA := fe25519Sq A
  let B := fe25519Sub p.x2 p.z2
  let BB := fe25519Sq B
  let E := fe25519Sub AA BB
  let C := fe25519Add p.x3 p.z3
  let D := fe25519Sub p.x3 p.z3
  let DA := fe25519Mul D A
  let CB := fe25519Mul C B
  let t1 := fe25519Add DA CB
  let x3 := fe25519Sq t1
  let t2 := fe25519Sub DA CB
  let t2 := fe25519Sq t2
  let z3 := fe25519Mul x1 t2
  let x2 := fe25519Mul AA BB
  let t1 := fe25519Mul121666 E
  let t1 := fe25519Add BB t1
  let z2 := fe25519Mul E t1
  ⟨x2, z2, x3, z3⟩

structure LadderState where
  points : LadderPoints
  swap : ℕ

def ladderRound (x1 : Fe25519) (e : List UInt8) (s : LadderState) (t : ℕ) : LadderState :=
  let kT := bitAt e t
  ⟨(s.points.cswap (s.swap ^^^ kT)).advance x1, kT⟩

def curve25519Eval (scalar point : List UInt8) : List UInt8 :=
  let e := clamp scalar
  let x1 := fe25519Frombytes point
  let s := bitsDown (ladderRound x1 e) 255 ⟨⟨fe25519SetOne, fe25519SetZero, x1, fe25519SetOne⟩, 0⟩
  let last := s.points.cswap s.swap
  let zi := fe25519Invert last.z2
  let res := fe25519Mul last.x2 zi
  fe25519Tobytes res

/-- `base_point` -/
def basePoint : List UInt8 := 9 :: List.replicate 31 0

def curve25519Base (scalar : List UInt8) : List UInt8 := curve25519Eval scalar basePoint

/-! RFC 7748. -/

/-- Bits 3 to 253 of the string, and bit 254 set. -/
def decodeScalar (k : List UInt8) : ℕ := leNat k % 2 ^ 254 / 8 * 8 + 2 ^ 254

/-- The top bit is masked, and the number taken modulo p. -/
def decodeUCoordinate (u : List UInt8) : ZMod P := (leNat u % 2 ^ 255 : ℕ)

def encodeUCoordinate (u : ZMod P) : List UInt8 := leBytes 32 u.val

def a24 : ZMod P := (121665 : ℕ)

def x25519 (k u : List UInt8) : List UInt8 :=
  let last := Library.MontgomeryLadder.ladder a24 255 (decodeScalar k) (decodeUCoordinate u)
  encodeUCoordinate (last.x2 * last.z2 ^ (P - 2))

/-! Clamping as arithmetic. -/

theorem clamp_length (scalar : List UInt8) : (clamp scalar).length = scalar.length := by simp [clamp]

private theorem masks : ∀ n < 256, n &&& 248 = n / 8 * 8 ∧ n &&& 127 = n % 128 ∧ n ||| 64 = n / 128 * 128 + n % 64 + 64 := by
  decide +kernel

private theorem masks_toNat (n : ℕ) : (UInt8.ofNat n &&& 248).toNat = n % 256 / 8 * 8 ∧
    (UInt8.ofNat n &&& 127).toNat = n % 128 ∧ (UInt8.ofNat n ||| 64).toNat = n % 256 / 128 * 128 + n % 64 + 64 := by
  obtain ⟨low, high, set⟩ := masks (n % 256) (Nat.mod_lt _ (by decide))
  refine ⟨?_, ?_, ?_⟩
  · rw [UInt8.toNat_and, UInt8.toNat_ofNat', ← low]
    rfl
  · rw [UInt8.toNat_and, UInt8.toNat_ofNat', ← Nat.mod_mod_of_dvd n (show 128 ∣ 256 by decide), ← high]
    rfl
  · rw [UInt8.toNat_or, UInt8.toNat_ofNat', ← Nat.mod_mod_of_dvd n (show 64 ∣ 256 by decide), ← set]
    rfl

theorem leNat_clamp {scalar : List UInt8} (length : scalar.length = 32) : leNat (clamp scalar) = decodeScalar scalar := by
  have bound := leNat_lt scalar
  have first := leNat_modify (i := 0) (show 0 < scalar.length by omega) (· &&& 248)
  have second := leNat_modify (i := 31) (show 31 < (scalar.modify 0 (· &&& 248)).length by simp [length]) (· &&& 127)
  have third := leNat_modify (i := 31)
    (show 31 < ((scalar.modify 0 (· &&& 248)).modify 31 (· &&& 127)).length by simp [length]) (· ||| 64)
  simp only [masks_toNat] at first second third
  rw [length] at bound
  rw [clamp, decodeScalar]
  omega

end Coalesce.Curve25519
