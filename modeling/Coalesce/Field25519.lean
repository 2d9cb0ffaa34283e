import Coalesce.Library.BitLoop
import Coalesce.Library.Collect
import Coalesce.Library.WordBytes

/-! Arithmetic modulo 2^255 - 19 on five limbs of 51 bits, from fe25519.c. The
arithmetic does not reduce fully; `fe25519Tobytes` does. -/

namespace Coalesce.Field25519
open Library.BitLoop Library.Collect Library.WordBytes

/-- `fe25519`, `uint64_t[5]`. -/
structure Fe25519 where
  l0 : BitVec 64
  l1 : BitVec 64
  l2 : BitVec 64
  l3 : BitVec 64
  l4 : BitVec 64
  deriving DecidableEq, Repr

def MASK51 : BitVec 64 := 0x7FFFFFFFFFFFF

/-- 2p. -/
def P2 : Fe25519 := ⟨(1 <<< 52) - 38, (1 <<< 52) - 2, (1 <<< 52) - 2, (1 <<< 52) - 2, (1 <<< 52) - 2⟩

/-- p - 2. -/
def FE25519_P_MINUS_2 : List UInt8 := 0xeb :: List.replicate 30 0xff ++ [0x7f]

/-- (p + 3) / 8. -/
def FE25519_P58_EXP : List UInt8 := 0xfe :: List.replicate 30 0xff ++ [0x0f]

/-- (p - 1) / 4. -/
def FE25519_P14_EXP : List UInt8 := 0xfb :: List.replicate 30 0xff ++ [0x1f]

def fe25519Add (a b : Fe25519) : Fe25519 := ⟨a.l0 + b.l0, a.l1 + b.l1, a.l2 + b.l2, a.l3 + b.l3, a.l4 + b.l4⟩

def fe25519Sub (a b : Fe25519) : Fe25519 :=
  ⟨a.l0 + P2.l0 - b.l0, a.l1 + P2.l1 - b.l1, a.l2 + P2.l2 - b.l2, a.l3 + P2.l3 - b.l3, a.l4 + P2.l4 - b.l4⟩

def fe25519SetZero : Fe25519 := ⟨0, 0, 0, 0, 0⟩

def fe25519SetOne : Fe25519 := { fe25519SetZero with l0 := 1 }

/-- The carries of 64-bit limbs, each into the next and the last one times 19 into the first. -/
def carryPass (a : Fe25519) : Fe25519 :=
  let l1 := a.l1 + (a.l0 >>> 51)
  let l2 := a.l2 + (l1 >>> 51)
  let l3 := a.l3 + (l2 >>> 51)
  let l4 := a.l4 + (l3 >>> 51)
  ⟨(a.l0 &&& MASK51) + (l4 >>> 51) * 19, l1 &&& MASK51, l2 &&& MASK51, l3 &&& MASK51, l4 &&& MASK51⟩

/-- Five columns of a product, `u128`. -/
structure Columns where
  t0 : BitVec 128
  t1 : BitVec 128
  t2 : BitVec 128
  t3 : BitVec 128
  t4 : BitVec 128

/-- `(uint64_t)(v & MASK51)` -/
def lowLimb (v : BitVec 128) : BitVec 64 := (v &&& MASK51.setWidth 128).setWidth 64

/-- From columns to limbs: `c = v >> 51` goes on to the next column, then one pass of limb carries. -/
def carryColumns (t : Columns) : Fe25519 :=
  let v0 := t.t0
  let v1 := t.t1 + (v0 >>> 51)
  let v2 := t.t2 + (v1 >>> 51)
  let v3 := t.t3 + (v2 >>> 51)
  let v4 := t.t4 + (v3 >>> 51)
  carryPass ⟨lowLimb v0 + ((v4 >>> 51) * 19).setWidth 64, lowLimb v1, lowLimb v2, lowLimb v3, lowLimb v4⟩

/-- `(u128)a * (u128)b` -/
def mulWide (a b : BitVec 64) : BitVec 128 := a.setWidth 128 * b.setWidth 128

/-- `t[i + j] += a[i] * b[j]`, then the columns from `t[5]` on folded down times 19. -/
def products (a b : Fe25519) : Columns :=
  let t0 := mulWide a.l0 b.l0
  let t1 := mulWide a.l0 b.l1 + mulWide a.l1 b.l0
  let t2 := mulWide a.l0 b.l2 + mulWide a.l1 b.l1 + mulWide a.l2 b.l0
  let t3 := mulWide a.l0 b.l3 + mulWide a.l1 b.l2 + mulWide a.l2 b.l1 + mulWide a.l3 b.l0
  let t4 := mulWide a.l0 b.l4 + mulWide a.l1 b.l3 + mulWide a.l2 b.l2 + mulWide a.l3 b.l1 + mulWide a.l4 b.l0
  let t5 := mulWide a.l1 b.l4 + mulWide a.l2 b.l3 + mulWide a.l3 b.l2 + mulWide a.l4 b.l1
  let t6 := mulWide a.l2 b.l4 + mulWide a.l3 b.l3 + mulWide a.l4 b.l2
  let t7 := mulWide a.l3 b.l4 + mulWide a.l4 b.l3
  let t8 := mulWide a.l4 b.l4
  ⟨t0 + t5 * 19, t1 + t6 * 19, t2 + t7 * 19, t3 + t8 * 19, t4⟩

def fe25519Mul (a b : Fe25519) : Fe25519 := carryColumns (products a b)

def fe25519Sq (a : Fe25519) : Fe25519 := fe25519Mul a a

def fe25519Mul121666 (a : Fe25519) : Fe25519 :=
  carryColumns ⟨mulWide a.l0 121666, mulWide a.l1 121666, mulWide a.l2 121666, mulWide a.l3 121666, mulWide a.l4 121666⟩

/-- The two elements, exchanged under a mask of all ones if `swap` is not 0. -/
def fe25519Cswap (a b : Fe25519) (swap : ℕ) : Fe25519 × Fe25519 :=
  let mask : BitVec 64 := 0 - (if swap ≠ 0 then 1 else 0)
  let x : Fe25519 := ⟨mask &&& (a.l0 ^^^ b.l0), mask &&& (a.l1 ^^^ b.l1), mask &&& (a.l2 ^^^ b.l2),
    mask &&& (a.l3 ^^^ b.l3), mask &&& (a.l4 ^^^ b.l4)⟩
  (⟨a.l0 ^^^ x.l0, a.l1 ^^^ x.l1, a.l2 ^^^ x.l2, a.l3 ^^^ x.l3, a.l4 ^^^ x.l4⟩,
    ⟨b.l0 ^^^ x.l0, b.l1 ^^^ x.l1, b.l2 ^^^ x.l2, b.l3 ^^^ x.l3, b.l4 ^^^ x.l4⟩)

/-- Square and multiply; the exponent is little-endian. -/
def fe25519Pow (a : Fe25519) (e : List UInt8) : Fe25519 :=
  bitsDown (fun r bit => if bitAt e bit ≠ 0 then fe25519Mul (fe25519Sq r) a else fe25519Sq r) 256 fe25519SetOne

def fe25519Invert (a : Fe25519) : Fe25519 := fe25519Pow a FE25519_P_MINUS_2

/-! Bytes. -/

def fe25519Frombytes (bytes : List UInt8) : Fe25519 :=
  let x0 := loadWordLe 64 bytes
  let x1 := loadWordLe 64 (bytes.drop 8)
  let x2 := loadWordLe 64 (bytes.drop 16)
  let x3 := loadWordLe 64 (bytes.drop 24)
  { l0 := x0 &&& MASK51
    l1 := ((x0 >>> 51) ||| (x1 <<< 13)) &&& MASK51
    l2 := ((x1 >>> 38) ||| (x2 <<< 26)) &&& MASK51
    l3 := ((x2 >>> 25) ||| (x3 <<< 39)) &&& MASK51
    l4 := (x3 >>> 12) &&& MASK51 }

/-- Adds 19 without wrapping around: the limbs and the carry out of the last one. -/
def plus19 (a : Fe25519) : Fe25519 × BitVec 64 :=
  let l0 := a.l0 + 19
  let l1 := a.l1 + (l0 >>> 51)
  let l2 := a.l2 + (l1 >>> 51)
  let l3 := a.l3 + (l2 >>> 51)
  let l4 := a.l4 + (l3 >>> 51)
  (⟨l0 &&& MASK51, l1 &&& MASK51, l2 &&& MASK51, l3 &&& MASK51, l4 &&& MASK51⟩, l4 >>> 51)

/-- `(in & ~mask) | (t & mask)` with the mask `0 - c`. -/
def select (a t : Fe25519) (c : BitVec 64) : Fe25519 :=
  let mask := 0 - c
  ⟨(a.l0 &&& ~~~mask) ||| (t.l0 &&& mask), (a.l1 &&& ~~~mask) ||| (t.l1 &&& mask),
    (a.l2 &&& ~~~mask) ||| (t.l2 &&& mask), (a.l3 &&& ~~~mask) ||| (t.l3 &&& mask),
    (a.l4 &&& ~~~mask) ||| (t.l4 &&& mask)⟩

/-- 51-bit limbs put next to each other in 64-bit words. -/
def packWords (a : Fe25519) : List UInt8 :=
  storeWordLe (a.l0 ||| (a.l1 <<< 51)) ++ storeWordLe ((a.l1 >>> 13) ||| (a.l2 <<< 38)) ++
    storeWordLe ((a.l2 >>> 26) ||| (a.l3 <<< 25)) ++ storeWordLe ((a.l3 >>> 39) ||| (a.l4 <<< 12))

def fe25519Tobytes (a : Fe25519) : List UInt8 :=
  let carried := carryPass (carryPass a)
  let (t, c) := plus19 carried
  packWords (select carried t c)

def fe25519Iszero (a : Fe25519) : Bool := collect (fun i => (fe25519Tobytes a).getD i 0) 32 == 0

/-- `b[0] & 1` -/
def fe25519Parity (a : Fe25519) : ℕ := ((fe25519Tobytes a).getD 0 0 &&& 1).toNat

end Coalesce.Field25519
