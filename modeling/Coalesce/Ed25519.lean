import Coalesce.Curve25519
import Coalesce.Scalar25519
import Coalesce.Sha512

/-! Ed25519 from ed25519.c: extended coordinates over the limb arithmetic, the ladder,
point compression, key derivation, signing and verification. -/

namespace Coalesce.Ed25519
open Library.BitLoop Library.Collect Field25519 Curve25519 Scalar25519 Sha512

def ED25519_PUBLIC_KEY_SIZE : ℕ := 32
def ED25519_SEED_SIZE : ℕ := 32

structure GeP3 where
  X : Fe25519
  Y : Fe25519
  Z : Fe25519
  T : Fe25519

structure EdCtx where
  d : Fe25519
  d2 : Fe25519
  sqrtm1 : Fe25519

def feFromU64 (v : BitVec 64) : Fe25519 := { fe25519SetZero with l0 := v }

def feNeg (a : Fe25519) : Fe25519 := fe25519Sub fe25519SetZero a

def feEqual (a b : Fe25519) : Bool := differences (fe25519Tobytes a) (fe25519Tobytes b) 32 == 0

def geIdentity : GeP3 := ⟨fe25519SetZero, fe25519SetOne, fe25519SetOne, fe25519SetZero⟩

/-- Every operand is read before the first coordinate is written, so the sum may overwrite one. -/
def geAdd (p q : GeP3) (c : EdCtx) : GeP3 :=
  let t := fe25519Sub p.Y p.X
  let u := fe25519Sub q.Y q.X
  let a := fe25519Mul t u
  let t := fe25519Add p.Y p.X
  let u := fe25519Add q.Y q.X
  let b := fe25519Mul t u
  let t := fe25519Mul p.T q.T
  let cc := fe25519Mul t c.d2
  let t := fe25519Mul p.Z q.Z
  let d := fe25519Add t t
  let e := fe25519Sub b a
  let f := fe25519Sub d cc
  let g := fe25519Add d cc
  let h := fe25519Add b a
  { X := fe25519Mul e f
    Y := fe25519Mul g h
    T := fe25519Mul e h
    Z := fe25519Mul f g }

def geNegate (p : GeP3) : GeP3 := ⟨feNeg p.X, p.Y, p.Z, feNeg p.T⟩

def geCswap (a b : GeP3) (swap : ℕ) : GeP3 × GeP3 :=
  let X := fe25519Cswap a.X b.X swap
  let Y := fe25519Cswap a.Y b.Y swap
  let Z := fe25519Cswap a.Z b.Z swap
  let T := fe25519Cswap a.T b.T swap
  (⟨X.1, Y.1, Z.1, T.1⟩, ⟨X.2, Y.2, Z.2, T.2⟩)

/-- One round of the ladder on `r0` and `r1`. -/
def geRound (scalar : List UInt8) (c : EdCtx) (r : GeP3 × GeP3) (bit : ℕ) : GeP3 × GeP3 :=
  let b := bitAt scalar bit
  let (r0, r1) := geCswap r.1 r.2 b
  let t := geAdd r0 r1 c
  let r0 := geAdd r0 r0 c
  geCswap r0 t b

def geScalarmult (p : GeP3) (scalar : List UInt8) (c : EdCtx) : GeP3 :=
  (bitsDown (geRound scalar c) 255 (geIdentity, p)).1

/-- `out[31] |= parity << 7` -/
def geTobytes (p : GeP3) : List UInt8 :=
  let zi := fe25519Invert p.Z
  let x := fe25519Mul p.X zi
  let y := fe25519Mul p.Y zi
  (fe25519Tobytes y).modify 31 (· ||| UInt8.ofNat (fe25519Parity x <<< 7))

/-- The candidate for a square root of `x2`, times the root of -1 where needed; -1 is `none`. -/
def sqrtCandidate (x2 : Fe25519) (c : EdCtx) : Option Fe25519 :=
  let cand := fe25519Pow x2 FE25519_P58_EXP
  let cand2 := fe25519Sq cand
  if feEqual cand2 x2 then some cand
  else
    let u := feNeg x2
    if feEqual cand2 u then some (fe25519Mul cand c.sqrtm1) else none

/-- `u / v` with `u = y^2 - 1` and `v = d*y^2 + 1`. -/
def xSquared (y : Fe25519) (c : EdCtx) : Fe25519 :=
  let y2 := fe25519Sq y
  let u := fe25519Sub y2 (feFromU64 1)
  let v := fe25519Add (fe25519Mul y2 c.d) (feFromU64 1)
  let inv_v := fe25519Invert v
  fe25519Mul u inv_v

/-- The root with the parity `sign`; -1 is `none`. -/
def withSign (x y : Fe25519) (sign : ℕ) : Option GeP3 :=
  if fe25519Iszero x && sign != 0 then none
  else
    let x := if fe25519Parity x ≠ sign then feNeg x else x
    some ⟨x, y, fe25519SetOne, fe25519Mul x y⟩

def geFrombytes (input : List UInt8) (c : EdCtx) : Option GeP3 :=
  let sign := ((input.getD 31 0).toNat >>> 7) &&& 1
  let yb := input.modify 31 (· &&& 0x7F)
  let y := fe25519Frombytes yb
  (sqrtCandidate (xSquared y c) c).bind fun x => withSign x y sign

def ED25519_B_COMPRESSED : List UInt8 := 0x58 :: List.replicate 31 0x66

def edInit : EdCtx :=
  let num := feNeg (feFromU64 121665)
  let inv_den := fe25519Invert (feFromU64 121666)
  let d := fe25519Mul num inv_den
  { d := d
    d2 := fe25519Add d d
    sqrtm1 := fe25519Pow (feFromU64 2) FE25519_P14_EXP }

/-- `az`, all 64 bytes of the digest, and the scalar `a`, clamped as in curve25519.c. -/
def expandSeed (seed : List UInt8) : List UInt8 × List UInt8 :=
  let az := sha512 seed
  (az, clamp (az.take 32))

/-- `pub`, once the base point is read. -/
def pubkeyBytes (B : GeP3) (c : EdCtx) (seed : List UInt8) : List UInt8 :=
  let a := (expandSeed seed).2
  let A := geScalarmult B a c
  geTobytes A

/-- The public key; -1 is `none`. -/
def ed25519PubkeyFromSeed (seed : List UInt8) : Option (List UInt8) :=
  (geFrombytes ED25519_B_COMPRESSED edInit).map fun B => pubkeyBytes B edInit seed

/-- `sha512_init`, an update for each part, `sha512_final`. -/
def hashParts (parts : List (List UInt8)) : List UInt8 := sha512Final (parts.foldl sha512Update (sha512Init storage))

/-- `sig`, once the base point is read. -/
def signatureBytes (B : GeP3) (c : EdCtx) (seed msg : List UInt8) : List UInt8 :=
  let az := (expandSeed seed).1
  let a := (expandSeed seed).2
  let r := scReduce (hashParts [az.drop 32, msg])
  let R := geTobytes (geScalarmult B r c)
  let A := geTobytes (geScalarmult B a c)
  let k := scReduce (hashParts [R, A, msg])
  let s := scMuladd k a r
  R ++ s

/-- The signature; -1 is `none`. -/
def ed25519Sign (seed msg : List UInt8) : Option (List UInt8) :=
  (geFrombytes ED25519_B_COMPRESSED edInit).map fun B => signatureBytes B edInit seed msg

/-- `[S]B - [k]A == R`, 0 or -1. -/
def checkEquation (B A : GeP3) (c : EdCtx) (pub sig msg : List UInt8) : ℤ :=
  let k := scReduce (hashParts [sig.take 32, pub, msg])
  let SB := geScalarmult B (sig.drop 32) c
  let kA := geScalarmult A k c
  let negkA := geNegate kA
  let Q := geAdd SB negkA c
  let Qb := geTobytes Q
  if differences Qb sig 32 == 0 then 0 else -1

/-- 0 or -1. -/
def ed25519Verify (pub sig msg : List UInt8) : ℤ :=
  if !scLtL (sig.drop 32) then -1
  else
    ((geFrombytes ED25519_B_COMPRESSED edInit).bind fun B =>
      (geFrombytes pub edInit).map fun A => checkEquation B A edInit pub sig msg).getD (-1)

end Coalesce.Ed25519
