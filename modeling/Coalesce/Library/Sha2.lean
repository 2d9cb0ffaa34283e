import Coalesce.Library.BlockHash
import Coalesce.Library.ByteNumber

/-! The secure hash standard (FIPS 180-4) for SHA-256 and SHA-512. Both are one
function of the word width and of the rotation amounts. -/

namespace Coalesce.Library.Sha2
open BlockHash ByteNumber

/-- The numbers in which the two hashes differ. -/
structure Shape where
  width : Nat
  rounds : Nat
  bigSigma0 : Nat × Nat × Nat
  bigSigma1 : Nat × Nat × Nat
  smallSigma0 : Nat × Nat × Nat
  smallSigma1 : Nat × Nat × Nat
  deriving DecidableEq, Repr

abbrev sha256Shape : Shape := ⟨32, 64, (2, 13, 22), (6, 11, 25), (7, 18, 3), (17, 19, 10)⟩
abbrev sha512Shape : Shape := ⟨64, 80, (28, 34, 39), (14, 18, 41), (1, 8, 7), (19, 61, 6)⟩

/-- The eight words of a hash value, also used as working variables. -/
structure Words (w : Nat) where
  a : BitVec w
  b : BitVec w
  c : BitVec w
  d : BitVec w
  e : BitVec w
  f : BitVec w
  g : BitVec w
  h : BitVec w
  deriving DecidableEq, Repr

def Words.toList {w : Nat} (s : Words w) : List (BitVec w) := [s.a, s.b, s.c, s.d, s.e, s.f, s.g, s.h]

def Words.add {w : Nat} (s t : Words w) : Words w :=
  ⟨s.a + t.a, s.b + t.b, s.c + t.c, s.d + t.d, s.e + t.e, s.f + t.f, s.g + t.g, s.h + t.h⟩

section
variable {w : Nat}

def rotr (x : BitVec w) (n : Nat) : BitVec w := (x >>> n) ||| (x <<< (w - n))
def ch (x y z : BitVec w) : BitVec w := (x &&& y) ^^^ (~~~x &&& z)
def maj (x y z : BitVec w) : BitVec w := (x &&& y) ^^^ (x &&& z) ^^^ (y &&& z)

def bigSigma (r : Nat × Nat × Nat) (x : BitVec w) : BitVec w := rotr x r.1 ^^^ rotr x r.2.1 ^^^ rotr x r.2.2
def smallSigma (r : Nat × Nat × Nat) (x : BitVec w) : BitVec w := rotr x r.1 ^^^ rotr x r.2.1 ^^^ (x >>> r.2.2)

end

variable (shape : Shape)

/-- The message schedule of a block whose first sixteen words are `m`. -/
def schedule (m : Nat → BitVec shape.width) (t : Nat) : BitVec shape.width :=
  if t < 16 then m t
  else smallSigma shape.smallSigma1 (schedule m (t - 2)) + schedule m (t - 7) +
    smallSigma shape.smallSigma0 (schedule m (t - 15)) + schedule m (t - 16)
termination_by t

def round (k word : BitVec shape.width) (s : Words shape.width) : Words shape.width :=
  let t1 := s.h + bigSigma shape.bigSigma1 s.e + ch s.e s.f s.g + k + word
  let t2 := bigSigma shape.bigSigma0 s.a + maj s.a s.b s.c
  ⟨t1 + t2, s.a, s.b, s.c, s.d + t1, s.e, s.f, s.g⟩

/-- The largest number below `2 ^ bits` above `low` whose `k`-th power is at most `n`,
bit by bit from the top. -/
def root (k n : Nat) : (bits low : Nat) → Nat
  | 0, low => low
  | i + 1, low => root k n i (if (low + 2 ^ i) ^ k ≤ n then low + 2 ^ i else low)

/-- The first `w` bits of the fractional part of the `k`-th root of a small number. -/
def rootFraction (w k n : Nat) : BitVec w := BitVec.ofNat w (root k (n * 2 ^ (k * w)) (w + 5) 0)

def primesBelow (n : Nat) : List Nat :=
  (List.range n).filter fun p => 2 ≤ p && (List.range' 2 (p - 2)).all fun d => p % d ≠ 0

/-- Cube roots of the first primes; 409 is the eightieth. -/
def constants : List (BitVec shape.width) :=
  ((primesBelow 410).take shape.rounds).map (rootFraction shape.width 3)

def initial : Words shape.width :=
  let word := rootFraction shape.width 2
  ⟨word 2, word 3, word 5, word 7, word 11, word 13, word 17, word 19⟩

def bytesPerWord : Nat := shape.width / 8

/-- Word `t` of a block, most significant byte first. -/
def blockWord (block : List UInt8) (t : Nat) : BitVec shape.width :=
  BitVec.ofNat shape.width (beNat ((block.drop (t * bytesPerWord shape)).take (bytesPerWord shape)))

def compress (s : Words shape.width) (block : List UInt8) : Words shape.width :=
  s.add ((List.range shape.rounds).foldl
    (fun v t => round shape ((constants shape).getD t 0) (schedule shape (blockWord shape block) t) v) s)

def blockSize : Nat := 16 * bytesPerWord shape

/-- `0x80`, zeros and the bit length in two words. -/
def padded (message : List UInt8) : List UInt8 :=
  message ++ padding (blockSize shape) message.length (beBytes (2 * bytesPerWord shape) (8 * message.length))

def digestBytes (s : Words shape.width) : List UInt8 :=
  s.toList.flatMap fun word => beBytes (bytesPerWord shape) word.toNat

def hash (message : List UInt8) : List UInt8 :=
  digestBytes shape (foldBlocks (compress shape) (blockSize shape) (initial shape) (padded shape message)).1

def sha256 : List UInt8 → List UInt8 := hash sha256Shape
def sha512 : List UInt8 → List UInt8 := hash sha512Shape

theorem digestBytes_length (s : Words shape.width) :
    (digestBytes shape s).length = 8 * bytesPerWord shape := by
  simp only [digestBytes, Words.toList, List.flatMap_cons, List.flatMap_nil, List.length_append,
    beBytes_length, List.length_nil]
  omega

theorem sha256_length (message : List UInt8) : (sha256 message).length = 32 := digestBytes_length sha256Shape _
theorem sha512_length (message : List UInt8) : (sha512 message).length = 64 := digestBytes_length sha512Shape _

/-! Keyed hashing (RFC 2104) over SHA-256. -/

def hmacKey (key : List UInt8) : List UInt8 :=
  let short := if key.length > 64 then sha256 key else key
  short ++ List.replicate (64 - short.length) 0

theorem hmacKey_length (key : List UInt8) : (hmacKey key).length = 64 := by
  have short : (if key.length > 64 then sha256 key else key).length ≤ 64 := by
    split_ifs with long
    · rw [sha256_length]
      decide
    · omega
  simp only [hmacKey, List.length_append, List.length_replicate]
  omega

def hmacSha256 (key message : List UInt8) : List UInt8 :=
  sha256 ((hmacKey key).map (· ^^^ 0x5c) ++ sha256 ((hmacKey key).map (· ^^^ 0x36) ++ message))

end Coalesce.Library.Sha2
