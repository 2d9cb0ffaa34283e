import Coalesce.ShaBlock

/-! SHA-512 as sha512.c computes it. -/

namespace Coalesce.Sha512
open Library.BlockHash Library.ByteNumber Library.WordBytes ShaBlock
open Library.Sha2 (Words Shape)

def SHA512_DIGEST_SIZE : Nat := 64
def SHA512_BLOCK_SIZE : Nat := 128

def K512 : List (BitVec 64) := [
  0x428a2f98d728ae22, 0x7137449123ef65cd, 0xb5c0fbcfec4d3b2f, 0xe9b5dba58189dbbc,
  0x3956c25bf348b538, 0x59f111f1b605d019, 0x923f82a4af194f9b, 0xab1c5ed5da6d8118,
  0xd807aa98a3030242, 0x12835b0145706fbe, 0x243185be4ee4b28c, 0x550c7dc3d5ffb4e2,
  0x72be5d74f27b896f, 0x80deb1fe3b1696b1, 0x9bdc06a725c71235, 0xc19bf174cf692694,
  0xe49b69c19ef14ad2, 0xefbe4786384f25e3, 0x0fc19dc68b8cd5b5, 0x240ca1cc77ac9c65,
  0x2de92c6f592b0275, 0x4a7484aa6ea6e483, 0x5cb0a9dcbd41fbd4, 0x76f988da831153b5,
  0x983e5152ee66dfab, 0xa831c66d2db43210, 0xb00327c898fb213f, 0xbf597fc7beef0ee4,
  0xc6e00bf33da88fc2, 0xd5a79147930aa725, 0x06ca6351e003826f, 0x142929670a0e6e70,
  0x27b70a8546d22ffc, 0x2e1b21385c26c926, 0x4d2c6dfc5ac42aed, 0x53380d139d95b3df,
  0x650a73548baf63de, 0x766a0abb3c77b2a8, 0x81c2c92e47edaee6, 0x92722c851482353b,
  0xa2bfe8a14cf10364, 0xa81a664bbc423001, 0xc24b8b70d0f89791, 0xc76c51a30654be30,
  0xd192e819d6ef5218, 0xd69906245565a910, 0xf40e35855771202a, 0x106aa07032bbd1b8,
  0x19a4c116b8d2d0c8, 0x1e376c085141ab53, 0x2748774cdf8eeb99, 0x34b0bcb5e19b48a8,
  0x391c0cb3c5c95a63, 0x4ed8aa4ae3418acb, 0x5b9cca4f7763e373, 0x682e6ff3d6b2b8a3,
  0x748f82ee5defb2fc, 0x78a5636f43172f60, 0x84c87814a1f0ab72, 0x8cc702081a6439ec,
  0x90befffa23631e28, 0xa4506cebde82bde9, 0xbef9a3f7b2c67915, 0xc67178f2e372532b,
  0xca273eceea26619c, 0xd186b8c721c0c207, 0xeada7dd6cde0eb1e, 0xf57d4f7fee6ed178,
  0x06f067aa72176fba, 0x0a637dc5a2c898a6, 0x113f9804bef90dae, 0x1b710b35131c471b,
  0x28db77f523047d84, 0x32caab7b40c72493, 0x3c9ebe0a15c9bebc, 0x431d67c49c100d4c,
  0x4cc5d4becb3e42b6, 0x597f299cfc657e2a, 0x5fcb6fab3ad6faec, 0x6c44198c4a475817]

abbrev rotations512 : Shape :=
  { width := 64, rounds := 80, bigSigma0 := (28, 34, 39), bigSigma1 := (14, 18, 41),
    smallSigma0 := (1, 8, 7), smallSigma1 := (19, 61, 6) }

def sha512Block (state : Words 64) (block : List UInt8) : Words 64 := shaBlock rotations512 K512 state block

/-- `sha512_ctx_t`. The bit length takes two words. -/
structure Sha512Ctx extends Hasher (Words 64) where
  bitsHi : BitVec 64
  bitsLo : BitVec 64

/-- The storage of the buffer keeps whatever it held. -/
def sha512Init (buf : List UInt8) : Sha512Ctx :=
  { state := ⟨0x6a09e667f3bcc908, 0xbb67ae8584caa73b, 0x3c6ef372fe94f82b, 0xa54ff53a5f1d36f1,
      0x510e527fade682d1, 0x9b05688c2b3e6c1f, 0x1f83d9abfb41bd6b, 0x5be0cd19137e2179⟩
    bitsHi := 0
    bitsLo := 0
    buf := buf
    buflen := 0 }

def sha512Update (ctx : Sha512Ctx) (data : List UInt8) : Sha512Ctx :=
  let len := BitVec.ofNat 64 data.length
  let bitsLo := ctx.bitsLo + (len <<< 3)
  let bitsHi := ctx.bitsHi + (len >>> 61)
  { absorb sha512Block SHA512_BLOCK_SIZE ctx.toHasher data with
    bitsLo := bitsLo
    bitsHi := if bitsLo < len <<< 3 then bitsHi + 1 else bitsHi }

def sha512Final (ctx : Sha512Ctx) : List UInt8 :=
  digest rotations512
    (finish sha512Block SHA512_BLOCK_SIZE ctx.toHasher (storeWord ctx.bitsHi ++ storeWord ctx.bitsLo))

/-- Fresh storage; its content is never read. -/
def storage : List UInt8 := List.replicate SHA512_BLOCK_SIZE 0

def sha512 (data : List UInt8) : List UInt8 := sha512Final (sha512Update (sha512Init storage) data)

/-! Against the standard: the table holds the cube roots of the first 80 primes. -/

set_option maxRecDepth 10000 in
theorem K512_eq : K512 = Library.Sha2.constants Library.Sha2.sha512Shape := by
  decide +kernel

theorem initial_eq (buf : List UInt8) :
    (sha512Init buf).state = Library.Sha2.initial Library.Sha2.sha512Shape := by
  change (sha512Init []).state = _
  decide +kernel

theorem sha512Block_eq (state : Words 64) (block : List UInt8) (length : block.length = SHA512_BLOCK_SIZE) :
    sha512Block state block = Library.Sha2.compress Library.Sha2.sha512Shape state block :=
  shaBlock_eq Library.Sha2.sha512Shape rfl (by decide) K512_eq state block length

/-- The bit length held in the two words. -/
def Sha512Ctx.bits (ctx : Sha512Ctx) : Nat := ctx.bitsHi.toNat * 2 ^ 64 + ctx.bitsLo.toNat

/-- The context has taken exactly the message. -/
structure Absorbed (ctx : Sha512Ctx) (message : List UInt8) : Prop where
  blocks : Holds sha512Block SHA512_BLOCK_SIZE (Library.Sha2.initial Library.Sha2.sha512Shape) ctx.toHasher message
  bits : ctx.bits = 8 * message.length

theorem absorbed_init (buf : List UInt8) (whole : buf.length = SHA512_BLOCK_SIZE) : Absorbed (sha512Init buf) [] := by
  refine ⟨?_, by simp [Sha512Ctx.bits, sha512Init]⟩
  rw [← initial_eq buf]
  exact Holds.empty _ buf whole (by decide)

/-- The carry out of the low word is added to the high word. -/
private theorem bits_update (ctx : Sha512Ctx) (data : List UInt8) (chunk : data.length < 2 ^ 64)
    (fits : ctx.bits + 8 * data.length < 2 ^ 128) :
    (sha512Update ctx data).bits = ctx.bits + 8 * data.length := by
  have lo := ctx.bitsLo.isLt
  have hi := ctx.bitsHi.isLt
  have low : (BitVec.ofNat 64 data.length <<< 3).toNat = data.length * 8 % 2 ^ 64 := by
    rw [BitVec.toNat_shiftLeft, BitVec.toNat_ofNat, Nat.mod_eq_of_lt chunk, Nat.shiftLeft_eq]
  have high : (BitVec.ofNat 64 data.length >>> 61).toNat = data.length / 2 ^ 61 := by
    rw [BitVec.toNat_ushiftRight, BitVec.toNat_ofNat, Nat.mod_eq_of_lt chunk, Nat.shiftRight_eq_div_pow]
  have sum : (ctx.bitsLo + BitVec.ofNat 64 data.length <<< 3).toNat =
      (ctx.bitsLo.toNat + data.length * 8 % 2 ^ 64) % 2 ^ 64 := by rw [BitVec.toNat_add, low]
  unfold Sha512Ctx.bits at fits ⊢
  simp only [sha512Update]
  by_cases carry : ctx.bitsLo + BitVec.ofNat 64 data.length <<< 3 < BitVec.ofNat 64 data.length <<< 3
  · have wrapped := BitVec.lt_def.mp carry
    rw [sum, low] at wrapped
    rw [if_pos carry, BitVec.toNat_add, BitVec.toNat_add, sum, high, show (1 : BitVec 64).toNat = 1 from rfl]
    omega
  · have plain := Nat.le_of_not_lt fun small => carry (BitVec.lt_def.mpr small)
    rw [sum, low] at plain
    rw [if_neg carry, BitVec.toNat_add, sum, high]
    omega

theorem Absorbed.update {ctx : Sha512Ctx} {message : List UInt8} (absorbed : Absorbed ctx message)
    (data : List UInt8) (chunk : data.length < 2 ^ 64) (short : (message ++ data).length < 2 ^ 125) :
    Absorbed (sha512Update ctx data) (message ++ data) := by
  rw [List.length_append] at short
  refine ⟨absorbed.blocks.absorb data, ?_⟩
  rw [bits_update ctx data chunk (by rw [absorbed.bits]; omega), absorbed.bits, List.length_append]
  omega

theorem Absorbed.final {ctx : Sha512Ctx} {message : List UInt8} (absorbed : Absorbed ctx message) :
    sha512Final ctx = Library.Sha2.sha512 message := by
  have lo := ctx.bitsLo.isLt
  have bits := absorbed.bits
  unfold Sha512Ctx.bits at bits
  have field : storeWord ctx.bitsHi ++ storeWord ctx.bitsLo = beBytes 16 (8 * message.length) := by
    rw [storeWord_eq _ rfl, storeWord_eq _ rfl, beBytes_add 8 8 (8 * message.length), ← beBytes_mod 8 (8 * message.length),
      ← bits, show (ctx.bitsHi.toNat * 2 ^ 64 + ctx.bitsLo.toNat) / 256 ^ 8 = ctx.bitsHi.toNat by omega,
      show (ctx.bitsHi.toNat * 2 ^ 64 + ctx.bitsLo.toNat) % 256 ^ 8 = ctx.bitsLo.toNat by omega]
  have fold := absorbed.blocks.finish (beBytes 16 (8 * message.length)) (by simp [SHA512_BLOCK_SIZE])
  rw [foldBlocks_congr _ _ (Library.Sha2.compress Library.Sha2.sha512Shape) sha512Block_eq] at fold
  rw [sha512Final, field, fold, digest_eq rotations512 rfl]
  rfl

/-- The streaming functions compute the standard's hash of the concatenation. -/
theorem absorbed_stream {ctx : Sha512Ctx} {message : List UInt8} (absorbed : Absorbed ctx message)
    (chunks : List (List UInt8)) (each : ∀ chunk ∈ chunks, chunk.length < 2 ^ 64)
    (short : (message ++ chunks.flatten).length < 2 ^ 125) :
    Absorbed (chunks.foldl sha512Update ctx) (message ++ chunks.flatten) := by
  induction chunks generalizing ctx message with
  | nil => simpa using absorbed
  | cons chunk chunks ih =>
    rw [List.flatten_cons, ← List.append_assoc] at short ⊢
    have room : (message ++ chunk).length < 2 ^ 125 := by
      rw [List.length_append] at short
      omega
    exact ih (absorbed.update chunk (each chunk (by simp)) room)
      (fun other member => each other (List.mem_cons_of_mem _ member)) short

theorem sha512_stream (buf : List UInt8) (whole : buf.length = SHA512_BLOCK_SIZE) (chunks : List (List UInt8))
    (each : ∀ chunk ∈ chunks, chunk.length < 2 ^ 64) (short : chunks.flatten.length < 2 ^ 125) :
    sha512Final (chunks.foldl sha512Update (sha512Init buf)) = Library.Sha2.sha512 chunks.flatten :=
  (absorbed_stream (absorbed_init buf whole) chunks each (by simpa using short)).final

theorem sha512Final_length (ctx : Sha512Ctx) : (sha512Final ctx).length = SHA512_DIGEST_SIZE := by
  rw [sha512Final, digest_eq rotations512 rfl]
  exact Library.Sha2.digestBytes_length rotations512 _

end Coalesce.Sha512
