import Coalesce.ShaBlock

/-! SHA-256 and HMAC-SHA256 as sha256.c computes them. -/

namespace Coalesce.Sha256
open Library.BlockHash Library.ByteNumber Library.WordBytes ShaBlock
open Library.Sha2 (Words Shape)

def SHA256_DIGEST_SIZE : Nat := 32
def SHA256_BLOCK_SIZE : Nat := 64

def K256 : List (BitVec 32) := [
  0x428a2f98, 0x71374491, 0xb5c0fbcf, 0xe9b5dba5,
  0x3956c25b, 0x59f111f1, 0x923f82a4, 0xab1c5ed5,
  0xd807aa98, 0x12835b01, 0x243185be, 0x550c7dc3,
  0x72be5d74, 0x80deb1fe, 0x9bdc06a7, 0xc19bf174,
  0xe49b69c1, 0xefbe4786, 0x0fc19dc6, 0x240ca1cc,
  0x2de92c6f, 0x4a7484aa, 0x5cb0a9dc, 0x76f988da,
  0x983e5152, 0xa831c66d, 0xb00327c8, 0xbf597fc7,
  0xc6e00bf3, 0xd5a79147, 0x06ca6351, 0x14292967,
  0x27b70a85, 0x2e1b2138, 0x4d2c6dfc, 0x53380d13,
  0x650a7354, 0x766a0abb, 0x81c2c92e, 0x92722c85,
  0xa2bfe8a1, 0xa81a664b, 0xc24b8b70, 0xc76c51a3,
  0xd192e819, 0xd6990624, 0xf40e3585, 0x106aa070,
  0x19a4c116, 0x1e376c08, 0x2748774c, 0x34b0bcb5,
  0x391c0cb3, 0x4ed8aa4a, 0x5b9cca4f, 0x682e6ff3,
  0x748f82ee, 0x78a5636f, 0x84c87814, 0x8cc70208,
  0x90befffa, 0xa4506ceb, 0xbef9a3f7, 0xc67178f2]

abbrev rotations256 : Shape :=
  { width := 32, rounds := 64, bigSigma0 := (2, 13, 22), bigSigma1 := (6, 11, 25),
    smallSigma0 := (7, 18, 3), smallSigma1 := (17, 19, 10) }

def sha256Block (state : Words 32) (block : List UInt8) : Words 32 := shaBlock rotations256 K256 state block

/-- `sha256_ctx_t`. -/
structure Sha256Ctx extends Hasher (Words 32) where
  bits : BitVec 64

/-- The storage of the buffer keeps whatever it held. -/
def sha256Init (buf : List UInt8) : Sha256Ctx :=
  { state := ⟨0x6a09e667, 0xbb67ae85, 0x3c6ef372, 0xa54ff53a, 0x510e527f, 0x9b05688c, 0x1f83d9ab, 0x5be0cd19⟩
    bits := 0
    buf := buf
    buflen := 0 }

def sha256Update (ctx : Sha256Ctx) (data : List UInt8) : Sha256Ctx :=
  { absorb sha256Block SHA256_BLOCK_SIZE ctx.toHasher data with
    bits := ctx.bits + BitVec.ofNat 64 data.length * 8 }

def sha256Final (ctx : Sha256Ctx) : List UInt8 :=
  digest rotations256 (finish sha256Block SHA256_BLOCK_SIZE ctx.toHasher (storeWord ctx.bits))

/-- Fresh storage; its content is never read. -/
def storage : List UInt8 := List.replicate SHA256_BLOCK_SIZE 0

def sha256 (data : List UInt8) : List UInt8 := sha256Final (sha256Update (sha256Init storage) data)

/-- `hmac_sha256_ctx_t`. -/
structure HmacSha256Ctx where
  inner : Sha256Ctx
  outer : Sha256Ctx

def hmacSha256Init (key : List UInt8) : HmacSha256Ctx :=
  let zero := List.replicate SHA256_BLOCK_SIZE 0
  let k := if key.length > SHA256_BLOCK_SIZE then copyAt zero 0 (sha256 key)
    else if key.length > 0 then copyAt zero 0 key
    else zero
  { inner := sha256Update (sha256Init storage) (k.map (· ^^^ 0x36))
    outer := sha256Update (sha256Init storage) (k.map (· ^^^ 0x5c)) }

def hmacSha256Update (ctx : HmacSha256Ctx) (data : List UInt8) : HmacSha256Ctx :=
  { ctx with inner := sha256Update ctx.inner data }

def hmacSha256Final (ctx : HmacSha256Ctx) : List UInt8 :=
  sha256Final (sha256Update ctx.outer (sha256Final ctx.inner))

def hmacSha256 (key data : List UInt8) : List UInt8 := hmacSha256Final (hmacSha256Update (hmacSha256Init key) data)

/-! Against the standard: the table holds the cube roots of the first 64 primes. -/

set_option maxRecDepth 4096 in
theorem K256_eq : K256 = Library.Sha2.constants Library.Sha2.sha256Shape := by
  decide +kernel

theorem initial_eq (buf : List UInt8) :
    (sha256Init buf).state = Library.Sha2.initial Library.Sha2.sha256Shape := by
  change (sha256Init []).state = _
  decide +kernel

theorem sha256Block_eq (state : Words 32) (block : List UInt8) (length : block.length = SHA256_BLOCK_SIZE) :
    sha256Block state block = Library.Sha2.compress Library.Sha2.sha256Shape state block :=
  shaBlock_eq Library.Sha2.sha256Shape rfl (by decide) K256_eq state block length

/-- The context has taken exactly the message. -/
structure Absorbed (ctx : Sha256Ctx) (message : List UInt8) : Prop where
  blocks : Holds sha256Block SHA256_BLOCK_SIZE (Library.Sha2.initial Library.Sha2.sha256Shape) ctx.toHasher message
  bits : ctx.bits = BitVec.ofNat 64 (8 * message.length)

theorem absorbed_init (buf : List UInt8) (whole : buf.length = SHA256_BLOCK_SIZE) : Absorbed (sha256Init buf) [] := by
  refine ⟨?_, rfl⟩
  rw [← initial_eq buf]
  exact Holds.empty _ buf whole (by decide)

theorem Absorbed.update {ctx : Sha256Ctx} {message : List UInt8} (absorbed : Absorbed ctx message)
    (data : List UInt8) : Absorbed (sha256Update ctx data) (message ++ data) := by
  refine ⟨absorbed.blocks.absorb data, ?_⟩
  have added : BitVec.ofNat 64 (8 * data.length) = BitVec.ofNat 64 data.length * 8 := by
    rw [BitVec.ofNat_mul, BitVec.mul_comm]
    rfl
  change ctx.bits + BitVec.ofNat 64 data.length * 8 = _
  rw [absorbed.bits, List.length_append, Nat.mul_add, BitVec.ofNat_add, added]

theorem Absorbed.final {ctx : Sha256Ctx} {message : List UInt8} (absorbed : Absorbed ctx message)
    (short : message.length < 2 ^ 61) : sha256Final ctx = Library.Sha2.sha256 message := by
  have field : storeWord ctx.bits = beBytes 8 (8 * message.length) := by
    rw [storeWord_eq _ rfl, absorbed.bits, BitVec.toNat_ofNat, Nat.mod_eq_of_lt (by omega)]
  have fold := absorbed.blocks.finish (beBytes 8 (8 * message.length)) (by simp [SHA256_BLOCK_SIZE])
  rw [foldBlocks_congr _ _ (Library.Sha2.compress Library.Sha2.sha256Shape) sha256Block_eq] at fold
  rw [sha256Final, field, fold, digest_eq rotations256 rfl]
  rfl

theorem absorbed_stream {ctx : Sha256Ctx} {message : List UInt8} (absorbed : Absorbed ctx message)
    (chunks : List (List UInt8)) : Absorbed (chunks.foldl sha256Update ctx) (message ++ chunks.flatten) := by
  induction chunks generalizing ctx message with
  | nil => simpa using absorbed
  | cons chunk chunks ih =>
    rw [List.flatten_cons, ← List.append_assoc]
    exact ih (absorbed.update chunk)

/-- The streaming functions compute the standard's hash of the concatenation. -/
theorem sha256_stream (buf : List UInt8) (whole : buf.length = SHA256_BLOCK_SIZE) (chunks : List (List UInt8))
    (short : chunks.flatten.length < 2 ^ 61) :
    sha256Final (chunks.foldl sha256Update (sha256Init buf)) = Library.Sha2.sha256 chunks.flatten :=
  (absorbed_stream (absorbed_init buf whole) chunks).final (by simpa using short)

theorem sha256_eq (data : List UInt8) (short : data.length < 2 ^ 61) : sha256 data = Library.Sha2.sha256 data := by
  have stream := sha256_stream storage rfl [data] (by simpa using short)
  simpa [sha256] using stream

theorem sha256Final_length (ctx : Sha256Ctx) : (sha256Final ctx).length = SHA256_DIGEST_SIZE := by
  rw [sha256Final, digest_eq rotations256 rfl]
  exact Library.Sha2.digestBytes_length rotations256 _

/-! HMAC. The keys of both passes fill exactly one block. -/

/-- Where a key schedule stands after some data. -/
structure Keyed (ctx : HmacSha256Ctx) (key data : List UInt8) : Prop where
  inner : Absorbed ctx.inner ((Library.Sha2.hmacKey key).map (· ^^^ 0x36) ++ data)
  outer : Absorbed ctx.outer ((Library.Sha2.hmacKey key).map (· ^^^ 0x5c))

private theorem padded_key (key : List UInt8) (_fits : key.length ≤ 64) :
    copyAt (List.replicate SHA256_BLOCK_SIZE 0) 0 key = key ++ List.replicate (64 - key.length) 0 := by
  rw [copyAt, SHA256_BLOCK_SIZE, List.take_zero, List.nil_append, Nat.zero_add, List.drop_replicate]

theorem keyed_init (key : List UInt8) (short : key.length < 2 ^ 61) : Keyed (hmacSha256Init key) key [] := by
  have block : (if key.length > SHA256_BLOCK_SIZE then copyAt (List.replicate SHA256_BLOCK_SIZE 0) 0 (sha256 key)
      else if key.length > 0 then copyAt (List.replicate SHA256_BLOCK_SIZE 0) 0 key
      else List.replicate SHA256_BLOCK_SIZE 0) = Library.Sha2.hmacKey key := by
    rw [sha256_eq key short, Library.Sha2.hmacKey]
    by_cases long : key.length > 64
    · rw [if_pos long, if_pos (show key.length > SHA256_BLOCK_SIZE from long), padded_key _ (by rw [Library.Sha2.sha256_length]; decide)]
    · rw [if_neg long, if_neg (show ¬key.length > SHA256_BLOCK_SIZE from long)]
      by_cases some_bytes : key.length > 0
      · rw [if_pos some_bytes, padded_key key (Nat.le_of_not_gt long)]
      · rw [if_neg some_bytes, List.eq_nil_of_length_eq_zero (Nat.eq_zero_of_not_pos some_bytes)]
        rfl
  have fresh := absorbed_init storage rfl
  rw [hmacSha256Init, block]
  exact ⟨by simpa using fresh.update _, by simpa using fresh.update _⟩

theorem Keyed.update {ctx : HmacSha256Ctx} {key data : List UInt8} (keyed : Keyed ctx key data)
    (more : List UInt8) : Keyed (hmacSha256Update ctx more) key (data ++ more) := by
  refine ⟨?_, keyed.outer⟩
  rw [← List.append_assoc]
  exact keyed.inner.update more

theorem keyed_stream {ctx : HmacSha256Ctx} {key data : List UInt8} (keyed : Keyed ctx key data)
    (chunks : List (List UInt8)) : Keyed (chunks.foldl hmacSha256Update ctx) key (data ++ chunks.flatten) := by
  induction chunks generalizing ctx data with
  | nil => simpa using keyed
  | cons chunk chunks ih =>
    rw [List.flatten_cons, ← List.append_assoc]
    exact ih (keyed.update chunk)

theorem Keyed.final {ctx : HmacSha256Ctx} {key data : List UInt8} (keyed : Keyed ctx key data)
    (short : data.length < 2 ^ 60) : hmacSha256Final ctx = Library.Sha2.hmacSha256 key data := by
  have block : (Library.Sha2.hmacKey key).length = 64 := Library.Sha2.hmacKey_length key
  have inner := keyed.inner.final (by rw [List.length_append, List.length_map, block]; omega)
  rw [hmacSha256Final, inner]
  exact (keyed.outer.update _).final (by
    rw [List.length_append, List.length_map, block, Library.Sha2.sha256_length]
    omega)

/-- The streaming functions compute the keyed hash of the concatenation. -/
theorem hmacSha256_stream {key : List UInt8} (keyShort : key.length < 2 ^ 61) {chunks : List (List UInt8)}
    (short : chunks.flatten.length < 2 ^ 60) :
    hmacSha256Final (chunks.foldl hmacSha256Update (hmacSha256Init key)) = Library.Sha2.hmacSha256 key chunks.flatten :=
  (keyed_stream (keyed_init key keyShort) chunks).final (by simpa using short)

theorem hmacSha256Final_length (ctx : HmacSha256Ctx) : (hmacSha256Final ctx).length = SHA256_DIGEST_SIZE :=
  sha256Final_length _

end Coalesce.Sha256
