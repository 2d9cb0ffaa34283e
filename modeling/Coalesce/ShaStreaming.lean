import Coalesce.Sha256
import Coalesce.Sha512

/-! The streaming interfaces of both hashes and of the keyed hash, from the first update to
the last: what the context holds after each, and the digest at the end. -/

namespace Coalesce.ShaStreaming

/-- SHA-256 in any chunks is the standard's hash of the whole, and its block buffer is never full. -/
theorem sha256_streaming (buf : List UInt8) (whole : buf.length = Sha256.SHA256_BLOCK_SIZE) (chunks : List (List UInt8))
    (short : chunks.flatten.length < 2 ^ 61) :
    Sha256.sha256Final (chunks.foldl Sha256.sha256Update (Sha256.sha256Init buf)) = Library.Sha2.sha256 chunks.flatten ∧
      ∀ count, ((chunks.take count).foldl Sha256.sha256Update (Sha256.sha256Init buf)).buflen < Sha256.SHA256_BLOCK_SIZE := by
  constructor
  · exact Sha256.sha256_stream buf whole chunks short
  · intro count
    exact (Sha256.absorbed_stream (Sha256.absorbed_init buf whole) (chunks.take count)).blocks.room

theorem sha256_streaming_two_chunks :
    let chunks : List (List UInt8) := [[1, 2], [], [3]]
    Sha256.sha256Final (chunks.foldl Sha256.sha256Update (Sha256.sha256Init Sha256.storage)) =
        Library.Sha2.sha256 chunks.flatten ∧
      ∀ count, ((chunks.take count).foldl Sha256.sha256Update (Sha256.sha256Init Sha256.storage)).buflen <
        Sha256.SHA256_BLOCK_SIZE :=
  sha256_streaming Sha256.storage rfl [[1, 2], [], [3]] (by decide)

/-- SHA-512 in any chunks is the standard's hash of the whole, and the two words of its bit
count always hold the length of what it has taken. -/
theorem sha512_streaming (buf : List UInt8) (whole : buf.length = Sha512.SHA512_BLOCK_SIZE) (chunks : List (List UInt8))
    (each : ∀ chunk ∈ chunks, chunk.length < 2 ^ 64) (short : chunks.flatten.length < 2 ^ 125) :
    Sha512.sha512Final (chunks.foldl Sha512.sha512Update (Sha512.sha512Init buf)) = Library.Sha2.sha512 chunks.flatten ∧
      ∀ count,
        let ctx := (chunks.take count).foldl Sha512.sha512Update (Sha512.sha512Init buf)
        ctx.bitsHi.toNat * 2 ^ 64 + ctx.bitsLo.toNat = 8 * (chunks.take count).flatten.length := by
  constructor
  · exact Sha512.sha512_stream buf whole chunks each short
  · intro count
    have part : (chunks.take count).flatten.length ≤ chunks.flatten.length := by
      nth_rewrite 2 [← List.take_append_drop count chunks]
      rw [List.flatten_append, List.length_append]
      exact Nat.le_add_right _ _
    have absorbed := Sha512.absorbed_stream (Sha512.absorbed_init buf whole) (chunks.take count)
      (fun chunk member => each chunk (List.mem_of_mem_take member)) (by rw [List.nil_append]; omega)
    exact absorbed.bits

theorem sha512_streaming_two_chunks :
    let chunks : List (List UInt8) := [[1, 2], [], [3]]
    Sha512.sha512Final (chunks.foldl Sha512.sha512Update (Sha512.sha512Init Sha512.storage)) =
        Library.Sha2.sha512 chunks.flatten ∧
      ∀ count,
        let ctx := (chunks.take count).foldl Sha512.sha512Update (Sha512.sha512Init Sha512.storage)
        ctx.bitsHi.toNat * 2 ^ 64 + ctx.bitsLo.toNat = 8 * (chunks.take count).flatten.length :=
  sha512_streaming Sha512.storage rfl [[1, 2], [], [3]] (by decide) (by decide)

/-- HMAC in any chunks is RFC 2104 over the standard's SHA-256. Chunks that come to the same
data come to the same code, as does the call that takes all of it. -/
theorem hmac_sha256_rfc2104 (key : List UInt8) (keyShort : key.length < 2 ^ 60) (chunks : List (List UInt8))
    (short : chunks.flatten.length < 2 ^ 60) :
    let hashed := if key.length > 64 then Library.Sha2.sha256 key else key
    let block := hashed ++ List.replicate (64 - hashed.length) 0
    let code := Sha256.hmacSha256Final (chunks.foldl Sha256.hmacSha256Update (Sha256.hmacSha256Init key))
    code = Library.Sha2.sha256 (block.map (· ^^^ 0x5c) ++ Library.Sha2.sha256 (block.map (· ^^^ 0x36) ++ chunks.flatten)) ∧
      (∀ others : List (List UInt8), others.flatten = chunks.flatten →
        Sha256.hmacSha256Final (others.foldl Sha256.hmacSha256Update (Sha256.hmacSha256Init key)) = code) ∧
      Sha256.hmacSha256 key chunks.flatten = code := by
  have keyFits : key.length < 2 ^ 61 := by omega
  have stream := Sha256.hmacSha256_stream keyFits short
  have single := @Sha256.hmacSha256_stream key keyFits [chunks.flatten] (by rw [List.flatten_singleton]; exact short)
  rw [List.flatten_singleton] at single
  intro hashed block code
  refine ⟨stream, ?_, single.trans stream.symm⟩
  intro others same
  have other := @Sha256.hmacSha256_stream key keyFits others (by rw [same]; exact short)
  rw [same] at other
  exact other.trans stream.symm

theorem hmac_sha256_rfc2104_two_chunks :
    let key : List UInt8 := [7]
    let chunks : List (List UInt8) := [[1, 2], [3]]
    let hashed := if key.length > 64 then Library.Sha2.sha256 key else key
    let block := hashed ++ List.replicate (64 - hashed.length) 0
    let code := Sha256.hmacSha256Final (chunks.foldl Sha256.hmacSha256Update (Sha256.hmacSha256Init key))
    code = Library.Sha2.sha256 (block.map (· ^^^ 0x5c) ++ Library.Sha2.sha256 (block.map (· ^^^ 0x36) ++ chunks.flatten)) ∧
      (∀ others : List (List UInt8), others.flatten = chunks.flatten →
        Sha256.hmacSha256Final (others.foldl Sha256.hmacSha256Update (Sha256.hmacSha256Init key)) = code) ∧
      Sha256.hmacSha256 key chunks.flatten = code :=
  hmac_sha256_rfc2104 [7] (by decide) [[1, 2], [3]] (by decide)

end Coalesce.ShaStreaming
