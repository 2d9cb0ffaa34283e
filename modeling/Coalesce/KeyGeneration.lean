import Coalesce.LowOrder
import Coalesce.Rand
import Coalesce.SignatureCheck

/-! The two key generators. Neither has a code to return: when there is no entropy they hand out
zeros. -/

namespace Coalesce.KeyGeneration
open Library.ByteNumber Library.EdwardsCurve Primes25519 Edwards25519 BasePoint PointEncoding Curve25519 X25519
open Ed25519 Signature SignatureCheck LowOrder Coalesce.Rand

/-- `private_key` in memory, 32 bytes of it. -/
def curve25519GeneratePrivate (os : Entropy) (privateKey : List UInt8) : List UInt8 :=
  let drawn := randBytes os privateKey CURVE25519_KEY_SIZE
  if drawn.1 ≠ 0 then List.replicate CURVE25519_KEY_SIZE 0 ++ drawn.2.drop CURVE25519_KEY_SIZE
  else clamp drawn.2

/-- `pub` and `seed`. Nothing looks at the code of `ed25519_pubkey_from_seed`. -/
def ed25519Keypair (os : Entropy) (pub seed : List UInt8) : List UInt8 × List UInt8 :=
  let drawn := randBytes os seed ED25519_SEED_SIZE
  if drawn.1 ≠ 0 then
    (List.replicate ED25519_PUBLIC_KEY_SIZE 0 ++ pub.drop ED25519_PUBLIC_KEY_SIZE,
      List.replicate ED25519_SEED_SIZE 0 ++ drawn.2.drop ED25519_SEED_SIZE)
  else ((ed25519PubkeyFromSeed drawn.2).getD pub, drawn.2)

/-! Zeros are no key. -/

/-- A clamped string is fixed by clamping, and its highest bit but one is set. -/
theorem clamp_number {bytes : List UInt8} (length : bytes.length = 32) :
    leNat (clamp bytes) = decodeScalar bytes ∧ 2 ^ 254 ≤ leNat (clamp bytes) ∧ leNat (clamp bytes) < 2 ^ 255 ∧
      8 ∣ leNat (clamp bytes) ∧ decodeScalar (clamp bytes) = decodeScalar bytes := by
  have number := leNat_clamp length
  have value : decodeScalar bytes = leNat bytes % 2 ^ 254 / 8 * 8 + 2 ^ 254 := rfl
  have again : decodeScalar (clamp bytes) = leNat (clamp bytes) % 2 ^ 254 / 8 * 8 + 2 ^ 254 := rfl
  rw [again, number, value]
  omega

/-- No multiple of the base point is encoded as zeros: those have odd order, this one has order 4. -/
theorem encode_multiple_ne_zeros (n : ℕ) : encode (n • B) ≠ zeros := by
  intro same
  have stands := standsFor_encode (n • B)
  rw [same] at stands
  have point := stands.unique zeros_stands
  have multiple : (4 * n) • B = 0 • B := by rw [mul_nsmul', point, orderFour_order, zero_nsmul]
  have odd : Nat.Coprime L 4 := by decide
  have divides : L ∣ n := odd.dvd_of_dvd_mul_left (Nat.dvd_of_mod_eq_zero (nsmul_B_eq_iff.mp multiple))
  have neutral : n • B = 0 • B := nsmul_B_eq_iff.mpr (Nat.mod_eq_zero_of_dvd divides)
  rw [zero_nsmul, point] at neutral
  have y : (0 : ZMod P) = 1 := congrArg Point.y neutral
  exact zero_ne_one y

/-! Both generators. -/

section
variable {os : Entropy} (privateKey pub seed : Vector UInt8 32)

theorem clamp_ne_zeros {bytes : List UInt8} (length : bytes.length = 32) : clamp bytes ≠ zeros := by
  intro same
  have high := (clamp_number length).2.1
  rw [same] at high
  exact absurd high (by decide)

theorem generated_none (unsupplied : supply os 32 = none) :
    curve25519GeneratePrivate os privateKey.toList = zeros ∧ ed25519Keypair os pub.toList seed.toList = (zeros, zeros) := by
  have whole (v : Vector UInt8 32) : v.toList.drop 32 = [] := List.drop_eq_nil_of_le (by rw [Vector.length_toList])
  have ended (left : List UInt8) (length : left.length = 32) (v : Vector UInt8 32) : (left ++ v.toList.drop 32).drop 32 = [] := by
    rw [whole, List.append_nil, List.drop_eq_nil_of_le (by omega)]
  obtain ⟨left, length, failed⟩ := @randBytes_unsupplied os privateKey.toList 32 (by rw [Vector.length_toList]) unsupplied
  obtain ⟨left', length', failed'⟩ := @randBytes_unsupplied os seed.toList 32 (by rw [Vector.length_toList]) unsupplied
  refine ⟨?_, ?_⟩
  · simp only [curve25519GeneratePrivate, CURVE25519_KEY_SIZE, failed]
    rw [if_pos (by decide), ended left length, List.append_nil, zeros]
  · simp only [ed25519Keypair, ED25519_SEED_SIZE, ED25519_PUBLIC_KEY_SIZE, failed']
    rw [if_pos (by decide), ended left' length', whole, List.append_nil, zeros]

theorem generated_some {bytes : List UInt8} (supplied : supply os 32 = some bytes) :
    curve25519GeneratePrivate os privateKey.toList = clamp bytes ∧
      ed25519Keypair os pub.toList seed.toList = (publicKey bytes, bytes) := by
  have length := supply_length supplied
  have whole (v : Vector UInt8 32) : v.toList.drop 32 = [] := List.drop_eq_nil_of_le (by rw [Vector.length_toList])
  have drawn (v : Vector UInt8 32) : randBytes os v.toList 32 = (0, bytes) := by
    rw [randBytes_supplied (by rw [Vector.length_toList]) supplied, whole, List.append_nil]
  refine ⟨?_, ?_⟩
  · simp only [curve25519GeneratePrivate, CURVE25519_KEY_SIZE, drawn]
    rw [if_neg (by decide)]
  · simp only [ed25519Keypair, ED25519_SEED_SIZE, drawn]
    rw [if_neg (by decide), pubkey_eq, seedScalar_eq length, publicKey]
    rfl

/-- Every answer of the system, and memory of any content. Without entropy both generators hand
out zeros, and zeros never come from entropy: a caller can tell. One that does not look has a
public key that the verifier reads as a point of order 4, under which a guess of the hash modulo 4
is all that a signature takes. With entropy the private key is the clamped bytes, which count for
X25519 as the bytes themselves, and the key pair is the standard's for them as a seed. -/
theorem zeros_exactly_without_entropy (os : Entropy) (privateKey pub seed : Vector UInt8 32) :
    (curve25519GeneratePrivate os privateKey.toList = zeros ↔ supply os 32 = none) ∧
      ((ed25519Keypair os pub.toList seed.toList).1 = zeros ↔ supply os 32 = none) ∧
      (supply os 32 = none → (ed25519Keypair os pub.toList seed.toList).2 = zeros ∧
        ∀ msg S j, msg.length < 2 ^ 64 → S < L → challenge (guessed orderFour S j) zeros msg % 4 = j % 4 →
          ed25519Verify zeros (guessed orderFour S j ++ leBytes 32 S) msg = 0) ∧
      ∀ bytes, supply os 32 = some bytes →
        curve25519GeneratePrivate os privateKey.toList = clamp bytes ∧ decodeScalar (clamp bytes) = decodeScalar bytes ∧
          ed25519Keypair os pub.toList seed.toList = (publicKey bytes, bytes) := by
  cases supplied : supply os 32 with
  | none =>
    obtain ⟨generated, pair⟩ := generated_none privateKey pub seed supplied
    refine ⟨iff_of_true generated rfl, iff_of_true (by rw [pair]) rfl, fun _ => ⟨by rw [pair], ?_⟩, ?_⟩
    · intro msg S j fits below right
      exact guess_accepted (by decide) zeros_stands orderFour_order fits below right
    · rintro bytes ⟨⟩
  | some bytes =>
    have length := supply_length supplied
    obtain ⟨generated, pair⟩ := generated_some privateKey pub seed supplied
    have number := clamp_number length
    refine ⟨iff_of_false ?_ (by simp), iff_of_false ?_ (by simp), by simp, ?_⟩
    · rw [generated]
      exact clamp_ne_zeros length
    · rw [pair]
      exact encode_multiple_ne_zeros _
    · rintro _ ⟨⟩
      exact ⟨generated, number.2.2.2.2, pair⟩

end

end Coalesce.KeyGeneration
