import Coalesce.Library.SchnorrExtraction
import Coalesce.SignatureCheck

/-! Two accepted signatures with the same first half. Either they answer the same challenge, and
are the same, or the secret scalar of the key can be computed from them. -/

namespace Coalesce.SameNonce
open Library.ByteNumber Library.EdwardsCurve Library.SchnorrExtraction Primes25519 Edwards25519 BasePoint PointEncoding
open Ed25519 Signature SignatureCheck

instance : Fact L.Prime := ⟨prime_L⟩

/-- A signature that is made with a scalar and a nonce of one's choice. -/
def signedWith (x r : ℕ) (pub msg : List UInt8) : List UInt8 :=
  encode (r • B) ++ leBytes 32 ((r + challenge (encode (r • B)) pub msg * x) % L)

theorem signedWith_accepted {pub : List UInt8} (pub_length : pub.length = 32) {x : ℕ} (stands : StandsFor pub (x • B)) (r : ℕ)
    {msg : List UInt8} (fits : msg.length < 2 ^ 64) : ed25519Verify pub (signedWith x r pub msg) msg = 0 := by
  rw [signedWith, accepted_iff pub_length (encode_length _) (leBytes_length _ _) fits, leNat_reduced]
  refine ⟨Nat.mod_lt _ L_pos, x • B, r • B, stands, rfl, ?_⟩
  rw [mod_nsmul_B]
  exact passes_of_secret x r _

/-- What the two answers give for the scalar. -/
def revealed (pub R : List UInt8) (msg S msg' S' : List UInt8) : ℕ :=
  extracted L (challenge R pub msg) (leNat S) (challenge R pub msg') (leNat S')

theorem challenge_lt (R pub msg : List UInt8) : challenge R pub msg < L := Nat.mod_lt _ L_pos

/-- Challenges are below L, so they are told apart modulo L. -/
theorem challenge_cast {R pub msg msg' : List UInt8} (same : (challenge R pub msg : ZMod L) = challenge R pub msg') :
    challenge R pub msg = challenge R pub msg' := by
  rw [ZMod.natCast_eq_natCast_iff'] at same
  rwa [Nat.mod_eq_of_lt (challenge_lt _ _ _), Nat.mod_eq_of_lt (challenge_lt _ _ _)] at same

section
variable (pub R S S' : Vector UInt8 32) (A : Point edwards) (msg msg' : List UInt8)

/-- Under a key that decodes to a point of the main subgroup, as every generated key does: when
two signatures with the same R are accepted, then they have the same challenge and the same S, or
the scalar of the key can be computed from them, and whoever has it signs what he likes. -/
theorem same_nonce_reveals (stands : StandsFor pub.toList A) (order : L • A = 0) (fits : msg.length < 2 ^ 64)
    (fits' : msg'.length < 2 ^ 64) (first : ed25519Verify pub.toList (R.toList ++ S.toList) msg = 0)
    (second : ed25519Verify pub.toList (R.toList ++ S'.toList) msg' = 0) :
    challenge R.toList pub.toList msg = challenge R.toList pub.toList msg' ∧ S = S' ∨
      A = revealed pub.toList R.toList msg S.toList msg' S'.toList • B ∧
        (∀ a, A = a • B → revealed pub.toList R.toList msg S.toList msg' S'.toList = a % L) ∧
        ∀ r forged, forged.length < 2 ^ 64 → ed25519Verify pub.toList
          (signedWith (revealed pub.toList R.toList msg S.toList msg' S'.toList) r pub.toList forged) forged = 0 := by
  have length (v : Vector UInt8 32) : v.toList.length = 32 := Vector.length_toList
  obtain ⟨below, A₁, R₁, stands₁, commitment₁, equation₁⟩ := (accepted_iff (length pub) (length R) (length S) fits).mp first
  obtain ⟨below', A₂, R₂, stands₂, commitment₂, equation₂⟩ := (accepted_iff (length pub) (length R) (length S') fits').mp second
  -- Key and commitment are the same points in both.
  obtain rfl : A₁ = A := stands₁.unique stands
  obtain rfl : A₂ = A₁ := stands₂.unique stands
  obtain rfl : R₂ = R₁ := encode_injective (commitment₂.trans commitment₁.symm)
  by_cases same : challenge R.toList pub.toList msg = challenge R.toList pub.toList msg'
  · have answers : leNat S.toList • B = leNat S'.toList • B := by rw [equation₁, equation₂, same]
    rw [nsmul_B_eq_iff, Nat.mod_eq_of_lt below, Nat.mod_eq_of_lt below'] at answers
    exact Or.inl ⟨same, Vector.toList_inj.mp (leNat_injective (by rw [length, length]) answers)⟩
  · have key : revealed pub.toList R.toList msg S.toList msg' S'.toList • B = A₂ :=
      extracted_nsmul L_nsmul_B order equation₁ equation₂ fun cast => same (challenge_cast cast)
    refine Or.inr ⟨key.symm, fun a secret => ?_, fun r forged short => ?_⟩
    · have scalars := nsmul_B_eq_iff.mp (key.trans secret)
      exact (Nat.mod_eq_of_lt extracted_lt).symm.trans scalars
    · exact signedWith_accepted (length pub) (key.symm ▸ stands) r short

end

/-- The key of the scalar 1, which is also the commitment of the nonce 1. -/
def baseBytes : Vector UInt8 32 := ⟨(encode (1 • B)).toArray, by rw [List.size_toArray, encode_length]⟩

def baseAnswer (msg : List UInt8) : Vector UInt8 32 :=
  ⟨(leBytes 32 ((1 + challenge baseBytes.toList baseBytes.toList msg * 1) % L)).toArray, by rw [List.size_toArray, leBytes_length]⟩

theorem baseBytes_eq : baseBytes.toList = encode (1 • B) := rfl

theorem baseAnswer_accepted {msg : List UInt8} (fits : msg.length < 2 ^ 64) :
    ed25519Verify baseBytes.toList (baseBytes.toList ++ (baseAnswer msg).toList) msg = 0 := by
  have answer : (baseAnswer msg).toList = leBytes 32 ((1 + challenge baseBytes.toList baseBytes.toList msg * 1) % L) := rfl
  rw [answer, baseBytes_eq]
  exact signedWith_accepted (encode_length _) (standsFor_encode _) 1 fits

/-- The scalar 1 has signed twice with the nonce 1. -/
theorem same_nonce_reveals_ones :
    challenge baseBytes.toList baseBytes.toList [] = challenge baseBytes.toList baseBytes.toList [0] ∧ baseAnswer [] = baseAnswer [0] ∨
      1 • B = revealed baseBytes.toList baseBytes.toList [] (baseAnswer []).toList [0] (baseAnswer [0]).toList • B ∧
        (∀ a, 1 • B = a • B →
          revealed baseBytes.toList baseBytes.toList [] (baseAnswer []).toList [0] (baseAnswer [0]).toList = a % L) ∧
        ∀ r forged, forged.length < 2 ^ 64 → ed25519Verify baseBytes.toList
          (signedWith (revealed baseBytes.toList baseBytes.toList [] (baseAnswer []).toList [0] (baseAnswer [0]).toList) r
            baseBytes.toList forged) forged = 0 :=
  have stands : StandsFor baseBytes.toList (1 • B) := baseBytes_eq ▸ standsFor_encode (1 • B)
  have order : L • 1 • B = 0 := by rw [one_nsmul, L_nsmul_B]
  same_nonce_reveals baseBytes baseBytes (baseAnswer []) (baseAnswer [0]) (1 • B) [] [0] stands order (by decide) (by decide)
    (baseAnswer_accepted (by decide)) (baseAnswer_accepted (by decide))

end Coalesce.SameNonce
