import Coalesce.BasePoint
import Coalesce.GroupBytes
import Coalesce.ScalarProduct

/-! Ed25519 against RFC 8032: keys and signatures are those of the standard, what is signed
verifies, and a signature's second half is determined by everything else. -/

namespace Coalesce.Signature
open Library.ByteNumber Library.Collect Library.EdwardsCurve Library.ExtendedCoordinates Primes25519 Edwards25519
open BasePoint PointEncoding Curve25519 Scalar25519 ScalarProduct Sha512 Ed25519 GroupArithmetic GroupBytes

/-! RFC 8032. -/

def secretScalar (seed : List UInt8) : ℕ := decodeScalar ((Library.Sha2.sha512 seed).take 32)

def publicKey (seed : List UInt8) : List UInt8 := encode (secretScalar seed • B)

/-- The secret number `r`. -/
def nonce (seed msg : List UInt8) : ℕ :=
  leNat (Library.Sha2.sha512 ((Library.Sha2.sha512 seed).drop 32 ++ msg)) % L

/-- The number `k`. -/
def challenge (R A msg : List UInt8) : ℕ := leNat (Library.Sha2.sha512 (R ++ A ++ msg)) % L

def signature (seed msg : List UInt8) : List UInt8 :=
  let R := encode (nonce seed msg • B)
  let k := challenge R (publicKey seed) msg
  R ++ leBytes 32 ((nonce seed msg + k * secretScalar seed) % L)

/-! Hashes. -/

theorem hashParts_length (parts : List (List UInt8)) : (hashParts parts).length = 64 := sha512Final_length _

theorem hashParts_eq {parts : List (List UInt8)} (each : ∀ part ∈ parts, part.length < 2 ^ 64)
    (short : parts.flatten.length < 2 ^ 125) : hashParts parts = Library.Sha2.sha512 parts.flatten :=
  sha512_stream storage List.length_replicate parts each short

theorem sha512_length (data : List UInt8) : (sha512 data).length = 64 := sha512Final_length _

theorem sha512_eq {data : List UInt8} (fits : data.length < 2 ^ 64) : sha512 data = Library.Sha2.sha512 data := by
  have stream := sha512_stream storage List.length_replicate [data] (by simpa using fits)
    (by rw [List.flatten_singleton]; omega)
  rwa [List.flatten_singleton] at stream

/-! Scalars. -/

theorem L_fits : L < 256 ^ 32 := by decide

theorem L_below : L ≤ 2 ^ 255 := by decide

theorem L_pos : 0 < L := by decide

theorem leNat_reduced (n : ℕ) : leNat (leBytes 32 (n % L)) = n % L := by
  have below := Nat.mod_lt n L_pos
  rw [leNat_leBytes, Nat.mod_eq_of_lt (Nat.lt_trans below L_fits)]

theorem scReduce_eq (parts : List (List UInt8)) :
    scReduce (hashParts parts) = leBytes 32 (leNat (hashParts parts) % L) :=
  scReduceWide_eq (hashParts_length parts)

/-- The scalar of a seed as the code computes it. -/
def seedScalar (seed : List UInt8) : ℕ := decodeScalar ((sha512 seed).take 32)

theorem expandSeed_scalar (seed : List UInt8) : leNat (expandSeed seed).2 = seedScalar seed :=
  leNat_clamp (by rw [List.length_take, sha512_length]; rfl)

theorem expandSeed_length (seed : List UInt8) : (expandSeed seed).2.length = 32 := by
  rw [expandSeed, clamp_length, List.length_take, sha512_length]
  rfl

theorem seedScalar_fits (seed : List UInt8) : seedScalar seed < 2 ^ 255 := by
  unfold seedScalar decodeScalar
  omega

/-! Points. -/

/-- The bytes of a multiple, for a scalar below 2^255. -/
theorem multiple_bytes {g : GeP3} {p : Point edwards} (denotes : Denotes g p) {scalar : List UInt8} {n : ℕ}
    (number : leNat scalar = n) (fits : n < 2 ^ 255) : geTobytes (geScalarmult g scalar edInit) = encode (n • p) := by
  have product := denotes.geScalarmult edInit_context scalar
  rw [number, Nat.mod_eq_of_lt fits] at product
  exact geTobytes_eq product

theorem pubkey_eq (seed : List UInt8) : ed25519PubkeyFromSeed seed = some (encode (seedScalar seed • B)) := by
  obtain ⟨g, read, base⟩ := base_read
  unfold ed25519PubkeyFromSeed
  rw [read, Option.map_some]
  exact congrArg some (multiple_bytes base (expandSeed_scalar seed) (seedScalar_fits seed))

/-- The numbers `r` and `k` as the code computes them. -/
def codeNonce (seed msg : List UInt8) : ℕ := leNat (hashParts [(sha512 seed).drop 32, msg]) % L

def codeChallenge (R A msg : List UInt8) : ℕ := leNat (hashParts [R, A, msg]) % L

theorem reduced_fits (n : ℕ) : n % L < 2 ^ 255 := Nat.lt_of_lt_of_le (Nat.mod_lt n L_pos) L_below

theorem sign_eq (seed msg : List UInt8) :
    ed25519Sign seed msg = some (encode (codeNonce seed msg • B) ++
      leBytes 32 ((codeChallenge (encode (codeNonce seed msg • B)) (encode (seedScalar seed • B)) msg * seedScalar seed +
        codeNonce seed msg) % L)) := by
  obtain ⟨g, read, base⟩ := base_read
  have nonce_bytes : geTobytes (geScalarmult g (scReduce (hashParts [(sha512 seed).drop 32, msg])) edInit) =
      encode (codeNonce seed msg • B) :=
    multiple_bytes base (by rw [scReduce_eq, leNat_reduced, codeNonce]) (reduced_fits _)
  have key_bytes : geTobytes (geScalarmult g (expandSeed seed).2 edInit) = encode (seedScalar seed • B) :=
    multiple_bytes base (expandSeed_scalar seed) (seedScalar_fits seed)
  unfold ed25519Sign
  rw [read, Option.map_some]
  unfold signatureBytes
  simp only [show (expandSeed seed).1 = sha512 seed from rfl, nonce_bytes, key_bytes]
  rw [scReduce_eq, scReduce_eq,
    scMuladd_eq (leBytes_length 32 _) (expandSeed_length seed) (leBytes_length 32 _), leNat_reduced, leNat_reduced,
    expandSeed_scalar]
  rfl

/-! Verification. -/

/-- `sig` starts with these bytes. -/
theorem differences_take {a b : List UInt8} (left : a.length = 32) (right : 32 ≤ b.length) :
    differences a b 32 = 0 ↔ a = b.take 32 := by
  have compared := differences_eq_zero left (show (b.take 32).length = 32 by rw [List.length_take]; omega)
  rw [← compared, differences, differences, collect_eq_zero, collect_eq_zero]
  refine forall₂_congr fun i below => ?_
  rw [List.getD_eq_getElem?_getD, List.getD_eq_getElem?_getD, List.getD_eq_getElem?_getD, List.getElem?_take,
    if_pos below]

section
variable {pub sig : List UInt8} (msg : List UInt8)

theorem checkEquation_eq {b a : GeP3} (base : Denotes b B) {A : Point edwards} (key : Denotes a A)
    (sig_length : sig.length = 64) (below : leNat (sig.drop 32) < L) :
    checkEquation b a edInit pub sig msg = 0 ↔
      encode (leNat (sig.drop 32) • B + -(codeChallenge (sig.take 32) pub msg • A)) = sig.take 32 := by
  have SB := base.geScalarmult edInit_context (sig.drop 32)
  have kA := key.geScalarmult edInit_context (scReduce (hashParts [sig.take 32, pub, msg]))
  rw [Nat.mod_eq_of_lt (Nat.lt_of_lt_of_le below L_below)] at SB
  rw [scReduce_eq, leNat_reduced, Nat.mod_eq_of_lt (reduced_fits _), ← scReduce_eq] at kA
  have bytes := geTobytes_eq (SB.geAdd edInit_context kA.geNegate)
  unfold checkEquation
  simp only [bytes]
  rw [← differences_take (encode_length _) (show 32 ≤ sig.length by omega), codeChallenge]
  split
  · next same => simpa using same
  · next different => simpa using different

/-- What is accepted: a scalar below L and a point behind the key that fulfil the equation. -/
theorem verify_iff (pub_length : pub.length = 32) (sig_length : sig.length = 64) :
    ed25519Verify pub sig msg = 0 ↔ leNat (sig.drop 32) < L ∧
      ∃ A : Point edwards, A.y = decodeY pub ∧ A.x.val % 2 = signBit pub ∧
        encode (leNat (sig.drop 32) • B + -(codeChallenge (sig.take 32) pub msg • A)) = sig.take 32 := by
  obtain ⟨b, read, base⟩ := base_read
  rw [ed25519Verify, scLtL_eq (show (sig.drop 32).length = 32 by rw [List.length_drop]; omega), read, Option.bind_some]
  by_cases below : leNat (sig.drop 32) < L
  · rw [decide_eq_true below, Bool.not_true, if_neg Bool.false_ne_true]
    rcases key : geFrombytes pub edInit with _ | a
    · rw [Option.map_none, Option.getD_none]
      refine ⟨fun zero => absurd zero (by decide), ?_⟩
      rintro ⟨-, A, y, parity, -⟩
      exact absurd parity (geFrombytes_none edInit_context pub_length key y)
    · obtain ⟨A, y, parity, limbs⟩ := geFrombytes_some edInit_context pub_length key
      rw [Option.map_some, Option.getD_some, checkEquation_eq msg base limbs.denotes sig_length below]
      constructor
      · exact fun equation => ⟨below, A, y, parity, equation⟩
      · rintro ⟨-, A', y', parity', equation⟩
        rwa [eq_of_parity (y.trans y'.symm) (parity.trans parity'.symm)]
  · rw [decide_eq_false below, Bool.not_false, if_pos rfl]
    exact ⟨fun zero => absurd zero (by decide), fun accepted => absurd accepted.1 below⟩

end

/-! The standard's keys and signatures. -/

theorem seedScalar_eq {seed : List UInt8} (length : seed.length = 32) : seedScalar seed = secretScalar seed := by
  rw [seedScalar, secretScalar, sha512_eq (by omega)]

theorem codeNonce_eq {seed msg : List UInt8} (length : seed.length = 32) (fits : msg.length < 2 ^ 64) :
    codeNonce seed msg = nonce seed msg := by
  have rest : ((sha512 seed).drop 32).length = 32 := by rw [List.length_drop, sha512_length]
  rw [codeNonce, nonce, ← sha512_eq (show seed.length < 2 ^ 64 by omega), hashParts_eq]
  · simp only [List.flatten_cons, List.flatten_nil, List.append_nil]
  · simp only [List.forall_mem_cons, List.not_mem_nil, false_imp_iff, implies_true, and_true]
    omega
  · simp only [List.flatten_cons, List.flatten_nil, List.append_nil, List.length_append]
    omega

theorem codeChallenge_eq {R A msg : List UInt8} (R_length : R.length = 32) (A_length : A.length = 32)
    (fits : msg.length < 2 ^ 64) : codeChallenge R A msg = challenge R A msg := by
  rw [codeChallenge, challenge, hashParts_eq]
  · simp only [List.flatten_cons, List.flatten_nil, List.append_nil, List.append_assoc]
  · simp only [List.forall_mem_cons, List.not_mem_nil, false_imp_iff, implies_true, and_true]
    omega
  · simp only [List.flatten_cons, List.flatten_nil, List.append_nil, List.length_append]
    omega

/-- Keys and signatures, byte for byte; `fits` is the range of `size_t`. -/
theorem signatures_are_rfc8032 (seed : Vector UInt8 32) (msg : List UInt8) (fits : msg.length < 2 ^ 64) :
    ed25519PubkeyFromSeed seed.toList = some (publicKey seed.toList) ∧
      ed25519Sign seed.toList msg = some (signature seed.toList msg) := by
  have length : seed.toList.length = 32 := Vector.length_toList
  refine ⟨?_, ?_⟩
  · rw [pubkey_eq, seedScalar_eq length, publicKey]
  · rw [sign_eq, codeNonce_eq length fits, seedScalar_eq length,
      codeChallenge_eq (encode_length _) (encode_length _) fits, signature, publicKey, Nat.add_comm]

/-- The bytes 0 to 31. -/
def countingSeed : Vector UInt8 32 := Vector.ofFn fun i => UInt8.ofNat i.val

theorem signatures_are_rfc8032_three_bytes :
    ed25519PubkeyFromSeed countingSeed.toList = some (publicKey countingSeed.toList) ∧
      ed25519Sign countingSeed.toList [97, 98, 99] = some (signature countingSeed.toList [97, 98, 99]) :=
  signatures_are_rfc8032 countingSeed [97, 98, 99] (by decide)

/-! Completeness. -/

/-- The verifier's equation for an honest signature, whatever the hashes are. -/
theorem equation_holds (k a r : ℕ) : ((k * a + r) % L) • B + -(k • a • B) = r • B := by
  rw [mod_nsmul_B, add_nsmul, ← mul_nsmul, Nat.mul_comm a k]
  abel

theorem signed_verifies (seed : Vector UInt8 32) (msg pub sig : List UInt8)
    (derived : ed25519PubkeyFromSeed seed.toList = some pub) (signed : ed25519Sign seed.toList msg = some sig) :
    ed25519Verify pub sig msg = 0 := by
  rw [pubkey_eq] at derived
  rw [sign_eq] at signed
  obtain rfl := Option.some.inj derived
  obtain rfl := Option.some.inj signed
  rw [verify_iff msg (encode_length _) (by rw [List.length_append, encode_length, leBytes_length])]
  rw [List.take_left' (encode_length _), List.drop_left' (encode_length _), leNat_reduced]
  refine ⟨Nat.mod_lt _ L_pos, seedScalar seed.toList • B, (decodeY_encode _).symm, (signBit_encode _).symm, ?_⟩
  rw [equation_holds]

theorem signed_verifies_three_bytes : ∃ pub sig, ed25519PubkeyFromSeed countingSeed.toList = some pub ∧
    ed25519Sign countingSeed.toList [97, 98, 99] = some sig ∧ ed25519Verify pub sig [97, 98, 99] = 0 :=
  ⟨_, _, pubkey_eq _, sign_eq _ _, signed_verifies countingSeed [97, 98, 99] _ _ (pubkey_eq _) (sign_eq _ _)⟩

/-! No second signature. -/

/-- With R, the key and the message given, at most one S is accepted, and S + L not beside S. -/
theorem scalar_unique (pub R : Vector UInt8 32) (msg : List UInt8) :
    {S : Vector UInt8 32 | ed25519Verify pub.toList (R.toList ++ S.toList) msg = 0}.Subsingleton ∧
      ¬∃ S S' : Vector UInt8 32, leNat S'.toList = leNat S.toList + L ∧
        ed25519Verify pub.toList (R.toList ++ S.toList) msg = 0 ∧ ed25519Verify pub.toList (R.toList ++ S'.toList) msg = 0 := by
  have R_length : R.toList.length = 32 := Vector.length_toList
  have whole (S : Vector UInt8 32) : (R.toList ++ S.toList).length = 64 := by
    rw [List.length_append, R_length, Vector.length_toList]
  refine ⟨?_, ?_⟩
  · intro S first S' second
    rw [Set.mem_ofPred_eq, verify_iff msg Vector.length_toList (whole S), List.take_left' R_length,
      List.drop_left' R_length] at first
    rw [Set.mem_ofPred_eq, verify_iff msg Vector.length_toList (whole S'), List.take_left' R_length,
      List.drop_left' R_length] at second
    obtain ⟨below, A, y, parity, equation⟩ := first
    obtain ⟨below', A', y', parity', equation'⟩ := second
    obtain rfl := eq_of_parity (y.trans y'.symm) (parity.trans parity'.symm)
    have multiples := add_right_cancel (encode_injective (equation.trans equation'.symm))
    rw [nsmul_B_eq_iff, Nat.mod_eq_of_lt below, Nat.mod_eq_of_lt below'] at multiples
    exact Vector.toList_inj.mp
      (leNat_injective (by rw [Vector.length_toList, Vector.length_toList]) multiples)
  · rintro ⟨S, S', shifted, -, accepted⟩
    rw [verify_iff msg Vector.length_toList (whole S'), List.drop_left' R_length] at accepted
    have below := accepted.1
    omega

end Coalesce.Signature
