import Coalesce.Library.LadderCurve
import Coalesce.Signature

/-! What `ed25519_verify` accepts, exactly, and what follows for keys of small order, which it
does not turn away. -/

namespace Coalesce.SignatureCheck
open Library.ByteNumber Library.EdwardsCurve Primes25519 Edwards25519 BasePoint PointEncoding Ed25519 Signature

/-- The bytes decode to the point: its y, not necessarily reduced, and the parity of its x. -/
structure StandsFor (bytes : List UInt8) (A : Point edwards) : Prop where
  y : A.y = decodeY bytes
  parity : A.x.val % 2 = signBit bytes

theorem StandsFor.unique {bytes : List UInt8} {A A' : Point edwards} (first : StandsFor bytes A) (second : StandsFor bytes A') :
    A = A' :=
  eq_of_parity (first.y.trans second.y.symm) (first.parity.trans second.parity.symm)

theorem standsFor_encode (A : Point edwards) : StandsFor (encode A) A :=
  ⟨(decodeY_encode A).symm, (signBit_encode A).symm⟩

theorem checkEquation_code (b a : GeP3) (c : EdCtx) (pub sig msg : List UInt8) :
    checkEquation b a c pub sig msg = 0 ∨ checkEquation b a c pub sig msg = -1 := by
  unfold checkEquation
  simp only
  split
  · exact Or.inl rfl
  · exact Or.inr rfl

/-- A step that needs two points has its own code, or that of a point which is not there. -/
theorem code_of_points (b a : Option GeP3) (f : GeP3 → GeP3 → ℤ) (codes : ∀ B A, f B A = 0 ∨ f B A = -1) :
    (b.bind fun B => a.map fun A => f B A).getD (-1) = 0 ∨ (b.bind fun B => a.map fun A => f B A).getD (-1) = -1 := by
  cases b with
  | none => exact Or.inr rfl
  | some b =>
    cases a with
    | none => exact Or.inr rfl
    | some a => exact codes b a

theorem verify_code (pub sig msg : List UInt8) : ed25519Verify pub sig msg = 0 ∨ ed25519Verify pub sig msg = -1 := by
  unfold ed25519Verify
  split
  · exact Or.inr rfl
  · exact code_of_points _ _ _ fun b a => checkEquation_code b a edInit pub sig msg

section
variable {pub R S : List UInt8} {msg : List UInt8}

/-- What is accepted, with the hash of the standard. -/
theorem accepted_iff (pub_length : pub.length = 32) (R_length : R.length = 32) (S_length : S.length = 32)
    (fits : msg.length < 2 ^ 64) :
    ed25519Verify pub (R ++ S) msg = 0 ↔ leNat S < L ∧
      ∃ A R' : Point edwards, StandsFor pub A ∧ encode R' = R ∧ leNat S • B = R' + challenge R pub msg • A := by
  rw [verify_iff msg pub_length (by rw [List.length_append, R_length, S_length]), List.take_left' R_length,
    List.drop_left' R_length, codeChallenge_eq R_length pub_length fits]
  refine and_congr_right fun _ => ?_
  constructor
  · rintro ⟨A, y, parity, equation⟩
    refine ⟨A, _, ⟨y, parity⟩, equation, ?_⟩
    abel
  · rintro ⟨A, R', stands, bytes, equation⟩
    refine ⟨A, stands.y, stands.parity, ?_⟩
    rw [equation, ← bytes]
    congr 1
    abel

end

section
variable (pub R S : Vector UInt8 32) (msg : List UInt8)

/-- Every 32-byte key, every 64-byte signature and every message: the code is 0 or -1, and it is 0
exactly when S is below L, the key decodes to a point A, and R is the encoding of a point R' with
[S]B = R' + [k]A, where k is SHA-512(R ++ key ++ msg) modulo L. Neither A nor R' is asked for
its order. -/
theorem verify_exactly (fits : msg.length < 2 ^ 64) :
    (ed25519Verify pub.toList (R.toList ++ S.toList) msg = 0 ∨ ed25519Verify pub.toList (R.toList ++ S.toList) msg = -1) ∧
      (ed25519Verify pub.toList (R.toList ++ S.toList) msg = 0 ↔
        leNat S.toList < L ∧ ∃ A R' : Point edwards, StandsFor pub.toList A ∧ encode R' = R.toList ∧
          leNat S.toList • B = R' + challenge R.toList pub.toList msg • A) :=
  ⟨verify_code _ _ _, accepted_iff Vector.length_toList Vector.length_toList Vector.length_toList fits⟩

/-- The base point as key and as R, and three bytes. -/
theorem verify_exactly_base :
    (ed25519Verify (encode B) (encode B ++ leBytes 32 5) [97, 98, 99] = 0 ∨
        ed25519Verify (encode B) (encode B ++ leBytes 32 5) [97, 98, 99] = -1) ∧
      (ed25519Verify (encode B) (encode B ++ leBytes 32 5) [97, 98, 99] = 0 ↔
        leNat (leBytes 32 5) < L ∧ ∃ A R' : Point edwards, StandsFor (encode B) A ∧ encode R' = encode B ∧
          leNat (leBytes 32 5) • B = R' + challenge (encode B) (encode B) [97, 98, 99] • A) := by
  let point : Vector UInt8 32 := ⟨(encode B).toArray, by rw [List.size_toArray, encode_length]⟩
  let scalar : Vector UInt8 32 := ⟨(leBytes 32 5).toArray, by rw [List.size_toArray, leBytes_length]⟩
  exact verify_exactly point point scalar [97, 98, 99] (by decide)

end

/-! Keys of small order. -/

theorem mod_nsmul {A : Point edwards} {n : ℕ} (order : n • A = 0) (k : ℕ) : (k % n) • A = k • A := by
  conv_rhs => rw [← Nat.div_add_mod k n, add_nsmul, mul_comm n, mul_nsmul', order, nsmul_zero, zero_add]

/-- What somebody without any secret puts forward: he picks S, and guesses what the hash is modulo
the order of the key. -/
def guessed (A : Point edwards) (S j : ℕ) : List UInt8 := encode (S • B + -(j • A))

theorem guess_accepted {pub : List UInt8} (pub_length : pub.length = 32) {A : Point edwards} {n : ℕ} (stands : StandsFor pub A)
    (order : n • A = 0) {msg : List UInt8} (fits : msg.length < 2 ^ 64) {S j : ℕ} (below : S < L)
    (right : challenge (guessed A S j) pub msg % n = j % n) : ed25519Verify pub (guessed A S j ++ leBytes 32 S) msg = 0 := by
  have scalar : leNat (leBytes 32 S) = S := by
    rw [leNat_leBytes, Nat.mod_eq_of_lt (Nat.lt_trans below L_fits)]
  have R_length : (guessed A S j).length = 32 := encode_length _
  rw [accepted_iff pub_length R_length (leBytes_length _ _) fits, scalar]
  refine ⟨below, A, _, stands, rfl, ?_⟩
  rw [← mod_nsmul order (challenge _ _ _), right, mod_nsmul order]
  abel

/-- A key that decodes to a point of order dividing `n`: for every message and every S below L, a
guess of the hash modulo `n` gives a signature that is accepted whenever the guess is right. Under the
neutral point every guess is right, and every S signs every message. -/
theorem small_order_key_accepts (pub : Vector UInt8 32) (A : Point edwards) (n : ℕ) (stands : StandsFor pub.toList A)
    (order : n • A = 0) (msg : List UInt8) (fits : msg.length < 2 ^ 64) (S : ℕ) (below : S < L) :
    (∀ j, challenge (guessed A S j) pub.toList msg % n = j % n →
      ed25519Verify pub.toList (guessed A S j ++ leBytes 32 S) msg = 0) ∧
      (A = 0 → ed25519Verify pub.toList (guessed A S 0 ++ leBytes 32 S) msg = 0) := by
  refine ⟨fun j right => guess_accepted Vector.length_toList stands order fits below right, fun neutral => ?_⟩
  have one : 1 • A = 0 := by rw [neutral, nsmul_zero]
  exact guess_accepted Vector.length_toList stands one fits below (by rw [Nat.mod_one, Nat.mod_one])

def zeros : List UInt8 := List.replicate 32 0

/-- The point that y = 0 stands for. -/
def orderFour : Point edwards := ⟨iNumber, 0, by
  unfold Curve.On
  linear_combination -i_sq⟩

theorem orderFour_order : 4 • orderFour = 0 := by
  have x : (orderFour + orderFour).x = 0 := by
    rw [add_x]
    simp [orderFour]
  have four : 4 • orderFour = (orderFour + orderFour) + (orderFour + orderFour) := by
    rw [← two_nsmul, ← two_nsmul, ← mul_nsmul]
  rw [four, Library.LadderCurve.double_eq_zero x]

theorem zeros_stands : StandsFor zeros orderFour := by
  have number : leNat zeros = 0 := by decide
  have value : (iNumber : ZMod P).val = iNumber := ZMod.val_cast_of_lt (by decide)
  refine ⟨?_, ?_⟩
  · rw [decodeY, number]
    rfl
  · rw [signBit, number]
    change (iNumber : ZMod P).val % 2 = 0
    rw [value]
    decide

/-- Zeros as a key, and three bytes. -/
theorem small_order_key_accepts_order_four :
    (∀ j, challenge (guessed orderFour 5 j) zeros [97, 98, 99] % 4 = j % 4 →
      ed25519Verify zeros (guessed orderFour 5 j ++ leBytes 32 5) [97, 98, 99] = 0) ∧
      (orderFour = 0 → ed25519Verify zeros (guessed orderFour 5 0 ++ leBytes 32 5) [97, 98, 99] = 0) :=
  small_order_key_accepts (Vector.replicate 32 0) orderFour 4 zeros_stands orderFour_order [97, 98, 99] (by decide) 5 (by decide)

end Coalesce.SignatureCheck
