import Coalesce.GroupArithmetic

/-! What is written for a point is its encoding, and what is read is a point with these
bytes' y-coordinate and parity, if there is one. -/

namespace Coalesce.GroupBytes
open Library.ByteNumber Library.EdwardsCurve Library.ExtendedCoordinates Library.PointCompression
open Field25519 FieldArithmetic FieldBytes Primes25519 Edwards25519 PointEncoding Ed25519 GroupArithmetic

private theorem top_bit : ∀ n < 128, n ||| 128 = n + 128 := by decide

/-- A bit put above 31 bytes and seven bits. -/
theorem set_top_bit {number parity : ℕ} (small : number < 2 ^ 255) (bit : parity ≤ 1) :
    (leBytes 32 number).modify 31 (· ||| UInt8.ofNat (parity <<< 7)) = leBytes 32 (number + 2 ^ 255 * parity) := by
  have modified := leNat_modify (i := 31) (show 31 < (leBytes 32 number).length by rw [leBytes_length]; decide)
    (· ||| UInt8.ofNat (parity <<< 7))
  apply leNat_injective
  · rw [List.length_modify, leBytes_length, leBytes_length]
  rw [leNat_leBytes, Nat.mod_eq_of_lt (show number < 256 ^ 32 by omega)] at modified
  rw [leNat_leBytes, Nat.mod_eq_of_lt (by omega)]
  have high : number / 256 ^ 31 < 128 := by omega
  rw [Nat.mod_eq_of_lt (show number / 256 ^ 31 < 256 by omega), UInt8.toNat_or, UInt8.toNat_ofNat',
    Nat.mod_eq_of_lt (show number / 256 ^ 31 < 2 ^ 8 by omega)] at modified
  rcases (show parity = 0 ∨ parity = 1 by omega) with rfl | rfl
  · rw [show (UInt8.ofNat (0 <<< 7)).toNat = 0 from rfl, Nat.or_zero] at modified
    omega
  · rw [show (UInt8.ofNat (1 <<< 7)).toNat = 128 from rfl, top_bit _ high] at modified
    omega

theorem geTobytes_eq {g : GeP3} {p : Point edwards} (denotes : Denotes g p) : geTobytes g = encode p := by
  obtain ⟨e, ⟨X, Y, Z, -⟩, of⟩ := denotes
  have zi := (rep_invert (Z.mono (by decide))).mono (show 1 ≤ 4 by decide)
  have x := (rep_mul (X.mono (by decide)) zi).mono (show 1 ≤ 4 by decide)
  have y := (rep_mul (Y.mono (by decide)) zi).mono (show 1 ≤ 4 by decide)
  obtain ⟨x_eq, y_eq⟩ := of.affine
  rw [x_eq] at x
  rw [y_eq] at y
  rw [geTobytes]
  simp only [fe25519Tobytes_eq y, fe25519Parity_eq x]
  exact set_top_bit (val_lt p.y) (Nat.le_of_lt_succ (Nat.mod_lt _ (by decide)))

/-! Square roots. -/

theorem P58_exponent : leNat FE25519_P58_EXP % 2 ^ 256 = P / 8 + 1 := by decide

section
variable {c : EdCtx} {a : Fe25519} {x2 : ZMod P}

/-- The candidate, in the field. -/
theorem rep_candidate (rep : Rep 4 a x2) : Rep 1 (fe25519Pow a FE25519_P58_EXP) (x2 ^ (P / 8 + 1)) := by
  rw [← P58_exponent]
  exact rep_pow rep FE25519_P58_EXP

/-- The three outcomes. -/
theorem sqrtCandidate_eq (rep : Rep 1 a x2) :
    sqrtCandidate a c =
      if x2 ^ (P / 8 + 1) * x2 ^ (P / 8 + 1) = x2 then some (fe25519Pow a FE25519_P58_EXP)
      else if x2 ^ (P / 8 + 1) * x2 ^ (P / 8 + 1) = -x2 then
        some (fe25519Mul (fe25519Pow a FE25519_P58_EXP) c.sqrtm1)
      else none := by
  have squared := (rep_sq ((rep_candidate (rep.mono (by decide))).mono (by decide))).mono (show 1 ≤ 4 by decide)
  have negated := (rep_feNeg rep).mono (show 1 ≤ 4 by decide)
  rw [sqrtCandidate]
  simp only [feEqual_eq squared (rep.mono (by decide)), feEqual_eq squared negated, decide_eq_true_eq]

theorem sqrtCandidate_some (context : Context c) (rep : Rep 1 a x2) {root : Fe25519}
    (found : sqrtCandidate a c = some root) : ∃ x, Rep 1 root x ∧ x * x = x2 := by
  have candidate := rep_candidate (rep.mono (show 1 ≤ 4 by decide))
  rw [sqrtCandidate_eq rep] at found
  split at found
  · next square =>
    obtain rfl := Option.some.inj found
    exact ⟨_, candidate, square⟩
  split at found
  · next square =>
    obtain rfl := Option.some.inj found
    refine ⟨_, rep_mul (candidate.mono (by decide)) (context.sqrtm1.mono (by decide)), ?_⟩
    linear_combination x2 ^ (P / 8 + 1) * x2 ^ (P / 8 + 1) * edwards.i_sq - square
  · cases found

theorem sqrtCandidate_none (rep : Rep 1 a x2) (failed : sqrtCandidate a c = none) (x : ZMod P) : x * x ≠ x2 := by
  intro square
  have outcome := candidate_sq (show P = 8 * (P / 8) + 5 by decide) ZMod.pow_card square
  rw [sqrtCandidate_eq rep] at failed
  rcases outcome with positive | negative
  · rw [if_pos positive] at failed
    cases failed
  · rw [if_pos negative] at failed
    split at failed <;> cases failed

end

/-! Decompression. -/

theorem getD_31 {input : List UInt8} (length : input.length = 32) : (input.getD 31 0).toNat = leNat input / 256 ^ 31 := by
  have last := leNat_take_succ (show 31 < input.length by omega)
  have low := leNat_lt (input.take 31)
  rw [List.length_take, Nat.min_eq_left (by omega)] at low
  rw [List.take_of_length_le (by omega)] at last
  omega

theorem sign_eq {input : List UInt8} (length : input.length = 32) :
    ((input.getD 31 0).toNat >>> 7) &&& 1 = signBit input := by
  have bound := leNat_lt input
  rw [length] at bound
  rw [getD_31 length, Nat.shiftRight_eq_div_pow, Nat.and_one_is_mod, signBit]
  omega

theorem mask_top_bit {input : List UInt8} (length : input.length = 32) :
    leNat (input.modify 31 (· &&& 0x7F)) = leNat input % 2 ^ 255 := by
  have modified := leNat_modify (show 31 < input.length by omega) (· &&& 0x7F)
  have bound := leNat_lt input
  rw [length] at bound
  have byte : (UInt8.ofNat (leNat input / 256 ^ 31) &&& 0x7F).toNat = leNat input / 256 ^ 31 % 128 := by
    rw [UInt8.toNat_and, UInt8.toNat_ofNat', show (0x7F : UInt8).toNat = 2 ^ 7 - 1 from rfl, Nat.and_two_pow_sub_one_eq_mod]
    omega
  rw [byte] at modified
  omega

theorem rep_decodeY {input : List UInt8} (length : input.length = 32) :
    Rep 1 (fe25519Frombytes (input.modify 31 (· &&& 0x7F))) (decodeY input) := by
  have read := rep_frombytes (show (input.modify 31 (· &&& 0x7F)).length = 32 by rw [List.length_modify, length])
  rwa [mask_top_bit length, Nat.mod_mod] at read

theorem rep_xSquared {c : EdCtx} (context : Context c) {a : Fe25519} {y : ZMod P} (rep : Rep 1 a y) :
    Rep 1 (xSquared a c) ((y * y - 1) * (edwards.d * (y * y) + 1)⁻¹) := by
  have one := rep_feFromU64 (v := 1) (n := 1) rfl (by decide)
  rw [Nat.cast_one] at one
  have y2 := rep_sq (rep.mono (show 1 ≤ 4 by decide))
  have u := rep_sub y2 one (by decide)
  have v := rep_add (rep_mul (y2.mono (by decide)) (context.d.mono (by decide))) one (by decide)
  rw [mul_comm _ edwards.d] at v
  exact rep_mul (u.mono (by decide)) ((rep_invert (v.mono (by decide))).mono (by decide))

section
variable {a b : Fe25519} {x y : ZMod P} {sign : ℕ}

theorem withSign_some (rep_x : Rep 1 a x) (rep_y : Rep 1 b y) (bit : sign ≤ 1) {g : GeP3}
    (found : withSign a b sign = some g) :
    ∃ x', x' * x' = x * x ∧ x'.val % 2 = sign ∧ Limbs g ⟨x', y, 1, x' * y⟩ := by
  have with_root {root : Fe25519} {x' : ZMod P} (rep : Rep 1 root x') :
      Limbs ⟨root, b, fe25519SetOne, fe25519Mul root b⟩ ⟨x', y, 1, x' * y⟩ :=
    ⟨rep, rep_y, rep_one, rep_mul (rep.mono (by decide)) (rep_y.mono (by decide))⟩
  have x_wide := rep_x.mono (show 1 ≤ 4 by decide)
  simp only [withSign, fe25519Iszero_eq x_wide, fe25519Parity_eq x_wide, Bool.and_eq_true, decide_eq_true_eq, bne_iff_ne] at found
  split at found
  · cases found
  next passed =>
  obtain rfl := Option.some.inj found
  by_cases parity : x.val % 2 ≠ sign
  · rw [if_pos parity]
    have nonzero : x ≠ 0 := by
      rintro rfl
      rw [ZMod.val_zero] at parity
      exact passed ⟨rfl, parity.symm⟩
    refine ⟨-x, neg_mul_neg x x, ?_, with_root (rep_feNeg rep_x)⟩
    rw [parity_neg nonzero]
    omega
  · rw [if_neg parity]
    exact ⟨x, rfl, not_not.mp parity, with_root rep_x⟩

theorem withSign_none (rep_x : Rep 1 a x) (failed : withSign a b sign = none) : x = 0 ∧ sign ≠ 0 := by
  simp only [withSign, fe25519Iszero_eq (rep_x.mono (show 1 ≤ 4 by decide)), Bool.and_eq_true, decide_eq_true_eq,
    bne_iff_ne] at failed
  split at failed
  · assumption
  · cases failed

end

theorem geFrombytes_eq {input : List UInt8} (length : input.length = 32) (c : EdCtx) :
    geFrombytes input c = (sqrtCandidate (xSquared (fe25519Frombytes (input.modify 31 (· &&& 0x7F))) c) c).bind fun x =>
      withSign x (fe25519Frombytes (input.modify 31 (· &&& 0x7F))) (signBit input) := by
  rw [← sign_eq length]
  rfl

section
variable {c : EdCtx} (context : Context c) {input : List UInt8} (length : input.length = 32)
include context length

/-- Sound: the coordinates of a point with this y-coordinate and parity. -/
theorem geFrombytes_some {g : GeP3} (found : geFrombytes input c = some g) :
    ∃ p : Point edwards, p.y = decodeY input ∧ p.x.val % 2 = signBit input ∧ Limbs g (ofPoint p) := by
  have bound := leNat_lt input
  rw [length] at bound
  have y := rep_decodeY length
  rw [geFrombytes_eq length] at found
  obtain ⟨root, candidate, signed⟩ := Option.bind_eq_some_iff.mp found
  obtain ⟨x, rep_x, square⟩ := sqrtCandidate_some context (rep_xSquared context y) candidate
  obtain ⟨x', same, parity, limbs⟩ := withSign_some rep_x y (by unfold signBit; omega) signed
  exact ⟨⟨x', decodeY input, on_iff.mpr (same.trans square)⟩, rfl, parity, limbs⟩

/-- Complete: no point with this y-coordinate and parity is missed. -/
theorem geFrombytes_none (failed : geFrombytes input c = none) {p : Point edwards} (y_eq : p.y = decodeY input) :
    p.x.val % 2 ≠ signBit input := by
  have y := rep_decodeY length
  rw [← y_eq] at y
  have square := on_iff.mp p.on
  rw [geFrombytes_eq length] at failed
  rcases candidate : sqrtCandidate (xSquared (fe25519Frombytes (input.modify 31 (· &&& 0x7F))) c) c with _ | root
  · exact absurd square (sqrtCandidate_none (rep_xSquared context y) candidate p.x)
  · obtain ⟨x, rep_x, root_square⟩ := sqrtCandidate_some context (rep_xSquared context y) candidate
    rw [candidate] at failed
    obtain ⟨rfl, set⟩ := withSign_none rep_x failed
    rw [← root_square, mul_zero] at square
    rw [mul_self_eq_zero.mp square, ZMod.val_zero]
    exact set.symm

end

/-- The encoding of a point is read as that point. -/
theorem geFrombytes_encode {c : EdCtx} (context : Context c) (p : Point edwards) :
    ∃ g, geFrombytes (encode p) c = some g ∧ Limbs g (ofPoint p) := by
  rcases read : geFrombytes (encode p) c with _ | g
  · exact absurd (signBit_encode p).symm (geFrombytes_none context (encode_length p) read (decodeY_encode p).symm)
  · obtain ⟨q, y, parity, limbs⟩ := geFrombytes_some context (encode_length p) read
    rw [decodeY_encode] at y
    rw [signBit_encode] at parity
    obtain rfl := eq_of_parity y parity
    exact ⟨g, rfl, limbs⟩

/-- The constant bytes are those of the base point. -/
theorem B_compressed : ED25519_B_COMPRESSED = encode B := by
  apply leNat_injective
  · rw [encode_length]
    rfl
  have y : B.y.val = baseY := ZMod.val_cast_of_lt (show baseY < P by decide)
  have x : B.x.val = baseX := ZMod.val_cast_of_lt (show baseX < P by decide)
  rw [leNat_encode, x, y]
  decide

theorem base_read : ∃ g, geFrombytes ED25519_B_COMPRESSED edInit = some g ∧ Denotes g B := by
  obtain ⟨g, read, limbs⟩ := geFrombytes_encode edInit_context B
  rw [← B_compressed] at read
  exact ⟨g, read, limbs.denotes⟩

end Coalesce.GroupBytes
