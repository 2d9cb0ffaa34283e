import Coalesce.FieldArithmetic

/-! Field elements as 32 bytes: every string is read, the top bit aside, and what is
written is the number below p, least significant byte first. -/

namespace Coalesce.FieldBytes
open Library.ByteNumber Library.WordBytes Field25519 FieldArithmetic Primes25519

/-- The first word of at least eight bytes. -/
theorem leNat_word {bytes : List UInt8} (long : 8 ≤ bytes.length) :
    leNat bytes = (loadWordLe 64 bytes).toNat + 2 ^ 64 * leNat (bytes.drop 8) := by
  rw [loadWordLe_toNat 64 _ long, leNat_take_drop _ 8 long]
  norm_num

theorem leNat_words {bytes : List UInt8} (length : bytes.length = 32) :
    leNat bytes = (loadWordLe 64 bytes).toNat + 2 ^ 64 * (loadWordLe 64 (bytes.drop 8)).toNat +
      2 ^ 128 * (loadWordLe 64 (bytes.drop 16)).toNat + 2 ^ 192 * (loadWordLe 64 (bytes.drop 24)).toNat := by
  have first : leNat bytes = _ + 2 ^ 64 * leNat (bytes.drop 8) := leNat_word (by omega)
  have second : leNat (bytes.drop 8) = _ + 2 ^ 64 * leNat ((bytes.drop 8).drop 8) :=
    leNat_word (by rw [List.length_drop]; omega)
  have third : leNat (bytes.drop 16) = _ + 2 ^ 64 * leNat ((bytes.drop 16).drop 8) :=
    leNat_word (by rw [List.length_drop]; omega)
  have fourth : leNat (bytes.drop 24) = _ + 2 ^ 64 * leNat ((bytes.drop 24).drop 8) :=
    leNat_word (by rw [List.length_drop]; omega)
  simp only [List.drop_drop, Nat.reduceAdd] at second third fourth
  rw [List.drop_of_length_le (show bytes.length ≤ 32 by omega), leNat_nil] at fourth
  omega

theorem within_frombytes (bytes : List UInt8) : Within 1 (fe25519Frombytes bytes) := by
  constructor <;> simp only [fe25519Frombytes, mask_toNat] <;> omega

/-- The top bit is ignored, and numbers from p on are taken as well. -/
theorem frombytes_value {bytes : List UInt8} (length : bytes.length = 32) :
    value (fe25519Frombytes bytes) = leNat bytes % 2 ^ 255 := by
  have words := leNat_words length
  have l1 := @funnel_toNat (loadWordLe 64 bytes) (loadWordLe 64 (bytes.drop 8)) 51 13 (BitVec.isLt _) (by decide)
  have l2 := @funnel_toNat (loadWordLe 64 (bytes.drop 8)) (loadWordLe 64 (bytes.drop 16)) 38 26 (BitVec.isLt _) (by decide)
  have l3 := @funnel_toNat (loadWordLe 64 (bytes.drop 16)) (loadWordLe 64 (bytes.drop 24)) 25 39 (BitVec.isLt _) (by decide)
  have l4 : (loadWordLe 64 (bytes.drop 24) >>> 12).toNat = (loadWordLe 64 (bytes.drop 24)).toNat / 2 ^ 12 := by
    rw [BitVec.toNat_ushiftRight, Nat.shiftRight_eq_div_pow]
  have b0 := (loadWordLe 64 bytes).isLt
  have b1 := (loadWordLe 64 (bytes.drop 8)).isLt
  have b2 := (loadWordLe 64 (bytes.drop 16)).isLt
  have b3 := (loadWordLe 64 (bytes.drop 24)).isLt
  simp only [value, fe25519Frombytes, mask_toNat, l1, l2, l3, l4]
  omega

theorem rep_frombytes {bytes : List UInt8} (length : bytes.length = 32) :
    Rep 1 (fe25519Frombytes bytes) (leNat bytes % 2 ^ 255 : ℕ) :=
  ⟨within_frombytes bytes, congrArg Nat.cast (frombytes_value length)⟩

/-- Limbs below 2^51. -/
structure Reduced (a : Fe25519) : Prop where
  l0 : a.l0.toNat < 2 ^ 51
  l1 : a.l1.toNat < 2 ^ 51
  l2 : a.l2.toNat < 2 ^ 51
  l3 : a.l3.toNat < 2 ^ 51
  l4 : a.l4.toNat < 2 ^ 51

theorem Reduced.value_lt {a : Fe25519} (reduced : Reduced a) : value a < 2 ^ 255 := by
  obtain ⟨b0, b1, b2, b3, b4⟩ := reduced
  unfold value
  omega

theorem reduced_frombytes (bytes : List UInt8) : Reduced (fe25519Frombytes bytes) := by
  constructor <;> simp only [fe25519Frombytes, mask_toNat] <;> omega

theorem Reduced.below {a : Fe25519} (reduced : Reduced a) {bound : ℕ} (more : 2 ^ 51 ≤ bound) : Below bound a :=
  ⟨Nat.lt_of_lt_of_le reduced.l0 more, Nat.lt_of_lt_of_le reduced.l1 more, Nat.lt_of_lt_of_le reduced.l2 more,
    Nat.lt_of_lt_of_le reduced.l3 more, Nat.lt_of_lt_of_le reduced.l4 more⟩

theorem packWords_eq {a : Fe25519} (reduced : Reduced a) : packWords a = leBytes 32 (value a) := by
  obtain ⟨b0, b1, b2, b3, b4⟩ := reduced
  have w0 := @funnel_toNat a.l0 a.l1 0 51 (by omega) (by decide)
  have w1 := @funnel_toNat a.l1 a.l2 13 38 (by omega) (by decide)
  have w2 := @funnel_toNat a.l2 a.l3 26 25 (by omega) (by decide)
  have w3 := @funnel_toNat a.l3 a.l4 39 12 (by omega) (by decide)
  rw [BitVec.ushiftRight_zero] at w0
  apply leNat_injective
  · simp [packWords, storeWordLe]
  rw [packWords, storeWordLe_eq, storeWordLe_eq, storeWordLe_eq, storeWordLe_eq, w0, w1, w2, w3]
  simp only [leNat_append, leNat_leBytes, leBytes_length, List.length_append, value]
  omega

/-- Adding 19 carries out of the limbs exactly from p on. -/
theorem plus19_value {a : Fe25519} (reduced : Reduced a) :
    Reduced (plus19 a).1 ∧ value (plus19 a).1 + 2 ^ 255 * (plus19 a).2.toNat = value a + 19 ∧ (plus19 a).2.toNat ≤ 1 := by
  obtain ⟨b0, b1, b2, b3, b4⟩ := reduced
  have s0 : (a.l0 + 19).toNat = a.l0.toNat + 19 := add_toNat (by rw [show (19 : BitVec 64).toNat = 19 from rfl]; omega)
  have s1 : (a.l1 + (a.l0 + 19) >>> 51).toNat = _ := carry_toNat (by omega)
  have s2 : (a.l2 + (a.l1 + (a.l0 + 19) >>> 51) >>> 51).toNat = _ := carry_toNat (by omega)
  have s3 : (a.l3 + (a.l2 + (a.l1 + (a.l0 + 19) >>> 51) >>> 51) >>> 51).toNat = _ := carry_toNat (by omega)
  have s4 : (a.l4 + (a.l3 + (a.l2 + (a.l1 + (a.l0 + 19) >>> 51) >>> 51) >>> 51) >>> 51).toNat = _ := carry_toNat (by omega)
  refine ⟨?_, ?_⟩
  · constructor <;> simp only [plus19, mask_toNat] <;> omega
  · simp only [plus19, value, mask_toNat, shift_toNat]
    omega

theorem select_eq {a t : Fe25519} {c : BitVec 64} (bit : c.toNat ≤ 1) : select a t c = if c.toNat = 1 then t else a := by
  have kept (x : BitVec 64) : x &&& 18446744073709551615#64 = x := BitVec.and_allOnes
  rcases (show c.toNat = 0 ∨ c.toNat = 1 by omega) with zero | one
  · obtain rfl : c = 0 := BitVec.eq_of_toNat_eq zero
    simp [select, kept]
  · obtain rfl : c = 1 := BitVec.eq_of_toNat_eq one
    simp [select, kept]

/-- One pass leaves at most one carry for each limb of the next, whatever was in the limbs. -/
theorem carryPass_reduced {a : Fe25519} (below : Below (2 ^ 63) a) : Reduced (carryPass (carryPass a)) := by
  obtain ⟨b0, b1, b2, b3, b4⟩ := below
  obtain ⟨r, c0, c1, c2, c3, c4, first⟩ := carryPass_limbs b1 b2 b3 b4
  obtain ⟨r', d0, d1, d2, d3, d4, second⟩ :=
    @carryPass_limbs (carryPass a) (by omega) (by omega) (by omega) (by omega)
  constructor <;> omega

theorem carryPass_denotes {a : Fe25519} (below : Below (2 ^ 63) a) :
    (value (carryPass a) : ZMod P) = value a ∧ Below (2 ^ 63) (carryPass a) := by
  obtain ⟨c, wrapped, within⟩ := carryPass_value below.l1 below.l2 below.l3 below.l4
  exact ⟨cast_wrapped wrapped, (within.mono (by decide)).below.mono (by decide)⟩

/-- The canonical encoding, from any limbs whose carries fit. -/
theorem fe25519Tobytes_below {a : Fe25519} {x : ZMod P} (below : Below (2 ^ 63) a) (denotes : (value a : ZMod P) = x) :
    fe25519Tobytes a = leBytes 32 x.val := by
  have reduced := carryPass_reduced below
  obtain ⟨once, below'⟩ := carryPass_denotes below
  have same := (carryPass_denotes below').1
  rw [once, denotes] at same
  obtain ⟨reduced', sum, bit⟩ := plus19_value reduced
  have bounded := reduced.value_lt
  have bounded' := reduced'.value_lt
  have encoded (b : Fe25519) (small : Reduced b) (below : value b < P) (denotes : (value b : ZMod P) = x) :
      packWords b = leBytes 32 x.val := by
    rw [packWords_eq small, ← denotes, ZMod.val_cast_of_lt below]
  change packWords (select (carryPass (carryPass a)) (plus19 (carryPass (carryPass a))).1
    (plus19 (carryPass (carryPass a))).2) = _
  rw [select_eq bit]
  split
  · next one =>
    rw [one] at sum
    refine encoded _ reduced' (by unfold P; omega) ?_
    rw [← same]
    exact cast_wrapped (c := 1) (by omega)
  · next zero =>
    exact encoded _ reduced (by unfold P; omega) same

theorem fe25519Tobytes_eq {a : Fe25519} {x : ZMod P} (rep : Rep 4 a x) : fe25519Tobytes a = leBytes 32 x.val :=
  fe25519Tobytes_below rep.within.carries rep.denotes

theorem encoding_injective {x y : ZMod P} (same : leBytes 32 x.val = leBytes 32 y.val) : x = y := by
  have first := leNat_leBytes 32 x.val
  have x_bound := ZMod.val_lt x
  have y_bound := ZMod.val_lt y
  have size : P < 256 ^ 32 := by decide
  rw [same, leNat_leBytes, Nat.mod_eq_of_lt (by omega), Nat.mod_eq_of_lt (by omega)] at first
  exact ZMod.val_injective P first.symm

theorem fe25519Iszero_below {a : Fe25519} {x : ZMod P} (below : Below (2 ^ 63) a) (denotes : (value a : ZMod P) = x) :
    fe25519Iszero a = decide (x = 0) := by
  have zeros : leBytes 32 (0 : ZMod P).val = List.replicate 32 0 := by
    rw [ZMod.val_zero]
    decide
  have compared : leBytes 32 x.val = List.replicate 32 0 ↔ x = 0 := by
    rw [← zeros]
    exact ⟨encoding_injective, fun zero => by rw [zero]⟩
  rw [fe25519Iszero, fe25519Tobytes_below below denotes, Bool.eq_iff_iff, beq_iff_eq, decide_eq_true_eq, ← compared]
  exact Library.Collect.collect_bytes_eq_zero (leBytes_length 32 x.val)

theorem fe25519Iszero_eq {a : Fe25519} {x : ZMod P} (rep : Rep 4 a x) : fe25519Iszero a = decide (x = 0) :=
  fe25519Iszero_below rep.within.carries rep.denotes

/-- The parity of the canonical number. -/
theorem fe25519Parity_below {a : Fe25519} {x : ZMod P} (below : Below (2 ^ 63) a) (denotes : (value a : ZMod P) = x) :
    fe25519Parity a = x.val % 2 := by
  have first : (leBytes 32 x.val).getD 0 0 = UInt8.ofNat x.val := rfl
  rw [fe25519Parity, fe25519Tobytes_below below denotes, first, UInt8.toNat_and, UInt8.toNat_ofNat',
    show (1 : UInt8).toNat = 1 from rfl, Nat.and_one_is_mod]
  omega

theorem fe25519Parity_eq {a : Fe25519} {x : ZMod P} (rep : Rep 4 a x) : fe25519Parity a = x.val % 2 :=
  fe25519Parity_below rep.within.carries rep.denotes

end Coalesce.FieldBytes
