import Coalesce.Library.BitLoop
import Coalesce.Library.WordBytes
import Coalesce.Primes25519

/-! Scalars modulo L from ed25519.c: reduction bit by bit, a product of bytes plus a
third scalar, and the comparison with L. -/

namespace Coalesce.Scalar25519
open Library.ByteNumber Library.BitLoop Library.WordBytes Primes25519

/-- `uint64_t[4]`, little-endian. -/
structure Words where
  w0 : BitVec 64
  w1 : BitVec 64
  w2 : BitVec 64
  w3 : BitVec 64
  deriving DecidableEq, Repr

def SC_L : Words := ⟨0x5812631a5cf5d3ed, 0x14def9dea2f79cd6, 0x0000000000000000, 0x1000000000000000⟩

def scGe (a b : Words) : Bool :=
  if a.w3 > b.w3 then true else if a.w3 < b.w3 then false
  else if a.w2 > b.w2 then true else if a.w2 < b.w2 then false
  else if a.w1 > b.w1 then true else if a.w1 < b.w1 then false
  else if a.w0 > b.w0 then true else if a.w0 < b.w0 then false
  else true

/-- The difference of two words and a borrow, and the next borrow. -/
def subWord (a b borrow : BitVec 64) : BitVec 64 × BitVec 64 :=
  let bi := b + borrow
  (a - bi, if bi < b ∨ a < bi then 1 else 0)

def scSub (a b : Words) : Words :=
  let s0 := subWord a.w0 b.w0 0
  let s1 := subWord a.w1 b.w1 s0.2
  let s2 := subWord a.w2 b.w2 s1.2
  let s3 := subWord a.w3 b.w3 s2.2
  ⟨s0.1, s1.1, s2.1, s3.1⟩

/-- `r = r << 1 | carry` through the four words. -/
def shiftIn (r : Words) (carry : BitVec 64) : Words :=
  ⟨(r.w0 <<< 1) ||| carry, (r.w1 <<< 1) ||| (r.w0 >>> 63), (r.w2 <<< 1) ||| (r.w1 >>> 63), (r.w3 <<< 1) ||| (r.w2 >>> 63)⟩

def reduceRound (input : List UInt8) (r : Words) (bit : ℕ) : Words :=
  let r := shiftIn r (BitVec.ofNat 64 (bitAt input bit))
  if scGe r SC_L then scSub r SC_L else r

def scReduceWide (input : List UInt8) (inlen : ℕ) : List UInt8 :=
  let r := bitsDown (reduceRound input) (inlen * 8) ⟨0, 0, 0, 0⟩
  storeWordLe r.w0 ++ storeWordLe r.w1 ++ storeWordLe r.w2 ++ storeWordLe r.w3

def scReduce (input : List UInt8) : List UInt8 := scReduceWide input 64

/-- The bytes of `prod` and the carry on its way through them. -/
structure Carrying where
  prod : List UInt8
  carry : BitVec 32

/-- `v = prod[k] + addend + carry; prod[k] = v & 0xFF; carry = v >> 8;` -/
def addByte (s : Carrying) (k : ℕ) (addend : BitVec 32) : Carrying :=
  let v := (s.prod.getD k 0).toBitVec.setWidth 32 + addend + s.carry
  ⟨s.prod.set k (UInt8.ofBitVec ((v &&& 0xFF).setWidth 8)), v >>> 8⟩

/-- `for (j = 0; j < count; j++)`, the addends at `prod[start + j]`. -/
def addBytes (addend : ℕ → BitVec 32) (start : ℕ) (s : Carrying) : ℕ → Carrying
  | 0 => s
  | count + 1 => addByte (addBytes addend start s count) (start + count) (addend count)

/-- `while (carry != 0 && k < 64)`, with `rounds` bytes left up to `prod[63]`. -/
def ripple (s : Carrying) (k : ℕ) : ℕ → Carrying
  | 0 => s
  | rounds + 1 => if s.carry ≠ 0 then ripple (addByte s k 0) (k + 1) rounds else s

/-- `(uint32_t)bytes[j]` -/
def byteWord (bytes : List UInt8) (j : ℕ) : BitVec 32 := (bytes.getD j 0).toBitVec.setWidth 32

/-- One row of the product: `a[i] * b`. -/
def mulRow (a b : List UInt8) (prod : List UInt8) (i : ℕ) : List UInt8 :=
  (ripple (addBytes (fun j => byteWord a i * byteWord b j) i ⟨prod, 0⟩ 32) (i + 32) (64 - (i + 32))).prod

def mulRows (a b : List UInt8) (prod : List UInt8) : ℕ → List UInt8
  | 0 => prod
  | count + 1 => mulRow a b (mulRows a b prod count) count

def scMuladd (a b c : List UInt8) : List UInt8 :=
  let prod := mulRows a b (List.replicate 64 0) 32
  let sum := (ripple (addBytes (byteWord c) 0 ⟨prod, 0⟩ 32) 32 32).prod
  scReduceWide sum 64

/-- `(uint8_t)(SC_L[i / 8] >> ((i % 8) * 8))` -/
def byteOfL (i : ℕ) : UInt8 :=
  let word : BitVec 64 := match i / 8 with
    | 0 => SC_L.w0
    | 1 => SC_L.w1
    | 2 => SC_L.w2
    | _ => SC_L.w3
  UInt8.ofBitVec ((word >>> (i % 8 * 8)).setWidth 8)

/-- `for (i = count - 1; i >= 0; i--)` -/
def scLtLFrom (s : List UInt8) : ℕ → Bool
  | 0 => false
  | i + 1 => if s.getD i 0 < byteOfL i then true else if s.getD i 0 > byteOfL i then false else scLtLFrom s i

def scLtL (s : List UInt8) : Bool := scLtLFrom s 32

/-! Reduction. -/

def Words.value (a : Words) : ℕ :=
  a.w0.toNat + 2 ^ 64 * a.w1.toNat + 2 ^ 128 * a.w2.toNat + 2 ^ 192 * a.w3.toNat

theorem value_SC_L : SC_L.value = L := by decide

theorem scGe_eq (a b : Words) : scGe a b = decide (b.value ≤ a.value) := by
  have a0 := a.w0.isLt
  have a1 := a.w1.isLt
  have a2 := a.w2.isLt
  have b0 := b.w0.isLt
  have b1 := b.w1.isLt
  have b2 := b.w2.isLt
  unfold scGe Words.value
  simp only [gt_iff_lt, BitVec.lt_def]
  symm
  split_ifs <;> simp only [decide_eq_true_eq, decide_eq_false_iff_not] <;> omega

theorem subWord_toNat (a b borrow : BitVec 64) (bit : borrow.toNat ≤ 1) :
    (subWord a b borrow).1.toNat + b.toNat + borrow.toNat = a.toNat + 2 ^ 64 * (subWord a b borrow).2.toNat ∧
      (subWord a b borrow).2.toNat ≤ 1 := by
  have a_bound := a.isLt
  have b_bound := b.isLt
  by_cases wrapped : b + borrow < b ∨ a < b + borrow
  · simp only [subWord, if_pos wrapped]
    simp only [BitVec.lt_def, BitVec.toNat_sub, BitVec.toNat_add, show (1 : BitVec 64).toNat = 1 from rfl] at wrapped ⊢
    omega
  · simp only [subWord, if_neg wrapped]
    simp only [BitVec.lt_def, BitVec.toNat_sub, BitVec.toNat_add, show (0 : BitVec 64).toNat = 0 from rfl] at wrapped ⊢
    omega

theorem scSub_value {a b : Words} (enough : b.value ≤ a.value) : (scSub a b).value + b.value = a.value := by
  obtain ⟨d0, c0⟩ := subWord_toNat a.w0 b.w0 0 (by decide)
  obtain ⟨d1, c1⟩ := subWord_toNat a.w1 b.w1 _ c0
  obtain ⟨d2, c2⟩ := subWord_toNat a.w2 b.w2 _ c1
  obtain ⟨d3, c3⟩ := subWord_toNat a.w3 b.w3 _ c2
  have bound := (subWord a.w3 b.w3 (subWord a.w2 b.w2 (subWord a.w1 b.w1 (subWord a.w0 b.w0 0).2).2).2).1.isLt
  rw [show (0 : BitVec 64).toNat = 0 from rfl] at d0
  unfold Words.value at enough ⊢
  simp only [scSub]
  omega

theorem shiftIn_value {r : Words} {carry : BitVec 64} (small : r.value < 2 ^ 255) (bit : carry.toNat ≤ 1) :
    (shiftIn r carry).value = 2 * r.value + carry.toNat := by
  have w0 := @funnel_toNat carry r.w0 0 1 (by omega) (by decide)
  have w1 := @funnel_toNat r.w0 r.w1 63 1 r.w0.isLt (by decide)
  have w2 := @funnel_toNat r.w1 r.w2 63 1 r.w1.isLt (by decide)
  have w3 := @funnel_toNat r.w2 r.w3 63 1 r.w2.isLt (by decide)
  rw [BitVec.ushiftRight_zero, BitVec.or_comm] at w0
  rw [BitVec.or_comm] at w1 w2 w3
  have b0 := r.w0.isLt
  have b1 := r.w1.isLt
  have b2 := r.w2.isLt
  unfold Words.value at small ⊢
  simp only [shiftIn, w0, w1, w2, w3]
  omega

/-- One bit more of the number, modulo L. -/
theorem reduceRound_value {input : List UInt8} {r : Words} {sofar : ℕ} (reached : r.value = sofar % L) (bit : ℕ) :
    (reduceRound input r bit).value = (2 * sofar + leNat input / 2 ^ bit % 2) % L := by
  have order : 0 < L := by decide
  have size : L < 2 ^ 253 := by decide
  have below := Nat.mod_lt sofar order
  have two := Nat.mod_lt (leNat input / 2 ^ bit) (show 2 > 0 by decide)
  have carry : (BitVec.ofNat 64 (bitAt input bit)).toNat = leNat input / 2 ^ bit % 2 := by
    rw [BitVec.toNat_ofNat, bitAt_eq, Nat.mod_eq_of_lt (show leNat input / 2 ^ bit % 2 < 2 ^ 64 by omega)]
  have shifted := @shiftIn_value r (BitVec.ofNat 64 (bitAt input bit)) (by omega) (by omega)
  rw [carry, reached] at shifted
  have next : (2 * sofar + leNat input / 2 ^ bit % 2) % L = (2 * (sofar % L) + leNat input / 2 ^ bit % 2) % L := by
    rw [Nat.add_mod, Nat.mul_mod, Nat.add_mod (2 * (sofar % L)), Nat.mul_mod 2 (sofar % L), Nat.mod_mod]
  rw [next, ← shifted]
  unfold reduceRound
  simp only [scGe_eq, value_SC_L, decide_eq_true_eq]
  split
  · next more =>
    have rest := scSub_value (value_SC_L ▸ more)
    rw [value_SC_L] at rest
    rw [Nat.mod_eq_sub_mod more, Nat.mod_eq_of_lt (by omega)]
    omega
  · next less =>
    rw [Nat.mod_eq_of_lt (by omega)]

theorem scReduceWide_eq {input : List UInt8} {inlen : ℕ} (length : input.length = inlen) :
    scReduceWide input inlen = leBytes 32 (leNat input % L) := by
  have bound := leNat_lt input
  have loop := bitsDown_holds (fun sofar (r : Words) => r.value = sofar % L) (leNat input)
    (fun _ _ bit reached => reduceRound_value reached bit) (inlen * 8) (s := ⟨0, 0, 0, 0⟩) (by decide)
  have whole : leNat input % 2 ^ (inlen * 8) = leNat input := by
    rw [Nat.mod_eq_of_lt]
    rwa [Nat.mul_comm, pow_mul, ← length]
  rw [whole] at loop
  unfold scReduceWide
  generalize bitsDown (reduceRound input) (inlen * 8) ⟨0, 0, 0, 0⟩ = r at loop
  have b0 := r.w0.isLt
  have b1 := r.w1.isLt
  have b2 := r.w2.isLt
  have b3 := r.w3.isLt
  apply leNat_injective
  · simp [storeWordLe]
  simp only [storeWordLe_eq, leNat_append, leNat_leBytes, leBytes_length, List.length_append, ← loop, Words.value]
  omega

/-! Comparison with L. -/

theorem byteOfL_eq : ∀ i < 32, byteOfL i = (leBytes 32 L).getD i 0 := by decide

theorem scLtLFrom_eq {s : List UInt8} (length : s.length = 32) {count : ℕ} (inside : count ≤ 32) :
    scLtLFrom s count = decide (leNat (s.take count) < leNat ((leBytes 32 L).take count)) := by
  induction count with
  | zero => simp [scLtLFrom]
  | succ count ih =>
    have low := leNat_lt (s.take count)
    have low' := leNat_lt ((leBytes 32 L).take count)
    rw [List.length_take, Nat.min_eq_left (by omega)] at low
    rw [List.length_take, leBytes_length, Nat.min_eq_left (by omega)] at low'
    rw [scLtLFrom, ih (by omega), byteOfL_eq count (by omega), leNat_take_succ (by omega),
      leNat_take_succ (by rw [leBytes_length]; omega)]
    simp only [gt_iff_lt, UInt8.lt_iff_toNat_lt]
    generalize (s.getD count 0).toNat = byte
    generalize ((leBytes 32 L).getD count 0).toNat = byte'
    symm
    rcases Nat.lt_trichotomy byte byte' with less | rfl | more
    · rw [if_pos less, decide_eq_true_eq]
      have gap : 256 ^ count * (byte + 1) ≤ 256 ^ count * byte' := Nat.mul_le_mul_left _ less
      rw [Nat.mul_succ] at gap
      omega
    · simp
    · rw [if_neg (by omega), if_pos more, decide_eq_false_iff_not]
      have gap : 256 ^ count * (byte' + 1) ≤ 256 ^ count * byte := Nat.mul_le_mul_left _ more
      rw [Nat.mul_succ] at gap
      omega

theorem scLtL_eq {s : List UInt8} (length : s.length = 32) : scLtL s = decide (leNat s < L) := by
  have order : L < 256 ^ 32 := by decide
  rw [scLtL, scLtLFrom_eq length (Nat.le_refl 32), List.take_of_length_le (by omega),
    List.take_of_length_le (by rw [leBytes_length]), leNat_leBytes, Nat.mod_eq_of_lt order]

end Coalesce.Scalar25519
