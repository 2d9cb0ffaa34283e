import Coalesce.Library.ByteNumber
import Mathlib.Data.BitVec

/-! Machine words put together from bytes with shifts, and taken apart again. -/

namespace Coalesce.Library.WordBytes
open ByteNumber

/-- Big-endian load: byte `j` goes to `<< (w - 8 - 8 * j)`. -/
def loadWord (w : Nat) (bytes : List UInt8) : BitVec w :=
  (List.range (w / 8)).foldl
    (fun word j => word ||| ((bytes.getD j 0).toBitVec.setWidth w <<< (w - 8 - 8 * j))) 0

/-- Big-endian store: byte `j` is `word >> (w - 8 - 8 * j)`. -/
def storeWord {w : Nat} (word : BitVec w) : List UInt8 :=
  (List.range (w / 8)).map fun j => UInt8.ofBitVec ((word >>> (w - 8 - 8 * j)).setWidth 8)

/-- A byte put below the bytes already loaded. -/
private theorem or_shifted (high shift : Nat) (byte : UInt8) :
    (high * 2 ^ (shift + 8)) ||| (byte.toNat * 2 ^ shift) = (high * 256 + byte.toNat) * 2 ^ shift := by
  have small : byte.toNat < 2 ^ 8 := byte.toNat_lt
  calc
    _ = (high <<< 8 ||| byte.toNat) <<< shift := by
      rw [Nat.shiftLeft_or_distrib]
      simp only [Nat.shiftLeft_eq]
      rw [Nat.mul_assoc, ← pow_add, Nat.add_comm 8 shift]
    _ = (high <<< 8 + byte.toNat) <<< shift := by rw [Nat.shiftLeft_add_eq_or_of_lt small]
    _ = _ := by simp only [Nat.shiftLeft_eq]

private theorem loadWord_run (w : Nat) (bytes : List UInt8) (count : Nat)
    (fits : 8 * count ≤ w) (present : count ≤ bytes.length) :
    (List.range count).foldl
      (fun word j => word ||| ((bytes.getD j 0).toBitVec.setWidth w <<< (w - 8 - 8 * j))) 0 =
      BitVec.ofNat w (beNat (bytes.take count) * 2 ^ (w - 8 * count)) := by
  induction count with
  | zero => simp [beNat]
  | succ count ih =>
    have small := beNat_lt (bytes.take count)
    rw [List.length_take, Nat.min_eq_left (by omega)] at small
    have next := take_succ_getD present
    have power : 256 ^ count * 2 ^ (w - 8 * count) = 2 ^ w := by
      rw [show 256 = 2 ^ 8 from rfl, ← pow_mul, ← pow_add]
      congr 1
      omega
    have byte_small : (bytes.getD count 0).toNat < 2 ^ 8 := UInt8.toNat_lt _
    have byte_fits : (bytes.getD count 0).toNat * 2 ^ (w - 8 - 8 * count) < 2 ^ w := by
      calc _ < 2 ^ 8 * 2 ^ (w - 8 - 8 * count) := by gcongr
        _ = 2 ^ (8 + (w - 8 - 8 * count)) := by rw [pow_add]
        _ ≤ 2 ^ w := Nat.pow_le_pow_right (by decide) (by omega)
    have loaded_fits : beNat (bytes.take count) * 2 ^ (w - 8 * count) < 2 ^ w := by
      rw [← power]
      gcongr
    rw [List.range_succ, List.foldl_append, List.foldl_cons, List.foldl_nil, ih (by omega) (by omega),
      next, beNat_append, beNat_singleton]
    apply BitVec.eq_of_toNat_eq
    simp only [BitVec.toNat_or, BitVec.toNat_ofNat, BitVec.toNat_shiftLeft, BitVec.toNat_setWidth,
      UInt8.toNat_toBitVec, Nat.shiftLeft_eq, List.length_singleton, pow_one]
    rw [Nat.mod_eq_of_lt loaded_fits, Nat.mod_eq_of_lt (Nat.lt_of_lt_of_le byte_small (Nat.pow_le_pow_right (by decide) (by omega))),
      Nat.mod_eq_of_lt byte_fits]
    rw [show w - 8 * count = (w - 8 - 8 * count) + 8 by omega, or_shifted,
      show w - 8 - 8 * count = w - 8 * (count + 1) by omega]
    symm
    apply Nat.mod_eq_of_lt
    have whole := beNat_lt (bytes.take (count + 1))
    rw [next, beNat_append, beNat_singleton, List.length_append, List.length_take, Nat.min_eq_left (by omega),
      List.length_singleton, pow_one] at whole
    calc _ < 256 ^ (count + 1) * 2 ^ (w - 8 * (count + 1)) := by gcongr
      _ = 2 ^ w := by
        rw [show 256 = 2 ^ 8 from rfl, ← pow_mul, ← pow_add]
        congr 1
        omega

theorem loadWord_eq (w : Nat) (bytes : List UInt8) (whole : 8 * (w / 8) = w) (length : w / 8 ≤ bytes.length) :
    loadWord w bytes = BitVec.ofNat w (beNat (bytes.take (w / 8))) := by
  rw [loadWord, loadWord_run w bytes (w / 8) (by omega) length, whole, Nat.sub_self, pow_zero, Nat.mul_one]

theorem storeWord_eq {w : Nat} (word : BitVec w) (whole : 8 * (w / 8) = w) :
    storeWord word = beBytes (w / 8) word.toNat := by
  rw [storeWord, beBytes_eq_map]
  apply List.map_congr_left
  intro j member
  have bound := List.mem_range.mp member
  apply UInt8.toNat.inj
  rw [UInt8.toNat_ofBitVec, BitVec.toNat_setWidth, BitVec.toNat_ushiftRight, UInt8.toNat_ofNat',
    Nat.shiftRight_eq_div_pow, show 256 = 2 ^ 8 from rfl, ← pow_mul]
  congr 3
  omega

/-! Least significant byte first. -/

/-- Little-endian load: byte `j` goes to `<< 8 * j`. -/
def loadWordLe (w : Nat) (bytes : List UInt8) : BitVec w :=
  (List.range (w / 8)).foldl (fun word j => word ||| ((bytes.getD j 0).toBitVec.setWidth w <<< (8 * j))) 0

/-- Little-endian store: byte `j` is `word >> 8 * j`. -/
def storeWordLe {w : Nat} (word : BitVec w) : List UInt8 :=
  (List.range (w / 8)).map fun j => UInt8.ofBitVec ((word >>> (8 * j)).setWidth 8)

private theorem loadWordLe_run (w : Nat) (bytes : List UInt8) (count : Nat)
    (fits : 8 * count ≤ w) (present : count ≤ bytes.length) :
    ((List.range count).foldl
      (fun word j => word ||| ((bytes.getD j 0).toBitVec.setWidth w <<< (8 * j))) 0).toNat =
      leNat (bytes.take count) := by
  induction count with
  | zero => simp
  | succ count ih =>
    have small := leNat_lt (bytes.take count)
    rw [List.length_take, Nat.min_eq_left (by omega), show 256 = 2 ^ 8 from rfl, ← pow_mul] at small
    have next := take_succ_getD present
    have byte_small : (bytes.getD count 0).toNat < 2 ^ 8 := UInt8.toNat_lt _
    have byte_fits : (bytes.getD count 0).toNat * 2 ^ (8 * count) < 2 ^ w := by
      calc _ < 2 ^ 8 * 2 ^ (8 * count) := by gcongr
        _ = 2 ^ (8 * (count + 1)) := by rw [← pow_add, Nat.mul_succ, Nat.add_comm]
        _ ≤ 2 ^ w := Nat.pow_le_pow_right (by decide) fits
    rw [List.range_succ, List.foldl_append, List.foldl_cons, List.foldl_nil, next, leNat_append, BitVec.toNat_or,
      ih (by omega) (by omega), BitVec.toNat_shiftLeft, BitVec.toNat_setWidth, UInt8.toNat_toBitVec,
      Nat.mod_eq_of_lt (Nat.lt_of_lt_of_le byte_small (Nat.pow_le_pow_right (by decide) (by omega))),
      Nat.shiftLeft_eq, Nat.mod_eq_of_lt byte_fits, ← Nat.shiftLeft_eq, Nat.or_comm,
      ← Nat.shiftLeft_add_eq_or_of_lt small, List.length_take, Nat.min_eq_left (by omega), Nat.shiftLeft_eq,
      show 256 = 2 ^ 8 from rfl, ← pow_mul]
    simp only [leNat_cons, leNat_nil]
    ring

theorem loadWordLe_toNat (w : Nat) (bytes : List UInt8) (length : w / 8 ≤ bytes.length) :
    (loadWordLe w bytes).toNat = leNat (bytes.take (w / 8)) :=
  loadWordLe_run w bytes (w / 8) (by omega) length

theorem storeWordLe_eq {w : Nat} (word : BitVec w) : storeWordLe word = leBytes (w / 8) word.toNat := by
  rw [storeWordLe, leBytes_eq_map]
  apply List.map_congr_left
  intro j member
  apply UInt8.toNat.inj
  rw [UInt8.toNat_ofBitVec, BitVec.toNat_setWidth, BitVec.toNat_ushiftRight, UInt8.toNat_ofNat',
    Nat.shiftRight_eq_div_pow, show 256 = 2 ^ 8 from rfl, ← pow_mul]

/-- The upper bits of one word under the lower bits of the next. -/
theorem funnel_toNat {x y : BitVec 64} {s t : Nat} (fits : x.toNat < 2 ^ (s + t)) (within : t ≤ 64) :
    ((x >>> s) ||| (y <<< t)).toNat = x.toNat / 2 ^ s + y.toNat % 2 ^ (64 - t) * 2 ^ t := by
  have low : x.toNat / 2 ^ s < 2 ^ t := by
    rw [Nat.div_lt_iff_lt_mul (by positivity), ← pow_add, Nat.add_comm]
    exact fits
  have high : y.toNat * 2 ^ t % 2 ^ 64 = y.toNat % 2 ^ (64 - t) * 2 ^ t := by
    rw [show 2 ^ 64 = 2 ^ (64 - t) * 2 ^ t by rw [← pow_add, Nat.sub_add_cancel within], Nat.mul_mod_mul_right]
  rw [BitVec.toNat_or, BitVec.toNat_ushiftRight, BitVec.toNat_shiftLeft, Nat.shiftRight_eq_div_pow, Nat.shiftLeft_eq,
    high, ← Nat.shiftLeft_eq, Nat.or_comm, ← Nat.shiftLeft_add_eq_or_of_lt low, Nat.add_comm]

end Coalesce.Library.WordBytes
