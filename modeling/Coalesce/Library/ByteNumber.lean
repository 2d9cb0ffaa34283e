import Mathlib.Data.Nat.Digits.Lemmas

/-! Numbers as byte strings, least or most significant byte first. -/

namespace Coalesce.Library.ByteNumber

/-- The number a byte string denotes, least significant byte first. -/
def leNat (bytes : List UInt8) : Nat := Nat.ofDigits 256 (bytes.map UInt8.toNat)

/-- The number a byte string denotes, most significant byte first. -/
def beNat (bytes : List UInt8) : Nat := leNat bytes.reverse

/-- The `count` low bytes of a number, least significant first. -/
def leBytes : (count value : Nat) → List UInt8
  | 0, _ => []
  | count + 1, value => UInt8.ofNat value :: leBytes count (value / 256)

/-- The `count` low bytes of a number, most significant first. -/
def beBytes (count value : Nat) : List UInt8 := (leBytes count value).reverse

@[simp] theorem leNat_nil : leNat [] = 0 := rfl

@[simp] theorem leNat_cons (byte : UInt8) (bytes : List UInt8) :
    leNat (byte :: bytes) = byte.toNat + 256 * leNat bytes := by
  simp [leNat, Nat.ofDigits_cons]

theorem leNat_append (low high : List UInt8) :
    leNat (low ++ high) = leNat low + 256 ^ low.length * leNat high := by
  simp [leNat, Nat.ofDigits_append]

theorem leNat_lt (bytes : List UInt8) : leNat bytes < 256 ^ bytes.length := by
  induction bytes with
  | nil => simp
  | cons byte bytes ih =>
    have small := byte.toNat_lt
    rw [leNat_cons, List.length_cons, pow_succ]
    omega

theorem leNat_take_drop (bytes : List UInt8) (count : Nat) (fits : count ≤ bytes.length) :
    leNat bytes = leNat (bytes.take count) + 256 ^ count * leNat (bytes.drop count) := by
  conv_lhs => rw [← List.take_append_drop count bytes]
  rw [leNat_append, List.length_take, Nat.min_eq_left fits]

@[simp] theorem leBytes_length (count value : Nat) : (leBytes count value).length = count := by
  induction count generalizing value with
  | zero => rfl
  | succ count ih => simp [leBytes, ih]

theorem leNat_leBytes (count value : Nat) : leNat (leBytes count value) = value % 256 ^ count := by
  induction count generalizing value with
  | zero => simp [leBytes, Nat.mod_one]
  | succ count ih =>
    rw [leBytes, leNat_cons, ih, pow_succ', Nat.mod_mul]
    simp

theorem leBytes_leNat (bytes : List UInt8) : leBytes bytes.length (leNat bytes) = bytes := by
  induction bytes with
  | nil => rfl
  | cons byte bytes ih =>
    have small := byte.toNat_lt
    rw [List.length_cons, leBytes, leNat_cons]
    congr 1
    · apply UInt8.toNat.inj
      simp
    · rw [show (byte.toNat + 256 * leNat bytes) / 256 = leNat bytes by omega, ih]

/-- A byte changed in place. -/
theorem leNat_modify {bytes : List UInt8} {i : Nat} (inside : i < bytes.length) (f : UInt8 → UInt8) :
    leNat (bytes.modify i f) + 256 ^ i * (leNat bytes / 256 ^ i % 256) =
      leNat bytes + 256 ^ i * (f (UInt8.ofNat (leNat bytes / 256 ^ i))).toNat := by
  induction i generalizing bytes with
  | zero =>
    cases bytes with
    | nil => cases inside
    | cons byte bytes =>
      have small := byte.toNat_lt
      have front : UInt8.ofNat (byte.toNat + 256 * leNat bytes) = byte := UInt8.toNat.inj (by simp)
      simp only [List.modify_zero_cons, leNat_cons, pow_zero, Nat.div_one, Nat.one_mul, front]
      omega
  | succ i ih =>
    cases bytes with
    | nil => cases inside
    | cons byte bytes =>
      have small := byte.toNat_lt
      have rest := ih (Nat.lt_of_succ_lt_succ inside)
      have behind : (byte.toNat + 256 * leNat bytes) / 256 ^ (i + 1) = leNat bytes / 256 ^ i := by
        rw [pow_succ', ← Nat.div_div_eq_div_mul, show (byte.toNat + 256 * leNat bytes) / 256 = leNat bytes by omega]
      simp only [List.modify_succ_cons, leNat_cons, behind]
      rw [pow_succ', Nat.mul_assoc, Nat.mul_assoc]
      omega

theorem leNat_set {bytes : List UInt8} {i : Nat} (inside : i < bytes.length) (byte : UInt8) :
    leNat (bytes.set i byte) + 256 ^ i * (bytes.getD i 0).toNat = leNat bytes + 256 ^ i * byte.toNat := by
  induction bytes generalizing i with
  | nil => cases inside
  | cons first bytes ih =>
    cases i with
    | zero =>
      simp only [List.set_cons_zero, leNat_cons, List.getD_cons_zero]
      omega
    | succ i =>
      have rest := ih (Nat.lt_of_succ_lt_succ inside)
      simp only [List.set_cons_succ, leNat_cons, List.getD_cons_succ, pow_succ', Nat.mul_assoc]
      omega

theorem take_succ_getD {bytes : List UInt8} {count : Nat} (inside : count < bytes.length) :
    bytes.take (count + 1) = bytes.take count ++ [bytes.getD count 0] := by
  rw [List.take_add_one, List.getD_eq_getElem?_getD, List.getElem?_eq_getElem inside]
  rfl

/-- One byte more from the front. -/
theorem leNat_take_succ {bytes : List UInt8} {count : Nat} (inside : count < bytes.length) :
    leNat (bytes.take (count + 1)) = leNat (bytes.take count) + 256 ^ count * (bytes.getD count 0).toNat := by
  rw [take_succ_getD inside, leNat_append, List.length_take, Nat.min_eq_left (by omega)]
  simp

theorem leNat_injective {first second : List UInt8} (lengths : first.length = second.length)
    (same : leNat first = leNat second) : first = second := by
  rw [← leBytes_leNat first, ← leBytes_leNat second, lengths, same]

@[simp] theorem beBytes_length (count value : Nat) : (beBytes count value).length = count := by
  simp [beBytes]

theorem beNat_beBytes (count value : Nat) : beNat (beBytes count value) = value % 256 ^ count := by
  simp [beNat, beBytes, leNat_leBytes]

theorem beBytes_beNat (bytes : List UInt8) : beBytes bytes.length (beNat bytes) = bytes := by
  have same := leBytes_leNat bytes.reverse
  rw [List.length_reverse] at same
  rw [beBytes, beNat, same, List.reverse_reverse]

theorem beNat_append (high low : List UInt8) :
    beNat (high ++ low) = beNat high * 256 ^ low.length + beNat low := by
  simp only [beNat, List.reverse_append, leNat_append, List.length_reverse]
  rw [Nat.add_comm, Nat.mul_comm]

theorem beNat_singleton (byte : UInt8) : beNat [byte] = byte.toNat := by simp [beNat]

theorem beNat_cons (byte : UInt8) (bytes : List UInt8) :
    beNat (byte :: bytes) = byte.toNat * 256 ^ bytes.length + beNat bytes := by
  rw [← beNat_singleton byte]
  exact beNat_append [byte] bytes

theorem leBytes_eq_map (count value : Nat) :
    leBytes count value = (List.range count).map fun j => UInt8.ofNat (value / 256 ^ j) := by
  induction count generalizing value with
  | zero => rfl
  | succ count ih =>
    rw [leBytes, ih, List.range_succ_eq_map, List.map_cons, List.map_map]
    simp only [pow_zero, Nat.div_one, Function.comp_def, Nat.succ_eq_add_one, pow_succ', Nat.div_div_eq_div_mul]

theorem beBytes_eq_map (count value : Nat) :
    beBytes count value = (List.range count).map fun j => UInt8.ofNat (value / 256 ^ (count - 1 - j)) := by
  rw [beBytes, leBytes_eq_map, ← List.map_reverse, List.range_eq_range', List.reverse_range', List.map_map,
    ← List.range_eq_range']
  simp only [Function.comp_def, Nat.zero_add]

theorem leBytes_mod (count value : Nat) : leBytes count (value % 256 ^ count) = leBytes count value := by
  have same := leBytes_leNat (leBytes count value)
  rwa [leBytes_length, leNat_leBytes] at same

theorem beBytes_mod (count value : Nat) : beBytes count (value % 256 ^ count) = beBytes count value := by
  rw [beBytes, leBytes_mod, beBytes]

theorem leBytes_add (low high value : Nat) :
    leBytes (low + high) value = leBytes low value ++ leBytes high (value / 256 ^ low) := by
  induction low generalizing value with
  | zero => simp [leBytes]
  | succ low ih => rw [Nat.succ_add, leBytes, ih, leBytes, Nat.div_div_eq_div_mul, pow_succ', List.cons_append]

theorem beBytes_add (high low value : Nat) :
    beBytes (high + low) value = beBytes high (value / 256 ^ low) ++ beBytes low value := by
  rw [beBytes, Nat.add_comm, leBytes_add, List.reverse_append, beBytes, beBytes]

theorem beNat_lt (bytes : List UInt8) : beNat bytes < 256 ^ bytes.length := by
  simpa [beNat] using leNat_lt bytes.reverse

theorem beNat_set {bytes : List UInt8} {i : Nat} (inside : i < bytes.length) (byte : UInt8) :
    beNat (bytes.set i byte) + 256 ^ (bytes.length - (i + 1)) * (bytes.getD i 0).toNat =
      beNat bytes + 256 ^ (bytes.length - (i + 1)) * byte.toNat := by
  have split : bytes = bytes.take i ++ ([bytes.getD i 0] ++ bytes.drop (i + 1)) := by
    conv_lhs => rw [← List.take_append_drop i bytes, List.drop_eq_getElem_cons inside]
    rw [List.getD_eq_getElem?_getD, List.getElem?_eq_getElem inside]
    rfl
  have placed : bytes.set i byte = bytes.take i ++ ([byte] ++ bytes.drop (i + 1)) := by
    rw [List.set_eq_take_append_cons_drop, if_pos inside]
    rfl
  have before := congrArg beNat split
  rw [beNat_append, beNat_append, beNat_singleton, List.length_drop] at before
  rw [placed, before, beNat_append, beNat_append, beNat_singleton, List.length_drop, Nat.mul_comm (bytes.getD i 0).toNat,
    Nat.mul_comm byte.toNat, List.length_append, List.length_append]
  simp only [List.length_singleton]
  omega

theorem beNat_injective {first second : List UInt8} (lengths : first.length = second.length)
    (same : beNat first = beNat second) : first = second := by
  rw [← beBytes_beNat first, ← beBytes_beNat second, lengths, same]

/-- The values of a table, as the bits of one number. -/
def valueMask (table : List UInt8) : Nat := table.foldr (fun entry mask => mask ||| 2 ^ entry.toNat) 0

theorem mem_of_testBit {table : List UInt8} {value : Nat} (bit : (valueMask table).testBit value = true) :
    ∃ entry ∈ table, entry.toNat = value := by
  induction table with
  | nil => simp [valueMask] at bit
  | cons entry table ih =>
    rw [valueMask, List.foldr_cons, Nat.testBit_or, Bool.or_eq_true, Nat.testBit_two_pow, decide_eq_true_eq] at bit
    rcases bit with later | here
    · obtain ⟨other, member, same⟩ := ih later
      exact ⟨other, List.mem_cons_of_mem _ member, same⟩
    · exact ⟨entry, List.mem_cons_self, here⟩

end Coalesce.Library.ByteNumber
