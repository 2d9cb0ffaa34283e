import Coalesce.Base64Acceptance
import Coalesce.Base64RoundTrip

/-! The texts behind the bytes. `base64_decode` drops what the last character says beyond the
last byte, so several texts stand for the same bytes; one of them is that of the encoder. -/

namespace Coalesce.Base64Canonical
open Library ByteNumber RadixDigits Base64 Base64Decode Base64Acceptance Base64RoundTrip

/-- Bits of the last character that no byte takes. -/
def spareBits (text : List UInt8) : ℕ := 6 * (digitsOf text).length % 8

/-- Whole groups of four, and no spare bit set. -/
def Canonical (text : List UInt8) : Prop :=
  text.length % 4 = 0 ∧ ∀ c ∈ (digitsOf text).getLast?, digitOf c % 2 ^ spareBits text = 0

instance (text : List UInt8) : Decidable (Canonical text) :=
  inferInstanceAs (Decidable (text.length % 4 = 0 ∧ ∀ c ∈ (digitsOf text).getLast?, digitOf c % 2 ^ spareBits text = 0))

/-- The digits as one number. -/
def valueOf (text : List UInt8) : ℕ := ofDigits 64 ((digitsOf text).map digitOf)

def bytesOf (text : List UInt8) : List UInt8 :=
  beBytes (6 * (digitsOf text).length / 8) (valueOf text / 2 ^ spareBits text)

theorem digitsOf_values (text : List UInt8) : ∀ digit ∈ (digitsOf text).map digitOf, digit < 64 := by
  intro digit member
  obtain ⟨c, -, value⟩ := List.mem_map.mp member
  rw [← value]
  exact digitOf_lt c

theorem bytesOf_length (text : List UInt8) : (bytesOf text).length = 6 * (digitsOf text).length / 8 := beBytes_length _ _

/-! What an accepted text is made of, and what is written for it. -/

section
variable {mem : Memory} {dstCap : ℕ} {text : List UInt8}

theorem decodeLoop_room (few : 6 * (digitsOf text).length / 8 > dstCap) :
    (decodeLoop dstCap ⟨⟨mem, 0⟩, 0, 0, 0⟩ text).1 = some (-1) := by
  have full := @decode_full mem [] _ dstCap (reading_start mem) (digitsOf text) (digitsOf_alphabet text) (Nat.zero_le _) (by
    rw [List.length_nil, Nat.zero_add]
    exact few) (List.replicate (padsOf text) PAD ++ behindPads text)
  rw [← text_parts text] at full
  exact full

theorem decodeLoop_bytes (room : 6 * (digitsOf text).length / 8 ≤ dstCap) (few : padsOf text ≤ INT_MAX)
    (behind : behindPads text = []) : (decodeLoop dstCap ⟨⟨mem, 0⟩, 0, 0, 0⟩ text).2 = written mem (bytesOf text) := by
  obtain ⟨s, reading, run⟩ := @decode_digits mem [] _ dstCap (reading_start mem) (digitsOf text) (digitsOf_alphabet text) (by
    rw [List.length_nil, Nat.zero_add]
    exact room) (List.replicate (padsOf text) PAD ++ [])
  have whole := text_parts text
  rw [behind] at whole
  rw [← whole] at run
  have out := reading.out
  rw [List.nil_append, List.length_map] at out
  rw [run, decode_pads (by rw [reading.pad, Nat.zero_add]; exact few), decodeLoop, finish, out]
  split_ifs <;> rfl

/-- An accepted text has no gap and no character too many. -/
theorem accepted_parts {n : ℕ} (clean : ∀ c ∈ text, c ≠ 0 ∧ ¬(c = 10 ∨ c = 13))
    (accepted : (decodeLoop dstCap ⟨⟨mem, 0⟩, 0, 0, 0⟩ text).1 = some (n : Int)) :
    behindPads text = [] ∧ padsOf text ≤ 2 ∧ (digitsOf text).length % 4 ≠ 1 ∧ n = 6 * (digitsOf text).length / 8 ∧
      n ≤ dstCap ∧ n ≤ INT_MAX := by
  have negative : some (-1 : Int) ≠ some (n : Int) := by
    intro same
    have number := Option.some.inj same
    omega
  by_cases room : 6 * (digitsOf text).length / 8 ≤ dstCap
  swap
  · rw [decodeLoop_room (Nat.lt_of_not_le room)] at accepted
    exact absurd accepted negative
  rw [decodeLoop_text clean room] at accepted
  by_cases many : INT_MAX < padsOf text
  · rw [if_pos many] at accepted
    exact absurd accepted.symm (Option.some_ne_none _)
  rw [if_neg many] at accepted
  by_cases formed : behindPads text = [] ∧ padsOf text ≤ 2 ∧ (digitsOf text).length % 4 ≠ 1
  swap
  · rw [if_neg formed] at accepted
    exact absurd accepted negative
  rw [if_pos formed] at accepted
  have small := (returnSize_nat _).mp ⟨n, accepted⟩
  rw [returnSize_fits small] at accepted
  have size := Int.ofNat.inj (Option.some.inj accepted)
  exact ⟨formed.1, formed.2.1, formed.2.2, size.symm, by omega, by omega⟩

end

/-! The encoder's text for these bytes. -/

/-- Groups of four characters take three bytes; two or three characters are left over. -/
theorem groups {count : ℕ} (complete : count % 4 ≠ 1) : (8 * (6 * count / 8) + 5) / 6 = count ∧
    6 * count - 8 * (6 * count / 8) = 6 * count % 8 ∧ 4 * ((6 * count / 8 + 2) / 3) = count + (4 - count % 4) % 4 := by
  have parts : count = 4 * (count / 4) ∨ count = 4 * (count / 4) + 2 ∨ count = 4 * (count / 4) + 3 := by omega
  generalize count / 4 = quarter at parts
  rcases parts with rfl | rfl | rfl <;> omega

/-- The spare bits are those of the last character. -/
theorem valueOf_spare (text : List UInt8) : valueOf text % 2 ^ spareBits text = 0 ↔
    ∀ c ∈ (digitsOf text).getLast?, digitOf c % 2 ^ spareBits text = 0 := by
  have few : spareBits text ≤ 6 := by
    unfold spareBits
    omega
  have divides : 2 ^ spareBits text ∣ 64 := pow_dvd_pow 2 few
  rcases List.eq_nil_or_concat (digitsOf text) with empty | ⟨front, last, split⟩
  · rw [valueOf, empty]
    simp
  · have value : valueOf text = ofDigits 64 (front.map digitOf) * 64 + digitOf last := by
      rw [valueOf, split, List.concat_eq_append, List.map_append, List.map_singleton, ofDigits_concat]
    have residue : valueOf text % 2 ^ spareBits text = digitOf last % 2 ^ spareBits text := by
      obtain ⟨times, whole⟩ := divides
      rw [value, whole, Nat.mul_left_comm, Nat.mul_add_mod]
    rw [residue, split, List.concat_eq_append, List.getLast?_concat]
    simp

section
variable {text : List UInt8} (complete : (digitsOf text).length % 4 ≠ 1)
include complete

theorem sextetCount_bytesOf : sextetCount (bytesOf text) = (digitsOf text).length := by
  rw [sextetCount, bytesOf_length]
  exact (groups complete).1

/-- The spare bits become zero, and all others stay. -/
theorem paddedValue_bytesOf : paddedValue (bytesOf text) = valueOf text / 2 ^ spareBits text * 2 ^ spareBits text := by
  have bits : 8 * (6 * (digitsOf text).length / 8) + spareBits text = 6 * (digitsOf text).length := Nat.div_add_mod _ 8
  have below : valueOf text < 64 ^ (digitsOf text).length := by
    have limit := ofDigits_lt (digitsOf_values text)
    rw [List.length_map] at limit
    exact limit
  have bytes : valueOf text / 2 ^ spareBits text < 256 ^ (6 * (digitsOf text).length / 8) := by
    apply Nat.div_lt_of_lt_mul
    calc
      _ < 64 ^ (digitsOf text).length := below
      _ = 2 ^ (6 * (digitsOf text).length) := (pow_mul 2 6 _).symm
      _ = 2 ^ spareBits text * 2 ^ (8 * (6 * (digitsOf text).length / 8)) := by rw [← pow_add, Nat.add_comm, bits]
      _ = 2 ^ spareBits text * (2 ^ 8) ^ (6 * (digitsOf text).length / 8) := by rw [pow_mul]
      _ = _ := rfl
  have spare : 6 * sextetCount (bytesOf text) - 8 * (bytesOf text).length = spareBits text := by
    rw [sextetCount_bytesOf complete, bytesOf_length, spareBits]
    exact (groups complete).2.1
  rw [paddedValue, spare, bytesOf, beNat_beBytes, Nat.mod_eq_of_lt bytes]

/-- The encoder writes the characters that have been read exactly if no spare bit was set. -/
theorem rfc4648Digits_bytesOf : rfc4648Digits (bytesOf text) = digitsOf text ↔ valueOf text % 2 ^ spareBits text = 0 := by
  have values : ((digitsOf text).map digitOf).length = (digitsOf text).length := List.length_map _
  constructor
  · intro same
    have read := rfc4648Digits_values (bytesOf text)
    rw [same, sextetCount_bytesOf complete] at read
    have number := congrArg (ofDigits 64) read
    have small := paddedValue_lt (bytesOf text)
    rw [sextetCount_bytesOf complete] at small
    rw [ofDigits_toDigits, Nat.mod_eq_of_lt small, paddedValue_bytesOf complete] at number
    change valueOf text = _ at number
    rw [number]
    exact Nat.mul_mod_left _ _
  · intro clear
    have number : paddedValue (bytesOf text) = valueOf text := by
      rw [paddedValue_bytesOf complete]
      exact Nat.div_mul_cancel (Nat.dvd_of_mod_eq_zero clear)
    rw [rfc4648Digits, number, sextetCount_bytesOf complete, ← values, valueOf, toDigits_ofDigits (digitsOf_values text),
      List.map_map]
    conv_rhs => rw [← List.map_id (digitsOf text)]
    apply List.map_congr_left
    intro c member
    exact (alphabet_at_b64Val c).resolve_left (Int.not_lt.mpr (b64Val_nonneg (digitsOf_alphabet text c member)))

/-- The text of the encoder is the one that was read exactly if that one is canonical. -/
theorem rfc4648_bytesOf (behind : behindPads text = []) (few : padsOf text ≤ 2) :
    rfc4648 (bytesOf text) = text ↔ Canonical text := by
  have parts := text_parts text
  rw [behind, List.append_nil] at parts
  have length := congrArg List.length parts
  rw [List.length_append, List.length_replicate] at length
  have pads : 4 * (((bytesOf text).length + 2) / 3) - sextetCount (bytesOf text) = (4 - (digitsOf text).length % 4) % 4 := by
    rw [sextetCount_bytesOf complete, bytesOf_length, (groups complete).2.2, Nat.add_sub_cancel_left]
  rw [Canonical, ← valueOf_spare, ← rfc4648Digits_bytesOf complete]
  constructor
  · intro same
    rw [rfc4648] at same
    have digits : rfc4648Digits (bytesOf text) = digitsOf text := by
      refine (List.append_inj (same.trans parts) ?_).1
      rw [rfc4648Digits_length, sextetCount_bytesOf complete]
    refine ⟨?_, digits⟩
    have total := congrArg List.length same
    rw [List.length_append, List.length_replicate, pads, digits] at total
    omega
  · intro canonical
    obtain ⟨whole, digits⟩ := canonical
    have count : padsOf text = (4 - (digitsOf text).length % 4) % 4 := by omega
    rw [rfc4648, digits, pads, ← count]
    exact parts.symm

end

theorem written_inj {mem : Memory} {first second : List UInt8} (length : first.length = second.length)
    (same : written mem first = written mem second) : first = second := by
  refine List.ext_getElem length fun k inside inside' => ?_
  have cell := congrFun same k
  rw [written, written, if_pos inside, if_pos inside', List.getD_eq_getElem _ _ inside, List.getD_eq_getElem _ _ inside'] at cell
  exact cell

/-- Whatever `base64_decode` accepts, with any capacities: the bytes it has written are encoded
to the text that was read, line breaks aside, exactly if that text is canonical. -/
theorem reencodes_iff (mem mem' : Memory) (dstCap : ℕ) (src : List UInt8) (n : ℕ)
    (accepted : (base64Decode (some mem) dstCap (some src)).1 = some (n : Int)) (small : 4 * ((n + 2) / 3) ≤ INT_MAX) :
    ∃ x : List UInt8, x.length = n ∧ (base64Decode (some mem) dstCap (some src)).2 = some (written mem x) ∧
      ∀ room, 4 * ((n + 2) / 3) + 1 ≤ room →
        (base64Encode (some mem') room (some x) =
            (some ((textOf src).length : Int), some (written mem' (textOf src ++ [0]))) ↔ Canonical (textOf src)) := by
  have read := decodeLoop_textOf dstCap ⟨⟨mem, 0⟩, 0, 0, 0⟩ src
  have outcome : base64Decode (some mem) dstCap (some src) = ((decodeLoop dstCap ⟨⟨mem, 0⟩, 0, 0, 0⟩ (textOf src)).1,
      some (decodeLoop dstCap ⟨⟨mem, 0⟩, 0, 0, 0⟩ (textOf src)).2) := by rw [← read]; rfl
  rw [outcome] at accepted
  obtain ⟨behind, few, complete, size, room, -⟩ := accepted_parts (textOf_clean src) accepted
  have length : (bytesOf (textOf src)).length = n := by rw [bytesOf_length, size]
  refine ⟨bytesOf (textOf src), length, ?_, fun space enough => ?_⟩
  · rw [outcome, decodeLoop_bytes (by rw [← size]; exact room) (few.trans (by decide)) behind]
  · rw [← length] at small enough
    rw [base64Encode_text small enough, ← rfc4648_bytesOf complete behind few]
    constructor
    · intro same
      obtain ⟨sizes, memories⟩ := Prod.mk.inj same
      have count := Int.ofNat.inj (Option.some.inj sizes)
      have texts := written_inj (by rw [List.length_append, List.length_append, count]) (Option.some.inj memories)
      exact List.append_cancel_right texts
    · intro same
      rw [same]

/-- `Zh==` is read as `f`, which is written `Zg==`. -/
theorem reencodes_iff_spare_bit :
    ∃ x : List UInt8, x.length = 1 ∧ (base64Decode (some fun _ => 0) 1 (some [90, 104, 61, 61, 0])).2 = some (written (fun _ => 0) x) ∧
      ∀ room, 4 * ((1 + 2) / 3) + 1 ≤ room →
        (base64Encode (some fun _ => 0) room (some x) = (some ((textOf [90, 104, 61, 61, 0]).length : Int),
            some (written (fun _ => 0) (textOf [90, 104, 61, 61, 0] ++ [0]))) ↔ Canonical (textOf [90, 104, 61, 61, 0])) :=
  reencodes_iff (fun _ => 0) (fun _ => 0) 1 [90, 104, 61, 61, 0] 1 (by decide) (by decide)

end Coalesce.Base64Canonical
