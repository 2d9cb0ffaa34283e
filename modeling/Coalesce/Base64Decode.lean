import Coalesce.Base64
import Coalesce.Library.RadixDigits

/-! What `base64_decode` has done after each character. The characters so far are the digits
of one number in base 64; the bytes written are its digits in base 256, the upper ones, and
the accumulator keeps what of it fits in a word. -/

namespace Coalesce.Base64Decode
open Library ByteNumber RadixDigits Base64

/-- The characters before the NUL, line breaks left out. -/
def textOf (src : List UInt8) : List UInt8 := (src.takeWhile fun c => c ≠ 0).filter fun c => c ≠ 10 ∧ c ≠ 13

def digitOf (c : UInt8) : ℕ := (b64Val c).toNat

theorem digitOf_lt (c : UInt8) : digitOf c < 64 := by
  have limit := b64Val_lt c
  unfold digitOf
  omega

theorem decodeLoop_textOf (dstCap : ℕ) (s : Decoder) (src : List UInt8) :
    decodeLoop dstCap s src = decodeLoop dstCap s (textOf src) := by
  induction src generalizing s with
  | nil => rfl
  | cons c src ih =>
    by_cases nul : c = 0
    · rw [nul, decodeLoop_nul]
      rfl
    by_cases breaks : c = 10 ∨ c = 13
    · have text : textOf (c :: src) = textOf src := by
        rcases breaks with lf | cr
        · rw [lf]
          rfl
        · rw [cr]
          rfl
      rw [text, decodeLoop_break breaks, ih]
    · have text : textOf (c :: src) = c :: textOf src := by
        rw [not_or] at breaks
        simp [textOf, nul, breaks]
      simp only [text, decodeLoop, if_neg nul, if_neg breaks, ih]

/-- Nothing is written behind the capacity. -/
theorem decodeLoop_beyond {dstCap : ℕ} (s : Decoder) (src : List UInt8) {k : ℕ} (beyond : dstCap ≤ k) :
    (decodeLoop dstCap s src).2 k = s.out.mem k := by
  have finished (s : Decoder) : (finish s).2 = s.out.mem := by
    unfold finish
    split
    · rfl
    · split <;> rfl
  induction src generalizing s with
  | nil => rw [decodeLoop, finished]
  | cons c src ih =>
    rw [decodeLoop]
    split
    · rw [finished]
    split
    · exact ih s
    split
    · split
      · exact ih _
      · rfl
    split
    · rfl
    split
    · rfl
    dsimp only
    split
    · split
      · rfl
      · rename_i room
        have room : s.out.o < dstCap := Nat.lt_of_not_le room
        rw [ih]
        exact Function.update_of_ne (by omega) _ _
    · exact ih _

/-! The digits. -/

/-- `values` have been read. -/
structure Reading (mem : Memory) (values : List ℕ) (s : Decoder) : Prop where
  acc : s.acc.toNat = ofDigits 64 values % 2 ^ 32
  bits : s.bits = 6 * values.length % 8
  pad : s.pad = 0
  out : s.out = outputOf mem (beBytes (6 * values.length / 8) (ofDigits 64 values / 2 ^ (6 * values.length % 8)))

theorem reading_start (mem : Memory) : Reading mem [] ⟨⟨mem, 0⟩, 0, 0, 0⟩ where
  acc := rfl
  bits := rfl
  pad := rfl
  out := rfl

variable {mem : Memory} {values : List ℕ} {s : Decoder} {dstCap : ℕ}

theorem reading_o (reading : Reading mem values s) : s.out.o = 6 * values.length / 8 := by
  rw [reading.out, outputOf, beBytes_length]

/-- The bits that the accumulator loses are above the word. -/
theorem accept_acc (reading : Reading mem values s) {v : ℕ} (small : v < 64) :
    (accept s (UInt32.ofNat v)).acc.toNat = ofDigits 64 (values ++ [v]) % 2 ^ 32 := by
  have word : (UInt32.ofNat v).toNat = v := UInt32.toNat_ofNat_of_lt' (Nat.lt_trans small (by decide))
  have kept : s.acc.toNat <<< 6 % 2 ^ 32 = (s.acc.toNat % 2 ^ 26) <<< 6 := by
    rw [Nat.shiftLeft_eq, Nat.shiftLeft_eq]
    omega
  have joined : (s.acc.toNat % 2 ^ 26) <<< 6 ||| v = s.acc.toNat % 2 ^ 26 * 2 ^ 6 + v := by
    rw [← Nat.shiftLeft_add_eq_or_of_lt (show v < 2 ^ 6 from small), Nat.shiftLeft_eq]
  have shift : (6 : UInt32).toNat % 32 = 6 := rfl
  calc
    _ = s.acc.toNat <<< 6 % 2 ^ 32 ||| v := by rw [accept, UInt32.toNat_or, UInt32.toNat_shiftLeft, word, shift]
    _ = s.acc.toNat % 2 ^ 26 * 2 ^ 6 + v := by rw [kept, joined]
    _ = (ofDigits 64 values * 64 + v) % 2 ^ 32 := by
      rw [reading.acc]
      omega
    _ = _ := by rw [ofDigits_concat]

/-- Eight bits are always below those that are lost. -/
theorem emit_byte {acc : UInt32} {value bits : ℕ} (word : acc.toNat = value % 2 ^ 32) (few : bits < 8) :
    ((acc >>> UInt32.ofNat bits) &&& 0xFF).toUInt8 = UInt8.ofNat (value / 2 ^ bits) := by
  have shift : (UInt32.ofNat bits).toNat = bits := UInt32.toNat_ofNat_of_lt' (Nat.lt_trans few (by decide))
  have mask : (0xFF : UInt32).toNat = 2 ^ 8 - 1 := rfl
  apply UInt8.toNat_inj.mp
  calc
    _ = (acc.toNat >>> (bits % 32) &&& (2 ^ 8 - 1)) % 256 := by
      rw [UInt32.toNat_toUInt8, UInt32.toNat_and, UInt32.toNat_shiftRight, shift, mask]
    _ = value % 2 ^ 32 / 2 ^ bits % 2 ^ 8 % 256 := by
      rw [Nat.and_two_pow_sub_one_eq_mod, Nat.mod_eq_of_lt (Nat.lt_trans few (by decide)), word, Nat.shiftRight_eq_div_pow]
    _ = value / 2 ^ bits % 256 := by interval_cases bits <;> omega
    _ = _ := UInt8.toNat_ofNat'.symm

theorem reading_short (reading : Reading mem values s) {v : ℕ} (small : v < 64) (few : s.bits + 6 < 8) :
    Reading mem (values ++ [v]) (accept s (UInt32.ofNat v)) := by
  have bits := reading.bits
  have length : (values ++ [v]).length = values.length + 1 := by rw [List.length_append, List.length_singleton]
  have none : 6 * values.length % 8 = 0 := by omega
  have six : 6 * (values.length + 1) % 8 = 6 := by omega
  have same : 6 * (values.length + 1) / 8 = 6 * values.length / 8 := by omega
  have value : ofDigits 64 (values ++ [v]) / 2 ^ 6 = ofDigits 64 values := by
    rw [ofDigits_concat]
    omega
  constructor
  · exact accept_acc reading small
  · rw [length, six]
    change s.bits + 6 = 6
    omega
  · exact reading.pad
  · have out := reading.out
    rw [none, pow_zero, Nat.div_one] at out
    rw [length, six, same, value]
    exact out

theorem reading_emit (reading : Reading mem values s) {v : ℕ} (small : v < 64) (enough : 8 ≤ s.bits + 6) :
    Reading mem (values ++ [v]) (emit (accept s (UInt32.ofNat v))) := by
  have bits := reading.bits
  have length : (values ++ [v]).length = values.length + 1 := by rw [List.length_append, List.length_singleton]
  have left : 6 * (values.length + 1) % 8 = s.bits - 2 := by omega
  have more : 6 * (values.length + 1) / 8 = 6 * values.length / 8 + 1 := by omega
  have value : ofDigits 64 (values ++ [v]) / 2 ^ (s.bits - 2) / 256 = ofDigits 64 values / 2 ^ s.bits := by
    have cases : s.bits = 2 ∨ s.bits = 4 ∨ s.bits = 6 := by omega
    rw [ofDigits_concat]
    rcases cases with two | four | six
    · rw [two]
      omega
    · rw [four]
      omega
    · rw [six]
      omega
  have byte := emit_byte (accept_acc reading small) (show s.bits - 2 < 8 by omega)
  constructor
  · exact accept_acc reading small
  · rw [length, left]
    change s.bits + 6 - 8 = s.bits - 2
    omega
  · exact reading.pad
  · have out := reading.out
    have last (n : ℕ) : beBytes 1 n = [UInt8.ofNat n] := rfl
    rw [← bits] at out
    rw [length, left, more, beBytes_add _ 1, pow_one, value, last, ← put_outputOf, ← out, ← byte]
    rfl

/-- With room for its bytes a run of digits is read to its end. -/
theorem decode_digits (reading : Reading mem values s) {digits : List UInt8} (alphabet : ∀ c ∈ digits, c ∈ B64_ALPHA)
    (room : 6 * (values.length + digits.length) / 8 ≤ dstCap) (rest : List UInt8) :
    ∃ t, Reading mem (values ++ digits.map digitOf) t ∧ decodeLoop dstCap s (digits ++ rest) = decodeLoop dstCap t rest := by
  induction digits generalizing values s with
  | nil =>
    rw [List.map_nil, List.append_nil]
    exact ⟨s, reading, rfl⟩
  | cons c digits ih =>
    have member := alphabet c List.mem_cons_self
    have others := fun d later => alphabet d (List.mem_cons_of_mem c later)
    have length : (values ++ [digitOf c]).length + digits.length = values.length + (c :: digits).length := by
      rw [List.length_append, List.length_singleton, List.length_cons]
      omega
    have joined : values ++ (c :: digits).map digitOf = values ++ [digitOf c] ++ digits.map digitOf := by
      rw [List.map_cons, List.append_assoc]
      rfl
    rw [List.cons_append, decodeLoop_digit member reading.pad, joined]
    by_cases enough : s.bits + 6 ≥ 8
    · have fits : ¬s.out.o ≥ dstCap := by
        have bits := reading.bits
        rw [reading_o reading]
        rw [List.length_cons] at room
        omega
      rw [if_pos enough, if_neg fits]
      exact ih (reading_emit reading (digitOf_lt c) enough) others (by rw [length]; exact room)
    · rw [if_neg enough]
      exact ih (reading_short reading (digitOf_lt c) (Nat.lt_of_not_le enough)) others (by rw [length]; exact room)

/-- Without room the run is not read to its end. -/
theorem decode_full (reading : Reading mem values s) {digits : List UInt8} (alphabet : ∀ c ∈ digits, c ∈ B64_ALPHA)
    (before : 6 * values.length / 8 ≤ dstCap) (full : dstCap < 6 * (values.length + digits.length) / 8) (rest : List UInt8) :
    (decodeLoop dstCap s (digits ++ rest)).1 = some (-1) := by
  induction digits generalizing values s with
  | nil =>
    rw [List.length_nil] at full
    omega
  | cons c digits ih =>
    have member := alphabet c List.mem_cons_self
    have others := fun d later => alphabet d (List.mem_cons_of_mem c later)
    have bits := reading.bits
    have o := reading_o reading
    have length : (values ++ [digitOf c]).length = values.length + 1 := by rw [List.length_append, List.length_singleton]
    have sum : values.length + 1 + digits.length = values.length + (c :: digits).length := by
      rw [List.length_cons]
      omega
    rw [List.cons_append, decodeLoop_digit member reading.pad]
    by_cases enough : s.bits + 6 ≥ 8
    · rw [if_pos enough]
      by_cases stops : s.out.o ≥ dstCap
      · rw [if_pos stops]
      · rw [if_neg stops]
        have next := reading_emit reading (digitOf_lt c) enough
        exact ih next others (by rw [length]; omega) (by rw [length, sum]; exact full)
    · rw [if_neg enough]
      have next := reading_short reading (digitOf_lt c) (Nat.lt_of_not_le enough)
      exact ih next others (by rw [length]; omega) (by rw [length, sum]; exact full)

/-! The padding. -/

theorem decode_pads {pads : ℕ} (few : s.pad + pads ≤ INT_MAX) (rest : List UInt8) :
    decodeLoop dstCap s (List.replicate pads PAD ++ rest) = decodeLoop dstCap { s with pad := s.pad + pads } rest := by
  induction pads generalizing s with
  | zero => rfl
  | succ pads ih =>
    rw [List.replicate_succ, List.cons_append, decodeLoop_pad (by omega), ih (by rw [Nat.add_assoc, Nat.add_comm 1]; exact few),
      Nat.add_assoc, Nat.add_comm 1]

/-- The count overflows. -/
theorem decode_pads_overflow {pads : ℕ} (small : s.pad ≤ INT_MAX) (many : INT_MAX < s.pad + pads) (rest : List UInt8) :
    (decodeLoop dstCap s (List.replicate pads PAD ++ rest)).1 = none := by
  obtain ⟨first, last, split⟩ : ∃ first last, pads = first + (last + 1) ∧ s.pad + first = INT_MAX :=
    ⟨INT_MAX - s.pad, pads - (INT_MAX - s.pad) - 1, by omega, by omega⟩
  rw [split.1, List.replicate_add, List.append_assoc, decode_pads (Nat.le_of_eq split.2), List.replicate_succ, List.cons_append,
    decodeLoop_pad_overflow (by rw [split.2]; exact Nat.lt_irrefl _)]

end Coalesce.Base64Decode
