import Coalesce.Base64Decode

/-! `base64_encode` writes RFC 4648, section 4, and `base64_decode` reads it back, with line
breaks anywhere. The text is a number in base 64: the input, moved up to a whole number of
digits. -/

namespace Coalesce.Base64RoundTrip
open Library ByteNumber RadixDigits Buffer Base64 Base64Decode

/-- Six bits each, the last one filled up with zeros. -/
def sextetCount (x : List UInt8) : ℕ := (8 * x.length + 5) / 6

def paddedValue (x : List UInt8) : ℕ := beNat x * 2 ^ (6 * sextetCount x - 8 * x.length)

def rfc4648Digits (x : List UInt8) : List UInt8 :=
  (toDigits 64 (sextetCount x) (paddedValue x)).map fun digit => B64_ALPHA.getD digit 0

def rfc4648 (x : List UInt8) : List UInt8 :=
  rfc4648Digits x ++ List.replicate (4 * ((x.length + 2) / 3) - sextetCount x) PAD

theorem rfc4648Digits_length (x : List UInt8) : (rfc4648Digits x).length = sextetCount x := by
  rw [rfc4648Digits, List.length_map, toDigits_length]

theorem rfc4648_length (x : List UInt8) : (rfc4648 x).length = 4 * ((x.length + 2) / 3) := by
  have covered : sextetCount x ≤ 4 * ((x.length + 2) / 3) := by
    unfold sextetCount
    omega
  rw [rfc4648, List.length_append, rfc4648Digits_length, List.length_replicate, Nat.add_sub_cancel' covered]

theorem padded_power (x : List UInt8) : 256 ^ x.length * 2 ^ (6 * sextetCount x - 8 * x.length) = 64 ^ sextetCount x := by
  have size : 8 * x.length ≤ 6 * sextetCount x := by
    unfold sextetCount
    omega
  have bytes : 256 ^ x.length = 2 ^ (8 * x.length) := (pow_mul 2 8 _).symm
  calc
    _ = 2 ^ (8 * x.length) * 2 ^ (6 * sextetCount x - 8 * x.length) := by rw [bytes]
    _ = 2 ^ (6 * sextetCount x) := by rw [← pow_add, Nat.add_sub_cancel' size]
    _ = _ := pow_mul 2 6 _

theorem paddedValue_lt (x : List UInt8) : paddedValue x < 64 ^ sextetCount x := by
  rw [← padded_power]
  exact Nat.mul_lt_mul_of_pos_right (beNat_lt x) (Nat.two_pow_pos _)

/-! Three bytes. -/

theorem group_toNat (a b c : UInt8) : ((a.toUInt32 <<< 16) ||| (b.toUInt32 <<< 8) ||| c.toUInt32).toNat =
    a.toNat * 65536 + b.toNat * 256 + c.toNat := by
  have first := a.toNat_lt
  have second : b.toNat <<< 8 < 2 ^ 16 := by
    rw [Nat.shiftLeft_eq]
    have small := b.toNat_lt
    omega
  have third : c.toNat < 2 ^ 8 := c.toNat_lt
  have upper : a.toNat <<< 16 ||| b.toNat <<< 8 = (a.toNat * 256 + b.toNat) <<< 8 := by
    rw [← Nat.shiftLeft_add_eq_or_of_lt second, Nat.shiftLeft_eq, Nat.shiftLeft_eq, Nat.shiftLeft_eq]
    ring
  have wordA : a.toNat <<< 16 % 2 ^ 32 = a.toNat <<< 16 := by
    rw [Nat.shiftLeft_eq]
    omega
  have wordB : b.toNat <<< 8 % 2 ^ 32 = b.toNat <<< 8 := Nat.mod_eq_of_lt (Nat.lt_trans second (by decide))
  have shifts : (16 : UInt32).toNat % 32 = 16 ∧ (8 : UInt32).toNat % 32 = 8 := ⟨rfl, rfl⟩
  calc
    _ = a.toNat <<< 16 % 2 ^ 32 ||| b.toNat <<< 8 % 2 ^ 32 ||| c.toNat := by
      rw [UInt32.toNat_or, UInt32.toNat_or, UInt32.toNat_shiftLeft, UInt32.toNat_shiftLeft, UInt8.toNat_toUInt32,
        UInt8.toNat_toUInt32, UInt8.toNat_toUInt32, shifts.1, shifts.2]
    _ = (a.toNat * 256 + b.toNat) <<< 8 ||| c.toNat := by rw [wordA, wordB, upper]
    _ = (a.toNat * 256 + b.toNat) <<< 8 + c.toNat := (Nat.shiftLeft_add_eq_or_of_lt third _).symm
    _ = _ := by
      rw [Nat.shiftLeft_eq]
      ring

theorem sextet_eq (v shift : UInt32) (few : shift.toNat < 32) :
    sextet v shift = B64_ALPHA.getD (v.toNat / 2 ^ shift.toNat % 64) 0 := by
  have mask : (0x3F : UInt32).toNat = 2 ^ 6 - 1 := rfl
  rw [sextet, UInt32.toNat_and, UInt32.toNat_shiftRight, mask, Nat.and_two_pow_sub_one_eq_mod, Nat.mod_eq_of_lt few,
    Nat.shiftRight_eq_div_pow]

theorem sextets_eq (v : UInt32) : [sextet v 18, sextet v 12, sextet v 6, sextet v 0] =
    (toDigits 64 4 v.toNat).map fun digit => B64_ALPHA.getD digit 0 := by
  have digits : toDigits 64 4 v.toNat =
      [v.toNat / 2 ^ 18 % 64, v.toNat / 2 ^ 12 % 64, v.toNat / 2 ^ 6 % 64, v.toNat / 2 ^ 0 % 64] := by
    simp [toDigits, Nat.div_div_eq_div_mul]
  rw [digits, sextet_eq v 18 (by decide), sextet_eq v 12 (by decide), sextet_eq v 6 (by decide), sextet_eq v 0 (by decide)]
  rfl

/-- Fewer digits are the upper ones of a group of three bytes. -/
theorem sextets_take {v : UInt32} {count value : ℕ} (few : count ≤ 4) (moved : v.toNat = value * 64 ^ (4 - count)) :
    (toDigits 64 count value).map (fun digit => B64_ALPHA.getD digit 0) =
      [sextet v 18, sextet v 12, sextet v 6, sextet v 0].take count := by
  have split := @toDigits_append 64 count (4 - count) value 0 (Nat.pow_pos (by decide))
  rw [Nat.add_sub_cancel' few, Nat.add_zero, ← moved] at split
  rw [sextets_eq, split, List.map_append, List.take_left' (by rw [List.length_map, toDigits_length])]

theorem rfc4648_one (a : UInt8) :
    let v := a.toUInt32 <<< 16
    rfc4648 [a] = [sextet v 18, sextet v 12, PAD, PAD] := by
  intro v
  have whole := group_toNat a 0 0
  have none : a.toUInt32 <<< 16 ||| (0 : UInt8).toUInt32 <<< 8 ||| (0 : UInt8).toUInt32 = v := by simp [v]
  have number : beNat [a] = a.toNat := beNat_singleton a
  rw [none, UInt8.toNat_zero] at whole
  have count : sextetCount [a] = 2 := by simp [sextetCount]
  have moved : v.toNat = paddedValue [a] * 64 ^ 2 := by
    rw [whole, paddedValue, number, count, List.length_singleton]
    ring
  have digits : rfc4648Digits [a] = [sextet v 18, sextet v 12] := by
    rw [rfc4648Digits, count]
    exact sextets_take (by decide) moved
  rw [rfc4648, digits, count, List.length_singleton]
  rfl

theorem rfc4648_two (a b : UInt8) :
    let v := (a.toUInt32 <<< 16) ||| (b.toUInt32 <<< 8)
    rfc4648 [a, b] = [sextet v 18, sextet v 12, sextet v 6, PAD] := by
  intro v
  have whole := group_toNat a b 0
  have none : a.toUInt32 <<< 16 ||| b.toUInt32 <<< 8 ||| (0 : UInt8).toUInt32 = v := by simp [v]
  have number : beNat [a, b] = a.toNat * 256 + b.toNat := by
    rw [beNat_cons, beNat_singleton, List.length_singleton, pow_one]
  rw [none, UInt8.toNat_zero] at whole
  have length : [a, b].length = 2 := rfl
  have count : sextetCount [a, b] = 3 := by simp [sextetCount]
  have moved : v.toNat = paddedValue [a, b] * 64 ^ 1 := by
    rw [whole, paddedValue, number, count, length]
    ring
  have digits : rfc4648Digits [a, b] = [sextet v 18, sextet v 12, sextet v 6] := by
    rw [rfc4648Digits, count]
    exact sextets_take (by decide) moved
  rw [rfc4648, digits, count, length]
  rfl

theorem rfc4648_group (a b c : UInt8) (rest : List UInt8) :
    let v := (a.toUInt32 <<< 16) ||| (b.toUInt32 <<< 8) ||| c.toUInt32
    rfc4648 (a :: b :: c :: rest) = [sextet v 18, sextet v 12, sextet v 6, sextet v 0] ++ rfc4648 rest := by
  intro v
  have count : sextetCount (a :: b :: c :: rest) = 4 + sextetCount rest := by
    simp only [sextetCount, List.length_cons]
    omega
  have value : paddedValue (a :: b :: c :: rest) = v.toNat * 64 ^ sextetCount rest + paddedValue rest := by
    have number : beNat (a :: b :: c :: rest) = v.toNat * 256 ^ rest.length + beNat rest := by
      rw [show a :: b :: c :: rest = [a, b, c] ++ rest from rfl, beNat_append, group_toNat]
      simp [beNat, leNat_cons]
      ring
    have moved : 6 * (4 + sextetCount rest) - 8 * (a :: b :: c :: rest).length = 6 * sextetCount rest - 8 * rest.length := by
      simp only [List.length_cons]
      omega
    calc
      _ = (v.toNat * 256 ^ rest.length + beNat rest) * 2 ^ (6 * sextetCount rest - 8 * rest.length) := by
        rw [paddedValue, count, moved, number]
      _ = _ := by rw [Nat.add_mul, Nat.mul_assoc, padded_power, paddedValue]
  have digits : rfc4648Digits (a :: b :: c :: rest) = [sextet v 18, sextet v 12, sextet v 6, sextet v 0] ++ rfc4648Digits rest := by
    rw [rfc4648Digits, count, value, toDigits_append (paddedValue_lt rest), List.map_append, rfc4648Digits]
    rw [sextets_eq]
  have pads : 4 * ((rest.length + 3 + 2) / 3) - (4 + sextetCount rest) = 4 * ((rest.length + 2) / 3) - sextetCount rest := by
    unfold sextetCount
    omega
  rw [rfc4648, digits, count, rfc4648, List.append_assoc]
  simp only [List.length_cons, pads]

/-! The encoder. -/

theorem encodeLoop_eq (mem : Memory) : ∀ before x : List UInt8,
    encodeLoop (outputOf mem before) x = outputOf mem (before ++ rfc4648 x)
  | before, [] => by
    rw [encodeLoop, show rfc4648 [] = [] from rfl, List.append_nil]
  | before, [a] => by
    rw [encodeLoop, rfc4648_one]
    simp only [put_outputOf, List.append_assoc, List.cons_append, List.nil_append]
  | before, [a, b] => by
    rw [encodeLoop, rfc4648_two]
    simp only [put_outputOf, List.append_assoc, List.cons_append, List.nil_append]
  | before, a :: b :: c :: rest => by
    rw [encodeLoop, rfc4648_group]
    simp only [put_outputOf, encodeLoop_eq mem _ rest, List.append_assoc, List.cons_append, List.nil_append]

theorem need_eq {x : List UInt8} (fits : 4 * ((x.length + 2) / 3) ≤ INT_MAX) :
    ((x.length + 2) % SIZE_MAX_SUCC / 3 * 4 % SIZE_MAX_SUCC + 1) % SIZE_MAX_SUCC = 4 * ((x.length + 2) / 3) + 1 := by
  have small : 4 * ((x.length + 2) / 3) < 2 ^ 31 := Nat.lt_of_le_of_lt fits (by decide)
  have length : x.length + 2 < SIZE_MAX_SUCC := by
    unfold SIZE_MAX_SUCC
    omega
  rw [Nat.mod_eq_of_lt length, Nat.mul_comm _ 4]
  unfold SIZE_MAX_SUCC
  omega

theorem base64Encode_small {mem : Memory} {dstCap : ℕ} {x : List UInt8} (fits : 4 * ((x.length + 2) / 3) ≤ INT_MAX)
    (small : dstCap < 4 * ((x.length + 2) / 3) + 1) : base64Encode (some mem) dstCap (some x) = (some (-1), some mem) := by
  have short : ((x.length + 2) % SIZE_MAX_SUCC / 3 * 4 % SIZE_MAX_SUCC + 1) % SIZE_MAX_SUCC > dstCap := by
    rw [need_eq fits]
    exact small
  simp only [base64Encode, if_pos short]

theorem base64Encode_text {mem : Memory} {dstCap : ℕ} {x : List UInt8} (fits : 4 * ((x.length + 2) / 3) ≤ INT_MAX)
    (room : 4 * ((x.length + 2) / 3) + 1 ≤ dstCap) :
    base64Encode (some mem) dstCap (some x) = (some ((rfc4648 x).length : Int), some (written mem (rfc4648 x ++ [0]))) := by
  have enough : ¬((x.length + 2) % SIZE_MAX_SUCC / 3 * 4 % SIZE_MAX_SUCC + 1) % SIZE_MAX_SUCC > dstCap := by
    rw [need_eq fits]
    exact Nat.not_lt_of_le room
  have out := encodeLoop_eq mem [] x
  have returned : (rfc4648 x).length ≤ INT_MAX := by
    rw [rfc4648_length]
    exact fits
  have start : (⟨mem, 0⟩ : Output) = outputOf mem [] := rfl
  rw [List.nil_append] at out
  simp only [base64Encode, if_neg enough, start, out]
  change (returnSize (rfc4648 x).length, some (Function.update (written mem (rfc4648 x)) (rfc4648 x).length 0)) = _
  rw [update_written, returnSize_fits returned]

/-! The text read back. -/

theorem rfc4648Digits_values (x : List UInt8) : (rfc4648Digits x).map digitOf = toDigits 64 (sextetCount x) (paddedValue x) := by
  rw [rfc4648Digits, List.map_map]
  conv_rhs => rw [← List.map_id (toDigits 64 (sextetCount x) (paddedValue x))]
  apply List.map_congr_left
  intro digit member
  have value := b64Val_alphabet ⟨digit, toDigits_lt (by decide) member⟩
  rw [Function.comp_apply, digitOf, value]
  rfl

theorem rfc4648Digits_alphabet (x : List UInt8) : ∀ c ∈ rfc4648Digits x, c ∈ B64_ALPHA := by
  intro c member
  obtain ⟨digit, digits, char⟩ := List.mem_map.mp member
  have value := b64Val_alphabet ⟨digit, toDigits_lt (by decide) digits⟩
  apply mem_alphabet
  rw [← char, value]
  exact Int.natCast_nonneg digit

theorem rfc4648_nonzero (x : List UInt8) : ∀ c ∈ rfc4648 x, c ≠ 0 := by
  intro c member
  rcases List.mem_append.mp member with digit | pad
  · exact (alphabet_ne (rfc4648Digits_alphabet x c digit)).1
  · rw [List.eq_of_mem_replicate pad]
    decide

/-- Without its line breaks the text is that of `x`. -/
theorem textOf_broken {x text : List UInt8} (broken : text.filter (fun c => c ≠ 10 ∧ c ≠ 13) = rfc4648 x) (tail : List UInt8) :
    textOf (text ++ 0 :: tail) = rfc4648 x := by
  have nonzero : ∀ c ∈ text, (decide (c ≠ 0)) = true := by
    intro c member
    rw [decide_eq_true_eq]
    by_cases breaks : c ≠ 10 ∧ c ≠ 13
    · apply rfc4648_nonzero x
      rw [← broken, List.mem_filter]
      exact ⟨member, decide_eq_true breaks⟩
    · intro zero
      rw [zero] at breaks
      exact breaks (by decide)
  rw [textOf, List.takeWhile_append_of_pos nonzero, List.takeWhile_cons_of_neg (by decide), List.append_nil, broken]

theorem sextetCount_bytes (x : List UInt8) : 6 * sextetCount x / 8 = x.length ∧ 6 * sextetCount x % 8 < 6 ∧
    6 * sextetCount x - 8 * x.length = 6 * sextetCount x % 8 ∧ 4 * ((x.length + 2) / 3) - sextetCount x ≤ 2 := by
  unfold sextetCount
  omega

theorem decode_rfc4648 {x : List UInt8} (fits : x.length ≤ INT_MAX) (mem : Memory) {dstCap : ℕ} (room : x.length ≤ dstCap) :
    decodeLoop dstCap ⟨⟨mem, 0⟩, 0, 0, 0⟩ (rfc4648 x) = (some (x.length : Int), written mem x) := by
  obtain ⟨bytes, whole, moved, pads⟩ := sextetCount_bytes x
  have enough : 6 * (([] : List ℕ).length + (rfc4648Digits x).length) / 8 ≤ dstCap := by
    rw [List.length_nil, Nat.zero_add, rfc4648Digits_length, bytes]
    exact room
  obtain ⟨s, reading, run⟩ := decode_digits (reading_start mem) (rfc4648Digits_alphabet x) enough
    (List.replicate (4 * ((x.length + 2) / 3) - sextetCount x) PAD)
  rw [List.nil_append, rfc4648Digits_values] at reading
  have value : ofDigits 64 (toDigits 64 (sextetCount x) (paddedValue x)) / 2 ^ (6 * sextetCount x % 8) = beNat x := by
    calc
      _ = paddedValue x / 2 ^ (6 * sextetCount x % 8) := by rw [ofDigits_toDigits, Nat.mod_eq_of_lt (paddedValue_lt x)]
      _ = beNat x * 2 ^ (6 * sextetCount x % 8) / 2 ^ (6 * sextetCount x % 8) := by rw [paddedValue, moved]
      _ = _ := Nat.mul_div_cancel _ (Nat.two_pow_pos _)
  have bits := reading.bits
  have out := reading.out
  rw [toDigits_length] at bits
  rw [toDigits_length, value, bytes, beBytes_beNat] at out
  have few : s.pad + (4 * ((x.length + 2) / 3) - sextetCount x) ≤ INT_MAX := by
    rw [reading.pad, Nat.zero_add]
    exact Nat.le_trans pads (by decide)
  have padded := @decode_pads s dstCap _ few []
  rw [List.append_nil] at padded
  rw [rfc4648, run, padded, decodeLoop, finish, out, bits, reading.pad, Nat.zero_add]
  simp only [outputOf]
  rw [if_neg (Nat.not_le_of_lt whole), if_neg (Nat.not_lt_of_le pads), returnSize_fits fits]

theorem base64_roundtrip {x : List UInt8} (fits : 4 * ((x.length + 2) / 3) ≤ INT_MAX) (mem : Memory) (dstCap : ℕ) :
    (dstCap < 4 * ((x.length + 2) / 3) + 1 → base64Encode (some mem) dstCap (some x) = (some (-1), some mem)) ∧
      (4 * ((x.length + 2) / 3) + 1 ≤ dstCap → base64Encode (some mem) dstCap (some x) =
        (some ((rfc4648 x).length : Int), some (written mem (rfc4648 x ++ [0])))) ∧
      ∀ text, text.filter (fun c => c ≠ 10 ∧ c ≠ 13) = rfc4648 x → ∀ tail,
        (x.length ≤ dstCap →
          base64Decode (some mem) dstCap (some (text ++ 0 :: tail)) = (some (x.length : Int), some (written mem x))) ∧
        (dstCap < x.length → ∃ after, base64Decode (some mem) dstCap (some (text ++ 0 :: tail)) = (some (-1), some after) ∧
          ∀ k, dstCap ≤ k → after k = mem k) := by
  have short : x.length ≤ INT_MAX := by omega
  refine ⟨base64Encode_small fits, base64Encode_text fits, ?_⟩
  intro text broken tail
  have read := decodeLoop_textOf dstCap ⟨⟨mem, 0⟩, 0, 0, 0⟩ (text ++ 0 :: tail)
  rw [textOf_broken broken] at read
  constructor
  · intro room
    rw [base64Decode, read, decode_rfc4648 short mem room]
  · intro full
    have stopped : (decodeLoop dstCap ⟨⟨mem, 0⟩, 0, 0, 0⟩ (rfc4648 x)).1 = some (-1) := by
      obtain ⟨bytes, -⟩ := sextetCount_bytes x
      apply decode_full (reading_start mem) (rfc4648Digits_alphabet x) (Nat.zero_le _)
      rw [List.length_nil, Nat.zero_add, rfc4648Digits_length, bytes]
      exact full
    refine ⟨(decodeLoop dstCap ⟨⟨mem, 0⟩, 0, 0, 0⟩ (rfc4648 x)).2, ?_, ?_⟩
    · simp only [base64Decode, read, stopped]
    · intro k beyond
      exact decodeLoop_beyond ⟨⟨mem, 0⟩, 0, 0, 0⟩ (rfc4648 x) beyond

/-- `f` is `Zg==`, also with a line feed in it. -/
theorem base64_roundtrip_f :
    base64Encode (some fun _ => 0) 5 (some [102]) = (some 4, some (written (fun _ => 0) [90, 103, 61, 61, 0])) ∧
      base64Decode (some fun _ => 0) 1 (some [90, 10, 103, 61, 61, 0]) = (some 1, some (written (fun _ => 0) [102])) := by
  have text : rfc4648 [102] = [90, 103, 61, 61] := by decide
  have fits : 4 * ((([102] : List UInt8).length + 2) / 3) ≤ INT_MAX := by decide
  obtain ⟨-, encoded, -⟩ := base64_roundtrip fits (fun _ => 0) 5
  obtain ⟨-, -, decoded⟩ := base64_roundtrip fits (fun _ => 0) 1
  rw [text] at encoded
  have broken : ([90, 10, 103, 61, 61] : List UInt8).filter (fun c => c ≠ 10 ∧ c ≠ 13) = rfc4648 [102] := by
    rw [text]
    decide
  exact ⟨encoded (by decide), (decoded _ broken []).1 (by decide)⟩

end Coalesce.Base64RoundTrip
