import Coalesce.Base64Decode
import Mathlib.Data.List.TakeWhile

/-! Which texts `base64_decode` accepts. It counts digits and padding apart and never compares
the two, so padding may be missing or left over behind complete digits. -/

namespace Coalesce.Base64Acceptance
open Base64 Base64Decode

def digitsOf (text : List UInt8) : List UInt8 := text.takeWhile fun c => c ∈ B64_ALPHA

def behindDigits (text : List UInt8) : List UInt8 := text.dropWhile fun c => c ∈ B64_ALPHA

def padsOf (text : List UInt8) : ℕ := ((behindDigits text).takeWhile fun c => c = PAD).length

def behindPads (text : List UInt8) : List UInt8 := (behindDigits text).dropWhile fun c => c = PAD

/-- RFC 4648 with padding: the last group of four is complete. -/
def Padded (text : List UInt8) : Prop := ∃ digits pads,
  text = digits ++ List.replicate pads PAD ∧ (∀ c ∈ digits, c ∈ B64_ALPHA) ∧ pads ≤ 2 ∧ text.length % 4 = 0

/-- Whole bytes and at most two `=`, but the last group is not complete. -/
def Mispadded (text : List UInt8) : Prop := ∃ digits pads,
  text = digits ++ List.replicate pads PAD ∧ (∀ c ∈ digits, c ∈ B64_ALPHA) ∧ pads ≤ 2 ∧
    digits.length % 4 ≠ 1 ∧ text.length % 4 ≠ 0

/-- More `=` than an `int` counts. -/
def Overlong (text : List UInt8) : Prop := ∃ digits tail,
  text = digits ++ (List.replicate (INT_MAX + 1) PAD ++ tail) ∧ ∀ c ∈ digits, c ∈ B64_ALPHA

/-! The three parts of a text. -/

theorem takeWhile_stop {q : UInt8 → Bool} {front back : List UInt8} (front_all : ∀ c ∈ front, q c = true)
    (stop : ∀ c cs, back = c :: cs → q c = false) :
    (front ++ back).takeWhile q = front ∧ (front ++ back).dropWhile q = back := by
  rw [List.takeWhile_append_of_pos front_all, List.dropWhile_append_of_pos front_all]
  cases back with
  | nil => exact ⟨List.append_nil front, rfl⟩
  | cons c cs =>
    have wrong := stop c cs rfl
    rw [List.takeWhile_cons_of_neg (by rw [wrong]; decide), List.dropWhile_cons_of_neg (by rw [wrong]; decide), List.append_nil]
    exact ⟨rfl, rfl⟩

theorem PAD_not_digit : PAD ∉ B64_ALPHA := fun member => (alphabet_ne member).2.2 rfl

/-- What stands behind the digits does not start with one. -/
theorem parts_of_digits {digits back : List UInt8} (alphabet : ∀ c ∈ digits, c ∈ B64_ALPHA)
    (stop : ∀ c cs, back = c :: cs → c ∉ B64_ALPHA) :
    digitsOf (digits ++ back) = digits ∧ behindDigits (digits ++ back) = back := by
  apply takeWhile_stop
  · exact fun c member => decide_eq_true (alphabet c member)
  · exact fun c cs split => decide_eq_false (stop c cs split)

theorem replicate_stop {pads : ℕ} {tail : List UInt8} (stop : pads = 0 → ∀ c cs, tail = c :: cs → c ∉ B64_ALPHA) :
    ∀ c cs, List.replicate pads PAD ++ tail = c :: cs → c ∉ B64_ALPHA := by
  intro c cs split
  cases pads with
  | zero => exact stop rfl c cs split
  | succ pads =>
    rw [List.replicate_succ, List.cons_append] at split
    rw [← (List.cons.inj split).1]
    exact PAD_not_digit

theorem parts_of_pads {digits : List UInt8} (alphabet : ∀ c ∈ digits, c ∈ B64_ALPHA) (pads : ℕ) :
    digitsOf (digits ++ List.replicate pads PAD) = digits ∧ padsOf (digits ++ List.replicate pads PAD) = pads ∧
      behindPads (digits ++ List.replicate pads PAD) = [] := by
  have stop : ∀ c cs, List.replicate pads PAD = c :: cs → c ∉ B64_ALPHA := by
    have empty := @replicate_stop pads [] fun _ c cs split => absurd split.symm (List.cons_ne_nil c cs)
    rwa [List.append_nil] at empty
  obtain ⟨front, back⟩ := parts_of_digits alphabet stop
  have all : ∀ c ∈ List.replicate pads PAD, decide (c = PAD) = true :=
    fun c member => decide_eq_true (List.eq_of_mem_replicate member)
  obtain ⟨taken, dropped⟩ := @takeWhile_stop _ _ [] all fun c cs split => absurd split.symm (List.cons_ne_nil c cs)
  rw [List.append_nil] at taken dropped
  rw [padsOf, behindPads, back, taken, dropped, List.length_replicate]
  exact ⟨front, rfl, rfl⟩

theorem digitsOf_alphabet (text : List UInt8) : ∀ c ∈ digitsOf text, c ∈ B64_ALPHA := by
  intro c member
  have holds := List.mem_takeWhile_imp member
  exact of_decide_eq_true holds

theorem text_parts (text : List UInt8) : text = digitsOf text ++ (List.replicate (padsOf text) PAD ++ behindPads text) := by
  have pads : (behindDigits text).takeWhile (fun c => c = PAD) = List.replicate (padsOf text) PAD := by
    apply List.eq_replicate_of_mem
    intro c member
    have holds := List.mem_takeWhile_imp member
    exact of_decide_eq_true holds
  rw [← pads, behindPads, List.takeWhile_append_dropWhile, digitsOf, behindDigits, List.takeWhile_append_dropWhile]

/-- The character behind the padding is no `=`, and no digit where there is no padding. -/
theorem behindPads_stop {text : List UInt8} {c : UInt8} {cs : List UInt8} (behind : behindPads text = c :: cs) :
    c ≠ PAD ∧ (c ∈ B64_ALPHA → padsOf text ≠ 0) := by
  have other := List.head?_dropWhile_not (fun c => decide (c = PAD)) (behindDigits text)
  rw [show (behindDigits text).dropWhile (fun c => c = PAD) = c :: cs from behind] at other
  constructor
  · exact of_decide_eq_false other
  · intro digit none
    have whole := List.takeWhile_append_dropWhile (p := fun c => decide (c = PAD)) (l := behindDigits text)
    rw [List.length_eq_zero_iff.mp none, List.nil_append] at whole
    have first := List.head?_dropWhile_not (fun c => decide (c ∈ B64_ALPHA)) text
    rw [show text.dropWhile (fun c => c ∈ B64_ALPHA) = c :: cs from whole.symm.trans behind] at first
    exact of_decide_eq_false first digit

theorem padded_iff (text : List UInt8) : Padded text ↔ behindPads text = [] ∧ padsOf text ≤ 2 ∧ text.length % 4 = 0 := by
  constructor
  · rintro ⟨digits, pads, rfl, alphabet, few, whole⟩
    obtain ⟨-, count, behind⟩ := parts_of_pads alphabet pads
    rw [count]
    exact ⟨behind, few, whole⟩
  · rintro ⟨behind, few, whole⟩
    have parts := text_parts text
    rw [behind, List.append_nil] at parts
    exact ⟨digitsOf text, padsOf text, parts, digitsOf_alphabet text, few, whole⟩

theorem mispadded_iff (text : List UInt8) : Mispadded text ↔
    behindPads text = [] ∧ padsOf text ≤ 2 ∧ (digitsOf text).length % 4 ≠ 1 ∧ text.length % 4 ≠ 0 := by
  constructor
  · rintro ⟨digits, pads, rfl, alphabet, few, complete, partly⟩
    obtain ⟨front, count, behind⟩ := parts_of_pads alphabet pads
    rw [front, count]
    exact ⟨behind, few, complete, partly⟩
  · rintro ⟨behind, few, complete, partly⟩
    have parts := text_parts text
    rw [behind, List.append_nil] at parts
    exact ⟨digitsOf text, padsOf text, parts, digitsOf_alphabet text, few, complete, partly⟩

theorem overlong_iff (text : List UInt8) : Overlong text ↔ INT_MAX < padsOf text := by
  constructor
  · rintro ⟨digits, tail, rfl, alphabet⟩
    have stop := @replicate_stop (INT_MAX + 1) tail fun none => absurd none (Nat.succ_ne_zero INT_MAX)
    obtain ⟨-, behind⟩ := parts_of_digits alphabet stop
    have all : ∀ c ∈ List.replicate (INT_MAX + 1) PAD, decide (c = PAD) = true :=
      fun c member => decide_eq_true (List.eq_of_mem_replicate member)
    rw [padsOf, behind, List.takeWhile_append_of_pos all, List.length_append, List.length_replicate]
    omega
  · intro many
    refine ⟨digitsOf text, List.replicate (padsOf text - (INT_MAX + 1)) PAD ++ behindPads text, ?_, digitsOf_alphabet text⟩
    rw [← List.append_assoc (List.replicate (INT_MAX + 1) PAD), ← List.replicate_add, Nat.add_sub_cancel' many]
    exact text_parts text

/-! What is returned. -/

section
variable {mem : Memory} {dstCap : ℕ} {text : List UInt8}
variable (clean : ∀ c ∈ text, c ≠ 0 ∧ ¬(c = 10 ∨ c = 13)) (room : 6 * (digitsOf text).length / 8 ≤ dstCap)
include clean room

/-- The three ends of the loop. -/
theorem decodeLoop_text : (decodeLoop dstCap ⟨⟨mem, 0⟩, 0, 0, 0⟩ text).1 =
    if INT_MAX < padsOf text then none
    else if behindPads text = [] ∧ padsOf text ≤ 2 ∧ (digitsOf text).length % 4 ≠ 1 then
      returnSize (6 * (digitsOf text).length / 8)
    else some (-1) := by
  have enough : 6 * (([] : List ℕ).length + (digitsOf text).length) / 8 ≤ dstCap := by
    rw [List.length_nil, Nat.zero_add]
    exact room
  obtain ⟨s, reading, run⟩ := decode_digits (reading_start mem) (digitsOf_alphabet text) enough
    (List.replicate (padsOf text) PAD ++ behindPads text)
  rw [List.nil_append] at reading
  rw [← text_parts text] at run
  rw [run]
  by_cases many : INT_MAX < padsOf text
  · rw [if_pos many]
    apply decode_pads_overflow
    · rw [reading.pad]
      exact Nat.zero_le _
    · rw [reading.pad, Nat.zero_add]
      exact many
  have few : s.pad + padsOf text ≤ INT_MAX := by
    rw [reading.pad, Nat.zero_add]
    exact Nat.le_of_not_lt many
  rw [if_neg many, decode_pads few, reading.pad, Nat.zero_add]
  cases behind : behindPads text with
  | nil =>
    have bits := reading.bits
    have size := reading_o reading
    rw [List.length_map] at bits size
    rw [decodeLoop, finish, bits, size]
    by_cases dangling : 6 * (digitsOf text).length % 8 ≥ 6
    · rw [if_pos dangling, if_neg (by omega)]
    rw [if_neg dangling]
    by_cases more : padsOf text > 2
    · rw [if_pos more, if_neg (by omega)]
    · rw [if_neg more, if_pos ⟨rfl, Nat.le_of_not_lt more, by omega⟩]
  | cons c cs =>
    obtain ⟨other, padded⟩ := behindPads_stop behind
    have member : c ∈ text := by
      rw [text_parts text, behind]
      exact List.mem_append_right _ (List.mem_append_right _ List.mem_cons_self)
    obtain ⟨inside, whole⟩ := clean c member
    have wrong : c ∉ B64_ALPHA ∨ padsOf text ≠ 0 := Classical.or_iff_not_imp_left.mpr fun digit => padded (not_not.mp digit)
    rw [decodeLoop_other inside whole other wrong, if_neg fun accepted => List.cons_ne_nil c cs accepted.1]

end

theorem textOf_clean (src : List UInt8) : ∀ c ∈ textOf src, c ≠ 0 ∧ ¬(c = 10 ∨ c = 13) := by
  intro c member
  obtain ⟨before, kept⟩ := List.mem_filter.mp member
  have inside := List.mem_takeWhile_imp before
  rw [decide_eq_true_eq] at inside kept
  exact ⟨inside, not_or.mpr kept⟩

theorem returnSize_nat (size : ℕ) : (∃ n : ℕ, returnSize size = some (n : Int)) ↔ size ≤ INT_MAX := by
  unfold returnSize
  constructor
  · rintro ⟨n, returned⟩
    by_contra large
    rw [if_neg large] at returned
    exact absurd returned (Option.some_ne_none _).symm
  · intro small
    exact ⟨size, if_pos small⟩

theorem returnSize_ne (size : ℕ) : returnSize size ≠ some (-1) := by
  unfold returnSize
  split
  · intro same
    have negative := Option.some.inj same
    omega
  · exact (Option.some_ne_none _).symm

/-- What the loop lets through at its end. -/
theorem accepted_iff (text : List UInt8) :
    (behindPads text = [] ∧ padsOf text ≤ 2 ∧ (digitsOf text).length % 4 ≠ 1) ↔ Padded text ∨ Mispadded text := by
  rw [padded_iff, mispadded_iff]
  constructor
  · intro ⟨behind, few, complete⟩
    by_cases whole : text.length % 4 = 0
    · exact Or.inl ⟨behind, few, whole⟩
    · exact Or.inr ⟨behind, few, complete, whole⟩
  · intro either
    rcases either with ⟨behind, few, whole⟩ | ⟨behind, few, complete, -⟩
    · have length := congrArg List.length (text_parts text)
      rw [behind, List.append_nil, List.length_append, List.length_replicate] at length
      exact ⟨behind, few, by omega⟩
    · exact ⟨behind, few, complete⟩

theorem padded_not_mispadded {text : List UInt8} (padded : Padded text) : ¬Mispadded text := by
  intro ⟨_, _, _, _, _, _, partly⟩
  obtain ⟨_, _, _, _, _, whole⟩ := padded
  exact partly whole

/-- A length exactly for padded base64, -1 for all else. -/
def AcceptsPadded (result : Option Int) (text : List UInt8) : Prop :=
  ((∃ n : ℕ, result = some (n : Int)) ↔ Padded text) ∧ (¬Padded text → result = some (-1))

theorem not_acceptsPadded_none (text : List UInt8) : ¬AcceptsPadded none text := by
  intro ⟨number, refused⟩
  by_cases padded : Padded text
  · obtain ⟨n, same⟩ := number.mpr padded
    exact absurd same.symm (Option.some_ne_none _)
  · exact absurd (refused padded).symm (Option.some_ne_none _)

theorem acceptsPadded_size (size : ℕ) (text : List UInt8) :
    AcceptsPadded (returnSize size) text ↔ Padded text ∧ size ≤ INT_MAX := by
  rw [AcceptsPadded, returnSize_nat]
  constructor
  · intro ⟨number, refused⟩
    by_cases padded : Padded text
    · exact ⟨padded, number.mpr padded⟩
    · exact absurd (refused padded) (returnSize_ne size)
  · intro ⟨padded, fits⟩
    exact ⟨iff_of_true fits padded, fun refused => absurd padded refused⟩

theorem acceptsPadded_refused {text : List UInt8} (refused : ¬Padded text) : AcceptsPadded (some (-1)) text := by
  have number : ¬∃ n : ℕ, some (-1 : Int) = some (n : Int) := by
    intro ⟨n, same⟩
    have negative := Option.some.inj same
    omega
  exact ⟨iff_of_false number refused, fun _ => rfl⟩

/-- Only incomplete padding is accepted wrongly; two counters have to stay in range. -/
theorem acceptsPadded_iff (mem : Memory) {dstCap : ℕ} {src : List UInt8}
    (room : 6 * (digitsOf (textOf src)).length / 8 ≤ dstCap) :
    AcceptsPadded (base64Decode (some mem) dstCap (some src)).1 (textOf src) ↔
      ¬Mispadded (textOf src) ∧ ¬Overlong (textOf src) ∧
        (Padded (textOf src) → 6 * (digitsOf (textOf src)).length / 8 ≤ INT_MAX) := by
  have returned := @decodeLoop_text mem dstCap _ (textOf_clean src) room
  have text := decodeLoop_textOf dstCap ⟨⟨mem, 0⟩, 0, 0, 0⟩ src
  have decoded : (base64Decode (some mem) dstCap (some src)).1 = (decodeLoop dstCap ⟨⟨mem, 0⟩, 0, 0, 0⟩ src).1 := rfl
  rw [decoded, text, returned]
  by_cases overlong : Overlong (textOf src)
  · rw [if_pos ((overlong_iff _).mp overlong)]
    exact iff_of_false (not_acceptsPadded_none _) fun holds => holds.2.1 overlong
  rw [if_neg fun many => overlong ((overlong_iff _).mpr many)]
  by_cases padded : Padded (textOf src)
  · rw [if_pos ((accepted_iff _).mpr (Or.inl padded)), acceptsPadded_size]
    constructor
    · intro ⟨_, fits⟩
      exact ⟨padded_not_mispadded padded, overlong, fun _ => fits⟩
    · intro ⟨_, _, fits⟩
      exact ⟨padded, fits padded⟩
  by_cases mispadded : Mispadded (textOf src)
  · rw [if_pos ((accepted_iff _).mpr (Or.inr mispadded)), acceptsPadded_size]
    exact iff_of_false (fun holds => padded holds.1) fun holds => holds.1 mispadded
  · rw [if_neg fun accepted => ((accepted_iff _).mp accepted).elim padded mispadded]
    exact iff_of_true (acceptsPadded_refused padded) ⟨mispadded, overlong, fun held => absurd held padded⟩

theorem acceptsPadded_iff_f : ∃ n : ℕ, (base64Decode (some fun _ => 0) 1 (some [90, 103, 61, 61, 0])).1 = some (n : Int) := by
  have room : 6 * (digitsOf (textOf [90, 103, 61, 61, 0])).length / 8 ≤ 1 := by decide
  have padded : Padded (textOf [90, 103, 61, 61, 0]) := by
    rw [padded_iff]
    decide
  have complete : ¬Mispadded (textOf [90, 103, 61, 61, 0]) := by
    rw [mispadded_iff]
    decide
  have short : ¬Overlong (textOf [90, 103, 61, 61, 0]) := by
    rw [overlong_iff]
    decide
  have accepts := (acceptsPadded_iff (fun _ => 0) room).mpr ⟨complete, short, fun _ => Nat.le_trans room (by decide)⟩
  exact accepts.1.mpr padded

/-- `Zg`, a group of four cut short: one byte is returned. -/
theorem unpadded_accepted :
    ¬∀ (mem : Memory) (dstCap : ℕ) (src : List UInt8), 6 * (digitsOf (textOf src)).length / 8 ≤ dstCap →
      AcceptsPadded (base64Decode (some mem) dstCap (some src)).1 (textOf src) := by
  intro claimed
  have accepts := claimed (fun _ => 0) 1 [90, 103, 0] (by decide)
  have returned : (base64Decode (some fun _ => 0) 1 (some [90, 103, 0])).1 = some 1 := by decide
  have partly : ¬Padded (textOf [90, 103, 0]) := by
    rw [padded_iff]
    decide
  exact partly (accepts.1.mp ⟨1, returned⟩)

end Coalesce.Base64Acceptance
