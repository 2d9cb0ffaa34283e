import Coalesce.BufferBytes

/-! `rand_bytes` on Linux: `getrandom`, or `/dev/urandom` when that does not give all that was
asked for. -/

namespace Coalesce.Rand
open Buffer BufferBytes

/-- What the operating system answers to one call. -/
structure Entropy where
  /-- Bytes that `getrandom` has, or an error. -/
  getrandom : Option (List UInt8)
  /-- Bytes that the coming reads have, or an error of `open`. No bytes are the end, or an error. -/
  urandom : Option (List (List UInt8))
  deriving DecidableEq, Repr

/-- The reading loop, with `got` bytes in place. -/
def readLoop (reads : List (List UInt8)) (dst : List UInt8) (got len : Nat) : Nat × List UInt8 :=
  match reads with
  | [] => (got, dst)
  | bytes :: reads =>
    if got < len then
      let r := bytes.take (len - got)
      if r.length = 0 then (got, dst) else readLoop reads (blit dst got r) (got + r.length) len
    else (got, dst)

/-- `/dev/urandom`, opened or not. -/
def fallback (os : Entropy) (dst : List UInt8) (len : Nat) : Int × List UInt8 :=
  match os.urandom with
  | none => (-1, dst)
  | some reads =>
    let result := readLoop reads dst 0 len
    if result.1 = len then (0, result.2) else (-1, result.2)

/-- Code and memory. What a short `getrandom` has written stays until it is overwritten. -/
def randBytes (os : Entropy) (dst : List UInt8) (len : Nat) : Int × List UInt8 :=
  if len = 0 then (0, dst)
  else
    match os.getrandom with
    | none => fallback os dst len
    | some bytes =>
      let r := bytes.take len
      if r.length = len then (0, blit dst 0 r) else fallback os (blit dst 0 r) len

/-! What a call is worth. -/

/-- All that comes before the first empty read. -/
def delivered (reads : List (List UInt8)) : List UInt8 := (reads.takeWhile fun bytes => bytes ≠ []).flatten

/-- The bytes of a call that succeeds. -/
def supply (os : Entropy) (len : Nat) : Option (List UInt8) :=
  if len ≤ (os.getrandom.getD []).length then some ((os.getrandom.getD []).take len)
  else if len ≤ (delivered (os.urandom.getD [])).length then some ((delivered (os.urandom.getD [])).take len)
  else none

theorem supply_length {os : Entropy} {len : Nat} {bytes : List UInt8} (supplied : supply os len = some bytes) :
    bytes.length = len := by
  unfold supply at supplied
  split at supplied
  · cases supplied
    rw [List.length_take]
    omega
  · split at supplied
    · cases supplied
      rw [List.length_take]
      omega
    · cases supplied

theorem blit_nil (dst : List UInt8) (i : Nat) : blit dst i [] = dst := by
  rw [blit, List.append_nil, List.length_nil, Nat.add_zero, List.take_append_drop]

/-- Two stores, one behind the other. -/
theorem blit_blit (dst first second : List UInt8) {i : Nat} (fits : i + first.length ≤ dst.length) :
    blit (blit dst i first) (i + first.length) second = blit dst i (first ++ second) := by
  have front : (dst.take i ++ first).length = i + first.length := by
    rw [List.length_append, List.length_take]
    omega
  have rest : (dst.take i ++ first ++ dst.drop (i + first.length)).drop (i + first.length + second.length) =
      dst.drop (i + (first ++ second).length) := by
    rw [← List.drop_drop, List.drop_left' front, List.drop_drop, List.length_append, Nat.add_assoc]
  rw [blit, blit, rest, List.take_left' front, blit, List.append_assoc (dst.take i)]

/-- The loop stores what the reads deliver, in pieces of any size, up to the length asked for. -/
theorem readLoop_eq (reads : List (List UInt8)) (dst : List UInt8) {got len : Nat} (started : got ≤ len)
    (fits : len ≤ dst.length) :
    readLoop reads dst got len =
      (got + ((delivered reads).take (len - got)).length, blit dst got ((delivered reads).take (len - got))) := by
  induction reads generalizing dst got with
  | nil => simp [readLoop, delivered, blit_nil]
  | cons bytes reads ih =>
    rw [readLoop]
    by_cases full : got < len
    · rw [if_pos full]
      simp only
      by_cases empty : bytes = []
      · rw [if_pos (by rw [empty, List.take_nil, List.length_nil]), empty]
        simp [delivered, blit_nil]
      · have some_bytes : (bytes.take (len - got)).length ≠ 0 := by
          have positive := List.length_pos_iff.mpr empty
          rw [List.length_take]
          omega
        have split : delivered (bytes :: reads) = bytes ++ delivered reads := by
          rw [delivered, List.takeWhile_cons_of_pos (by simpa using empty), List.flatten_cons]
          rfl
        have size : (bytes.take (len - got)).length ≤ len - got := by
          rw [List.length_take]
          omega
        have later : len - (got + (bytes.take (len - got)).length) = len - got - bytes.length := by
          rw [List.length_take]
          omega
        rw [if_neg some_bytes, ih (blit dst got _) (by omega) (by rw [blit_length (by omega)]; exact fits),
          blit_blit dst _ _ (by omega), later, split, List.take_append, List.length_append, Nat.add_assoc]
    · rw [if_neg full, Nat.sub_eq_zero_of_le (Nat.le_of_not_lt full), List.take_zero, blit_nil]
      rfl

section
variable {os : Entropy} {dst : List UInt8} {len : Nat}

theorem blit_front {bytes : List UInt8} (length : bytes.length = len) : blit dst 0 bytes = bytes ++ dst.drop len := by
  rw [blit, List.take_zero, List.nil_append, Nat.zero_add, length]

/-- The fallback overwrites whatever is there. -/
theorem fallback_supplied (positive : 0 < len) (fits : len ≤ dst.length)
    (enough : len ≤ (delivered (os.urandom.getD [])).length) :
    fallback os dst len = (0, (delivered (os.urandom.getD [])).take len ++ dst.drop len) := by
  unfold fallback
  cases opened : os.urandom with
  | none =>
    rw [opened] at enough
    simp [delivered] at enough
    omega
  | some reads =>
    rw [opened, Option.getD_some] at enough
    have length : ((delivered reads).take len).length = len := by
      rw [List.length_take]
      omega
    simp only [readLoop_eq reads dst (Nat.zero_le len) fits, Nat.zero_add, Nat.sub_zero, Option.getD_some]
    rw [if_pos length, blit_front length]

theorem fallback_short (fits : len ≤ dst.length) (short : ¬len ≤ (delivered (os.urandom.getD [])).length) :
    ∃ left, left.length = len ∧ fallback os dst len = (-1, left ++ dst.drop len) := by
  unfold fallback
  cases opened : os.urandom with
  | none =>
    refine ⟨dst.take len, by rw [List.length_take]; omega, ?_⟩
    rw [List.take_append_drop]
  | some reads =>
    rw [opened, Option.getD_some] at short
    have all : (delivered reads).take len = delivered reads := List.take_of_length_le (by omega)
    simp only [readLoop_eq reads dst (Nat.zero_le len) fits, Nat.zero_add, Nat.sub_zero, all]
    refine ⟨delivered reads ++ (dst.take len).drop (delivered reads).length, ?_, ?_⟩
    · rw [List.length_append, List.length_drop, List.length_take]
      omega
    · have rest : dst.drop (delivered reads).length = (dst.take len).drop (delivered reads).length ++ dst.drop len := by
        conv_lhs => rw [← List.take_append_drop len dst]
        rw [List.drop_append_of_le_length (by rw [List.length_take]; omega)]
      rw [if_neg (by omega), blit, List.take_zero, List.nil_append, Nat.zero_add, rest, List.append_assoc]

/-- A `getrandom` that gives all ends the call; else what it wrote is memory like any other. -/
theorem randBytes_positive (positive : 0 < len) (fits : len ≤ dst.length) :
    (len ≤ (os.getrandom.getD []).length ∧ randBytes os dst len = (0, (os.getrandom.getD []).take len ++ dst.drop len)) ∨
    (¬len ≤ (os.getrandom.getD []).length ∧
      ∃ dst', dst'.length = dst.length ∧ dst'.drop len = dst.drop len ∧ randBytes os dst len = fallback os dst' len) := by
  unfold randBytes
  rw [if_neg (by omega)]
  cases answer : os.getrandom with
  | none =>
    refine Or.inr ⟨?_, dst, rfl, rfl, rfl⟩
    simp
    omega
  | some bytes =>
    simp only [Option.getD_some]
    by_cases enough : len ≤ bytes.length
    · have length : (bytes.take len).length = len := by
        rw [List.length_take]
        omega
      exact Or.inl ⟨enough, by rw [if_pos length, blit_front length]⟩
    · have all : bytes.take len = bytes := List.take_of_length_le (by omega)
      rw [all, if_neg (by omega)]
      refine Or.inr ⟨enough, blit dst 0 bytes, blit_length (by omega), ?_, rfl⟩
      rw [blit, List.take_zero, List.nil_append, Nat.zero_add, List.drop_append, List.drop_eq_nil_of_le (by omega),
        List.nil_append, List.drop_drop]
      congr 1
      omega

theorem randBytes_supplied (fits : len ≤ dst.length) {bytes : List UInt8} (supplied : supply os len = some bytes) :
    randBytes os dst len = (0, bytes ++ dst.drop len) := by
  rcases Nat.eq_zero_or_pos len with rfl | positive
  · rw [List.eq_nil_of_length_eq_zero (supply_length supplied)]
    rfl
  unfold supply at supplied
  rcases randBytes_positive positive fits with ⟨enough, returned⟩ | ⟨short, dst', length, rest, returned⟩
  · rw [if_pos enough] at supplied
    rw [returned, Option.some.inj supplied]
  · rw [if_neg short] at supplied
    split at supplied
    · next enough =>
      rw [returned, fallback_supplied positive (by omega) enough, rest, Option.some.inj supplied]
    · cases supplied

theorem randBytes_unsupplied (fits : len ≤ dst.length) (unsupplied : supply os len = none) :
    ∃ left, left.length = len ∧ randBytes os dst len = (-1, left ++ dst.drop len) := by
  unfold supply at unsupplied
  split at unsupplied
  · cases unsupplied
  · next short =>
    split at unsupplied
    · cases unsupplied
    · next lacking =>
      have positive : 0 < len := by omega
      rcases randBytes_positive positive fits with ⟨enough, -⟩ | ⟨-, dst', length, rest, returned⟩
      · exact absurd enough short
      · obtain ⟨left, size, failed⟩ := @fallback_short os dst' len (by omega) lacking
        exact ⟨left, size, by rw [returned, failed, rest]⟩

/-- Every answer of the system, however the reads are cut. The code is 0 exactly when `getrandom`
has all the bytes, or else the reads of `/dev/urandom` bring them together before one of them
comes back empty; then the memory holds the bytes of that source, in order. Otherwise it is -1,
and what is in the memory is worth nothing. Nothing beyond `len` bytes is written. -/
theorem rand_bytes_exactly (os : Entropy) (dst : List UInt8) (len : Nat) (fits : len ≤ dst.length) :
    ∃ out, randBytes os dst len = (if (supply os len).isSome then 0 else -1, out ++ dst.drop len) ∧ out.length = len ∧
      ∀ bytes, supply os len = some bytes → out = bytes := by
  cases supplied : supply os len with
  | none =>
    obtain ⟨left, length, failed⟩ := randBytes_unsupplied fits supplied
    refine ⟨left, by rw [failed]; rfl, length, ?_⟩
    rintro bytes ⟨⟩
  | some bytes =>
    refine ⟨bytes, by rw [randBytes_supplied fits supplied]; rfl, supply_length supplied, ?_⟩
    rintro _ ⟨⟩
    rfl

end

/-- A `getrandom` that gives two bytes of four, and reads of one, two and two bytes. -/
theorem rand_bytes_exactly_short_reads :
    ∃ out, randBytes ⟨some [9, 9], some [[1], [2, 3], [4, 5]]⟩ [0, 0, 0, 0, 7] 4 =
        (if (supply ⟨some [9, 9], some [[1], [2, 3], [4, 5]]⟩ 4).isSome then 0 else -1, out ++ [0, 0, 0, 0, 7].drop 4) ∧
      out.length = 4 ∧ ∀ bytes, supply ⟨some [9, 9], some [[1], [2, 3], [4, 5]]⟩ 4 = some bytes → out = bytes :=
  rand_bytes_exactly _ _ 4 (by decide)

end Coalesce.Rand
