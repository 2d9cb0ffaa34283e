import Coalesce.BufferReaders

/-! Sizes at the end of `size_t`. `buf_reserve` and `buf_consume` form sums that wrap,
and the doubling loop loses its high bits. Up to half of the address space none of this
shows. -/

namespace Coalesce.BufferLimits
open Library.CallResult Buffer BufferBytes BufferReaders

/-! The doubling loop, on the whole range. -/

theorem doubled (newCap k : Nat) :
    newCap * 2 % SIZE_MAX_SUCC * 2 ^ k % SIZE_MAX_SUCC = newCap * 2 ^ (k + 1) % SIZE_MAX_SUCC := by
  rw [Nat.mod_mul_mod, pow_succ, Nat.mul_assoc, Nat.mul_comm 2]

theorem doubleCap_result {need newCap cap fuel : Nat} (word : newCap < SIZE_MAX_SUCC)
    (result : doubleCap need fuel newCap = some cap) : need ≤ cap ∧ ∃ k, cap = newCap * 2 ^ k % SIZE_MAX_SUCC := by
  have here : newCap = newCap * 2 ^ 0 % SIZE_MAX_SUCC := by rw [pow_zero, Nat.mul_one, Nat.mod_eq_of_lt word]
  induction fuel generalizing newCap with
  | zero =>
    rw [doubleCap] at result
    split at result
    · contradiction
    · injection result with same
      exact ⟨by omega, 0, by rw [← same]; exact here⟩
  | succ fuel ih =>
    rw [doubleCap] at result
    split at result
    · have below : newCap * 2 % SIZE_MAX_SUCC < SIZE_MAX_SUCC := Nat.mod_lt _ (by decide)
      obtain ⟨enough, k, same⟩ := ih below result (by rw [pow_zero, Nat.mul_one, Nat.mod_eq_of_lt below])
      exact ⟨enough, k + 1, by rw [same, doubled]⟩
    · injection result with same
      exact ⟨by omega, 0, by rw [← same]; exact here⟩

theorem doubleCap_reaches {need newCap fuel k : Nat} (word : newCap < SIZE_MAX_SUCC) (steps : k ≤ fuel)
    (reached : need ≤ newCap * 2 ^ k % SIZE_MAX_SUCC) : ∃ cap, doubleCap need fuel newCap = some cap := by
  induction fuel generalizing newCap k with
  | zero =>
    rw [Nat.le_zero.mp steps, pow_zero, Nat.mul_one, Nat.mod_eq_of_lt word] at reached
    exact ⟨newCap, doubleCap_exit 0 reached⟩
  | succ fuel ih =>
    by_cases enough : need ≤ newCap
    · exact ⟨newCap, doubleCap_exit _ enough⟩
    · cases k with
      | zero =>
        rw [pow_zero, Nat.mul_one, Nat.mod_eq_of_lt word] at reached
        exact absurd reached enough
      | succ k =>
        rw [← doubled] at reached
        rw [doubleCap, if_pos (Nat.lt_of_not_le enough)]
        exact ih (Nat.mod_lt _ (by decide)) (Nat.le_of_succ_le_succ steps) reached

/-- After 64 doublings nothing is left of the capacity. -/
theorem doubled_out {newCap k : Nat} (many : 64 ≤ k) : newCap * 2 ^ k % SIZE_MAX_SUCC = 0 := by
  have split : 2 ^ k = SIZE_MAX_SUCC * 2 ^ (k - 64) := by
    rw [SIZE_MAX_SUCC, ← pow_add, Nat.add_sub_cancel' many]
  rw [split, Nat.mul_left_comm, Nat.mul_mod_right]

/-- The loop ends if and only if one of the capacities it can take is large enough. -/
theorem doubleCap_iff {need newCap : Nat} (positive : 0 < need) (word : newCap < SIZE_MAX_SUCC) :
    (∃ cap, doubleCap need 64 newCap = some cap) ↔ ∃ k, need ≤ newCap * 2 ^ k % SIZE_MAX_SUCC := by
  constructor
  · rintro ⟨cap, result⟩
    obtain ⟨enough, k, same⟩ := doubleCap_result word result
    exact ⟨k, by rw [← same]; exact enough⟩
  · rintro ⟨k, reached⟩
    have few : k ≤ 64 := by
      by_contra many
      rw [doubled_out (by omega)] at reached
      omega
    exact doubleCap_reaches word few reached

theorem firstCap_lt (cap : Nat) : firstCap cap < SIZE_MAX_SUCC := by
  unfold firstCap
  split
  · exact Nat.mod_lt _ (by decide)
  · decide

/-! Reserving. -/

/-- The call comes back. Either there is room for so many bytes more behind the contents,
or it failed and the buffer is as before. -/
def Truthful (s : BufState) (additional : Nat) : Prop :=
  (∃ t, bufReserve additional s = .ok () t ∧ s.buf.len + additional ≤ t.buf.cap ∧ t.buf.data.length = t.buf.cap ∧
      t.buf.len = s.buf.len ∧ t.buf.rpos = s.buf.rpos ∧ contents t.buf = contents s.buf) ∨
    ∃ t, bufReserve additional s = .error .fail t ∧ t.buf = s.buf

/-- The sum does not wrap, and there is room for it in the block or in one of the blocks
that doubling the capacity, modulo `2 ^ 64`, leads to. -/
def Answerable (buf : SshBuf) (additional : Nat) : Prop :=
  buf.len + additional < SIZE_MAX_SUCC ∧
    (buf.len + additional ≤ buf.cap ∨ ∃ k, buf.len + additional ≤ firstCap buf.cap * 2 ^ k % SIZE_MAX_SUCC)

/-- A sum that wraps is below the capacity, so that nothing is reserved. -/
theorem bufReserve_wrapped {s : BufState} {additional : Nat} (sound : Sound s.buf) (word : additional < SIZE_MAX_SUCC)
    (wraps : SIZE_MAX_SUCC ≤ s.buf.len + additional) : bufReserve additional s = .ok () s := by
  have fits := sound.fits
  have capWord := sound.word
  have small : (s.buf.len + additional) % SIZE_MAX_SUCC ≤ s.buf.cap := by
    rw [Nat.mod_eq_sub_mod wraps, Nat.mod_eq_of_lt (by omega)]
    omega
  rw [bufReserve_apply, if_pos small]

/-- A call that comes back has told the truth, as long as the sum does not wrap. -/
theorem truthful_of_below {s : BufState} {additional : Nat} (sound : Sound s.buf)
    (below : s.buf.len + additional < SIZE_MAX_SUCC) :
    Truthful s additional ↔ s.buf.len + additional ≤ s.buf.cap ∨
      ∃ newCap, doubleCap (s.buf.len + additional) 64 (firstCap s.buf.cap) = some newCap := by
  rw [Truthful, bufReserve_apply, Nat.mod_eq_of_lt below]
  by_cases present : s.buf.len + additional ≤ s.buf.cap
  · rw [if_pos present]
    exact iff_of_true (Or.inl ⟨s, rfl, present, sound.block, rfl, rfl, rfl⟩) (Or.inl present)
  · rw [if_neg present, or_iff_right present]
    cases doubled : doubleCap (s.buf.len + additional) 64 (firstCap s.buf.cap) with
    | none => simp
    | some newCap =>
      have enough := (doubleCap_result (firstCap_lt s.buf.cap) doubled).1
      have fits : s.buf.len ≤ s.buf.data.length := by
        rw [sound.block]
        exact sound.fits
      apply iff_of_true _ ⟨newCap, rfl⟩
      by_cases granted : s.heap.alloc.1 = true
      · have kept := grow_take (Nat.le_trans (Nat.le_add_right _ _) enough) fits
        simp only [if_pos granted]
        exact Or.inl ⟨_, rfl, enough, grow_length _ _, rfl, rfl, kept⟩
      · simp only [if_neg granted]
        exact Or.inr ⟨_, rfl, rfl⟩

/-- `buf_reserve` terminates and tells the truth just when the sum and the doubling stay
clear of the end of `size_t`. -/
theorem reserve_truthful_iff (s : BufState) (additional : Nat) (sound : Sound s.buf) (word : additional < SIZE_MAX_SUCC) :
    Truthful s additional ↔ Answerable s.buf additional := by
  by_cases wraps : SIZE_MAX_SUCC ≤ s.buf.len + additional
  · have returned := bufReserve_wrapped sound word wraps
    apply iff_of_false
    · rintro (⟨t, result, room, -⟩ | ⟨t, result, -⟩)
      · have capWord := sound.word
        rw [returned] at result
        injection result with _ same
        rw [← same] at room
        omega
      · rw [returned] at result
        contradiction
    · intro answerable
      exact Nat.not_lt_of_le wraps answerable.1
  · have below : s.buf.len + additional < SIZE_MAX_SUCC := Nat.lt_of_not_le wraps
    rw [truthful_of_below sound below, Answerable, and_iff_right below]
    by_cases present : s.buf.len + additional ≤ s.buf.cap
    · exact iff_of_true (Or.inl present) (Or.inl present)
    · have ends := doubleCap_iff (show 0 < s.buf.len + additional by omega) (firstCap_lt s.buf.cap)
      rw [or_iff_right present, or_iff_right present, ends]

/-- A byte behind the content of a full buffer of 64 bytes finds room after one doubling. -/
theorem reserve_truthful_full :
    let s : BufState := ⟨[], { data := List.replicate 64 0, rpos := 0, len := 64, cap := 64 }⟩
    Truthful s 1 ↔ Answerable s.buf 1 :=
  reserve_truthful_iff ⟨[], { data := List.replicate 64 0, rpos := 0, len := 64, cap := 64 }⟩ 1 (by decide) (by decide)

/-- No doubling of 64 comes to `SIZE_MAX`. -/
theorem reserve_size_max_hangs : ¬∀ s additional, Sound s.buf → additional < SIZE_MAX_SUCC → Truthful s additional := by
  intro claimed
  have valid : Valid { data := List.replicate 64 0, rpos := 0, len := 0, cap := 64 } := by decide
  have hangs := @bufReserve_hang ⟨[], _⟩ (2 ^ 64 - 1) valid rfl (by decide) (by decide)
  rcases claimed ⟨[], _⟩ (2 ^ 64 - 1) valid.sound (by decide) with ⟨t, result, -⟩ | ⟨t, result, -⟩
  · rw [hangs] at result
    contradiction
  · rw [hangs] at result
    injection result with exit
    contradiction

/-- Half of the address space is always within reach. -/
theorem answerable_half {buf : SshBuf} {additional : Nat} (half : buf.len + additional ≤ 2 ^ 63) :
    Answerable buf additional := by
  refine ⟨Nat.lt_of_le_of_lt half (by decide), ?_⟩
  by_cases present : buf.len + additional ≤ buf.cap
  · exact Or.inl present
  · have positive : firstCap buf.cap ≠ 0 := by
      unfold firstCap SIZE_MAX_SUCC BUF_MIN_CAP
      split <;> omega
    have top : Nat.log 2 (firstCap buf.cap) < 64 := Nat.log_lt_of_lt_pow positive (firstCap_lt buf.cap)
    have low : 2 ^ Nat.log 2 (firstCap buf.cap) ≤ firstCap buf.cap := Nat.pow_log_le_self 2 positive
    have high : firstCap buf.cap < 2 ^ (Nat.log 2 (firstCap buf.cap) + 1) := Nat.lt_pow_succ_log_self (by decide) _
    have reach : 2 ^ 63 ≤ firstCap buf.cap * 2 ^ (63 - Nat.log 2 (firstCap buf.cap)) := by
      calc 2 ^ 63 = 2 ^ Nat.log 2 (firstCap buf.cap) * 2 ^ (63 - Nat.log 2 (firstCap buf.cap)) := by
            rw [← pow_add, Nat.add_sub_cancel' (by omega)]
        _ ≤ _ := Nat.mul_le_mul_right _ low
    have below : firstCap buf.cap * 2 ^ (63 - Nat.log 2 (firstCap buf.cap)) < SIZE_MAX_SUCC := by
      calc firstCap buf.cap * 2 ^ (63 - Nat.log 2 (firstCap buf.cap)) <
            2 ^ (Nat.log 2 (firstCap buf.cap) + 1) * 2 ^ (63 - Nat.log 2 (firstCap buf.cap)) :=
              Nat.mul_lt_mul_of_pos_right high (Nat.pow_pos (by decide))
        _ = SIZE_MAX_SUCC := by
            rw [← pow_add, show Nat.log 2 (firstCap buf.cap) + 1 + (63 - Nat.log 2 (firstCap buf.cap)) = 64 by omega]
            rfl
    apply Or.inr
    refine ⟨63 - Nat.log 2 (firstCap buf.cap), ?_⟩
    rw [Nat.mod_eq_of_lt below]
    exact Nat.le_trans half reach

/-! Consuming. -/

/-- The call succeeds on what is there to read and on nothing else, takes what it was asked
for, and never moves back. -/
structure ConsumesExactly (s : BufState) (n : Nat) : Prop where
  accepts : (∃ t, bufConsume n s = .ok () t) ↔ n ≤ bufReadable s.buf
  takes : ∀ t, bufConsume n s = .ok () t → bufReadable t.buf + n = bufReadable s.buf
  refuses : ∀ exit t, bufConsume n s = .error exit t → exit = .fail ∧ t.buf.rpos = s.buf.rpos
  forward : s.buf.rpos ≤ (stateOf (bufConsume n s)).buf.rpos

theorem bufConsume_apply (s : BufState) (n : Nat) :
    bufConsume n s = if (s.buf.rpos + n) % SIZE_MAX_SUCC > s.buf.len then .error .fail s
      else .ok () { s with buf := { s.buf with rpos := (s.buf.rpos + n) % SIZE_MAX_SUCC } } := by
  rw [bufConsume, bind_of_ok (get_apply s)]
  by_cases beyond : (s.buf.rpos + n) % SIZE_MAX_SUCC > s.buf.len
  · rw [if_pos beyond, decide_eq_true beyond, bind_of_error (failIf_true s)]
  · rw [if_neg beyond, decide_eq_false beyond, bind_of_ok (failIf_false s), set_apply]

theorem exactly_of_taken {s t : BufState} {n : Nat} (taken : bufConsume n s = .ok () t)
    (left : bufReadable t.buf + n = bufReadable s.buf) (ahead : s.buf.rpos ≤ t.buf.rpos) : ConsumesExactly s n := by
  constructor
  · exact iff_of_true ⟨t, taken⟩ (by omega)
  · intro u result
    rw [taken] at result
    injection result with _ same
    rw [← same]
    exact left
  · intro exit u result
    rw [taken] at result
    contradiction
  · rw [taken]
    exact ahead

theorem exactly_of_refused {s : BufState} {n : Nat} (refused : bufConsume n s = .error .fail s)
    (short : ¬n ≤ bufReadable s.buf) : ConsumesExactly s n := by
  constructor
  · apply iff_of_false _ short
    rintro ⟨t, result⟩
    rw [refused] at result
    contradiction
  · intro t result
    rw [refused] at result
    contradiction
  · intro exit t result
    rw [refused] at result
    injection result with same state
    exact ⟨same.symm, by rw [← state]⟩
  · rw [refused]
    exact Nat.le_refl _

/-- `buf_consume` is exact just when `rpos + n` does not wrap. -/
theorem consumes_exactly_iff (s : BufState) (n : Nat) (order : s.buf.rpos ≤ s.buf.len) (lenWord : s.buf.len < SIZE_MAX_SUCC)
    (word : n < SIZE_MAX_SUCC) : ConsumesExactly s n ↔ s.buf.rpos + n < SIZE_MAX_SUCC := by
  constructor
  · intro exactly
    by_contra wraps
    have reaches : SIZE_MAX_SUCC ≤ s.buf.rpos + n := Nat.le_of_not_lt wraps
    have sum : (s.buf.rpos + n) % SIZE_MAX_SUCC = s.buf.rpos + n - SIZE_MAX_SUCC := by
      rw [Nat.mod_eq_sub_mod reaches, Nat.mod_eq_of_lt (by omega)]
    have back := exactly.forward
    rw [bufConsume_apply, sum, if_neg (by omega)] at back
    change s.buf.rpos ≤ s.buf.rpos + n - SIZE_MAX_SUCC at back
    omega
  · intro below
    have readable := readable_ordered order
    by_cases present : s.buf.rpos + n ≤ s.buf.len
    · have taken : bufConsume n s = .ok () { s with buf := { s.buf with rpos := s.buf.rpos + n } } := by
        rw [bufConsume_apply, Nat.mod_eq_of_lt below, if_neg (Nat.not_lt_of_le present)]
      have left : bufReadable { s.buf with rpos := s.buf.rpos + n } = s.buf.len - (s.buf.rpos + n) := readable_ordered present
      exact exactly_of_taken taken (by rw [left, readable]; omega) (Nat.le_add_right _ _)
    · have refused : bufConsume n s = .error .fail s := by
        rw [bufConsume_apply, Nat.mod_eq_of_lt below, if_pos (Nat.lt_of_not_le present)]
      exact exactly_of_refused refused (by omega)

theorem consumes_exactly_two_of_three :
    let s : BufState := ⟨[], { data := [1, 2, 3], rpos := 0, len := 3, cap := 3 }⟩
    ConsumesExactly s 2 ↔ s.buf.rpos + 2 < SIZE_MAX_SUCC :=
  consumes_exactly_iff ⟨[], { data := [1, 2, 3], rpos := 0, len := 3, cap := 3 }⟩ 2 (by decide) (by decide) (by decide)

/-- At the end of a buffer of one byte, `n = SIZE_MAX` is one step back. -/
theorem consume_size_max_moves_back :
    ¬∀ s n, s.buf.rpos ≤ s.buf.len → s.buf.len < SIZE_MAX_SUCC → n < SIZE_MAX_SUCC → ConsumesExactly s n := by
  intro claimed
  have back := (claimed ⟨[], { data := [7], rpos := 1, len := 1, cap := 1 }⟩ (2 ^ 64 - 1) (by decide) (by decide)
    (by decide)).forward
  exact absurd back (by decide)

end Coalesce.BufferLimits
