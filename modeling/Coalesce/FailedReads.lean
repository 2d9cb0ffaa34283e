import Coalesce.BufferLimits
import Coalesce.BufferRun

/-! What a failed reader leaves of a buffer. The readers that check what they need before
they advance leave it as it was. The reader of strings advances over the length before it
looks for what the length counts. -/

namespace Coalesce.FailedReads
open Library.CallResult Buffer BufferBytes BufferReaders BufferWriters BufferRun BufferLimits

def reader : Op → Bool
  | .getU8 | .getU32 | .getU64 | .getBool | .getRaw _ | .getString | .getCstring | .getMpint => true
  | _ => false

/-- The readers that take a length before what it counts. -/
def lengthFirst : Op → Bool
  | .getString | .getCstring | .getMpint => true
  | _ => false

/-- The state behind a reader that reported a failure, which is NULL for a C string. -/
def failedState : EStateM.Result Exit BufState Output → Option BufState
  | .error _ t => some t
  | .ok (.pointer none) t => some t
  | .ok _ _ => none

/-- If the reader fails, the same bytes can be read again. -/
def ConsumesNothing (op : Op) (s : BufState) : Prop :=
  ∀ t, failedState (exec op s) = some t → t.buf.rpos = s.buf.rpos

/-- A length is there, but not all that it counts, or no memory for it. -/
def CutOff (s : BufState) : Prop :=
  4 ≤ bufReadable s.buf ∧ (bufReadable s.buf < 4 + frontLength s.buf ∨ s.heap.alloc.1 = false)

/-- A reader that checks before it advances. -/
theorem consumesNothing_checked {op : Op} {s t : BufState} {value : Output} {short : Prop} [Decidable short]
    (result : exec op s = if short then .error .fail s else .ok value t) (found : value ≠ .pointer none) :
    ConsumesNothing op s := by
  intro u failed
  rw [result] at failed
  by_cases refused : short
  · rw [if_pos refused] at failed
    rw [← Option.some.inj failed]
  · rw [if_neg refused] at failed
    unfold failedState at failed
    split at failed
    · contradiction
    next same =>
      injection same with value
      exact absurd value found
    · contradiction

theorem guarded_map {α β : Type} {call : BufCall α} {s : BufState} {count : Nat} {value : α} (back : α → β)
    (result : call s = if bufReadable s.buf < count then .error .fail s else .ok value (advanced s count)) :
    (call >>= fun value => pure (back value)) s =
      if bufReadable s.buf < count then .error .fail s else .ok (back value) (advanced s count) := by
  by_cases short : bufReadable s.buf < count
  · rw [if_pos short] at result ⊢
    exact bind_of_error result
  · rw [if_neg short] at result ⊢
    exact bind_of_ok result

theorem scalar_consumesNothing {op : Op} (s : BufState) (read : reader op = true) (plain : lengthFirst op = false) :
    ConsumesNothing op s := by
  cases op with
  | getU8 => exact consumesNothing_checked (guarded_map Output.u8 (guarded_apply s 1 _)) (by simp)
  | getU32 => exact consumesNothing_checked (guarded_map Output.u32 (guarded_apply s 4 _)) (by simp)
  | getU64 => exact consumesNothing_checked (guarded_map Output.u64 (guarded_apply s 8 _)) (by simp)
  | getBool =>
    exact consumesNothing_checked (guarded_map Output.bool (guarded_map _ (guarded_apply s 1 _))) (by simp)
  | getRaw n => exact consumesNothing_checked (guarded_map Output.bytes (guarded_apply s n _)) (by simp)
  | _ => contradiction

/-- A string that is cut off costs its length; any other comes back, or fails in front of it. -/
theorem bufGetString_outcomes {s : BufState} (word : s.buf.len < SIZE_MAX_SUCC) :
    (CutOff s ∧ ∃ t, bufGetString s = .error .fail t ∧ t.buf.rpos = s.buf.rpos + 4) ∨
      (¬CutOff s ∧ (bufGetString s = .error .fail s ∨ ∃ bytes t, bufGetString s = .ok bytes t)) := by
  rw [bufGetString_apply word]
  by_cases header : bufReadable s.buf < 4
  · rw [if_pos header]
    exact Or.inr ⟨fun cut => Nat.not_le_of_lt header cut.1, Or.inl rfl⟩
  · rw [if_neg header]
    by_cases short : bufReadable s.buf < 4 + frontLength s.buf
    · rw [if_pos short]
      exact Or.inl ⟨⟨Nat.le_of_not_lt header, Or.inl short⟩, _, rfl, rfl⟩
    · rw [if_neg short]
      by_cases granted : s.heap.alloc.1 = true
      · have whole : ¬CutOff s := fun cut => cut.2.elim short (by simp [granted])
        rw [if_pos granted]
        exact Or.inr ⟨whole, Or.inr ⟨_, _, rfl⟩⟩
      · rw [if_neg granted]
        exact Or.inl ⟨⟨Nat.le_of_not_lt header, Or.inr (Bool.eq_false_of_not_eq_true granted)⟩, _, rfl, rfl⟩

/-- The readers of strings report what `buf_get_string` does, NULL for -1. -/
theorem failedState_string {op : Op} (s : BufState) (first : lengthFirst op = true) :
    failedState (exec op s) =
      match bufGetString s with
      | .ok _ _ => none
      | .error _ t => some t := by
  cases op with
  | getString =>
    rw [exec, bind_apply]
    cases bufGetString s <;> rfl
  | getMpint =>
    rw [exec, bufGetMpint, bind_apply]
    cases bufGetString s <;> rfl
  | getCstring =>
    rw [exec, bind_apply, bufGetCstring]
    cases bufGetString s with
    | ok str t => rfl
    | error exit t => cases exit <;> rfl
  | _ => contradiction

/-- A failed read consumes nothing, unless it is one of a string that is cut off. -/
theorem failed_read_consumes_nothing_iff (op : Op) (s : BufState) (read : reader op = true)
    (word : s.buf.len < SIZE_MAX_SUCC) : ConsumesNothing op s ↔ ¬(lengthFirst op = true ∧ CutOff s) := by
  cases first : lengthFirst op with
  | false => exact iff_of_true (scalar_consumesNothing s read first) (by simp)
  | true =>
    have told := failedState_string s first
    rw [ConsumesNothing]
    rcases bufGetString_outcomes word with ⟨cut, t, failed, moved⟩ | ⟨whole, failed | ⟨bytes, t, found⟩⟩
    · rw [told, failed]
      apply iff_of_false
      · intro kept
        have stays := kept t rfl
        omega
      · intro other
        exact other ⟨rfl, cut⟩
    · rw [told, failed]
      apply iff_of_true
      · intro t same
        rw [← Option.some.inj same]
      · intro both
        exact whole both.2
    · rw [told, found]
      apply iff_of_true
      · intro u impossible
        contradiction
      · intro both
        exact whole both.2

/-- A length of five bytes, and one byte behind it. -/
theorem failed_read_consumes_nothing_cut_off :
    let s : BufState := ⟨[], { data := [0, 0, 0, 5, 65], rpos := 0, len := 5, cap := 5 }⟩
    ConsumesNothing .getString s ↔ ¬(lengthFirst .getString = true ∧ CutOff s) :=
  failed_read_consumes_nothing_iff .getString ⟨[], { data := [0, 0, 0, 5, 65], rpos := 0, len := 5, cap := 5 }⟩ rfl (by decide)

/-- A length of one byte, and no byte behind it. -/
theorem failed_read_takes_length :
    ¬∀ op s, reader op = true → s.buf.len < SIZE_MAX_SUCC → ConsumesNothing op s := by
  intro claimed
  have stays := claimed .getString ⟨[], { data := [0, 0, 0, 1], rpos := 0, len := 4, cap := 4 }⟩ rfl (by decide) _ rfl
  exact absurd stays (by decide)

end Coalesce.FailedReads
