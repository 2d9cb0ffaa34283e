import Coalesce.BufferBytes

/-! The readers take from the front of what is unread. -/

namespace Coalesce.BufferReaders
open Library.CallResult Library.ByteNumber Library.WordBytes Buffer BufferBytes

/-- The read position moved by `count`. -/
def skip (s : BufState) (count : Nat) : BufState := { s with buf := { s.buf with rpos := s.buf.rpos + count } }

theorem skip_skip (s : BufState) (first second : Nat) : skip (skip s first) second = skip s (first + second) := by
  simp only [skip, Nat.add_assoc]

@[simp] theorem skip_heap (s : BufState) (count : Nat) : (skip s count).heap = s.heap := rfl

@[simp] theorem contents_skip (s : BufState) (count : Nat) : contents (skip s count).buf = contents s.buf := rfl

@[simp] theorem unread_skip (s : BufState) (count : Nat) : unread (skip s count).buf = (unread s.buf).drop count := by
  simp only [unread, contents_skip, List.drop_drop]
  rfl

theorem sound_skip {s : BufState} {count : Nat} (sound : Sound s.buf) (present : count ≤ (unread s.buf).length) :
    Sound (skip s count).buf := by
  rw [sound.length_unread] at present
  have read := sound.read
  exact ⟨sound.block, sound.fits, by change s.buf.rpos + count ≤ s.buf.len; omega, sound.word⟩

theorem valid_skip {s : BufState} {count : Nat} (valid : Valid s.buf) (present : count ≤ (unread s.buf).length) :
    Valid (skip s count).buf := by
  have sound := sound_skip valid.sound present
  exact ⟨sound.block, sound.fits, sound.read, valid.small⟩

/-- What the block holds at the read position is what is unread. -/
theorem take_block {s : BufState} {count : Nat} (sound : Sound s.buf) (present : count ≤ (unread s.buf).length) :
    (s.buf.data.drop s.buf.rpos).take count = (unread s.buf).take count := by
  rw [sound.length_unread] at present
  rw [unread, contents, List.drop_take, List.take_take, Nat.min_eq_left present]

theorem byteAt_eq {s : BufState} {k : Nat} (sound : Sound s.buf) (present : k < (unread s.buf).length) :
    byteAt s.buf (s.buf.rpos + k) = (unread s.buf).getD k 0 := by
  rw [sound.length_unread] at present
  simp only [byteAt, unread, contents, List.getD_eq_getElem?_getD, List.getElem?_drop]
  rw [List.getElem?_take_of_lt (by omega)]

/-! One form for the readers: so many bytes must be there, then they are passed. -/

/-- The read position `count` further on. -/
def advanced (s : BufState) (count : Nat) : BufState :=
  { s with buf := { s.buf with rpos := (s.buf.rpos + count) % SIZE_MAX_SUCC } }

theorem advanced_eq {s : BufState} {count : Nat} (word : s.buf.len < SIZE_MAX_SUCC)
    (present : s.buf.rpos + count ≤ s.buf.len) : advanced s count = skip s count := by
  rw [advanced, Nat.mod_eq_of_lt (Nat.lt_of_le_of_lt present word)]
  rfl

theorem guarded_apply {α : Type} (s : BufState) (count : Nat) (value : α) :
    (failIf (bufReadable s.buf < count) >>= fun _ => advance count >>= fun _ => (pure value : BufCall α)) s =
      if bufReadable s.buf < count then .error .fail s else .ok value (advanced s count) := by
  by_cases short : bufReadable s.buf < count
  · rw [if_pos short, decide_eq_true short, bind_of_error (failIf_true s)]
  · rw [if_neg short, decide_eq_false short, bind_of_ok (failIf_false s)]
    rfl

theorem guarded_eq {α : Type} {s : BufState} (sound : Sound s.buf) (count : Nat) (value : α) :
    (failIf (bufReadable s.buf < count) >>= fun _ => advance count >>= fun _ => (pure value : BufCall α)) s =
      if count ≤ (unread s.buf).length then .ok value (skip s count) else .error .fail s := by
  rw [guarded_apply, sound.readable]
  by_cases present : count ≤ (unread s.buf).length
  · have fits := sound.fits
    have word := sound.word
    have read := sound.read
    have within : s.buf.rpos + count ≤ s.buf.len := by
      rw [sound.length_unread] at present
      omega
    rw [if_pos present, if_neg (Nat.not_lt_of_le present), advanced_eq (by omega) within]
  · rw [if_neg present, if_pos (Nat.lt_of_not_le present)]

theorem bufGetU8_eq {s : BufState} (sound : Sound s.buf) :
    bufGetU8 s = match unread s.buf with
      | [] => .error .fail s
      | byte :: _ => .ok byte (skip s 1) := by
  have first := byteAt_eq (k := 0) sound
  rw [show bufGetU8 s = _ from guarded_eq sound 1 _]
  cases rest : unread s.buf with
  | nil => rfl
  | cons byte bytes =>
    rw [rest] at first
    have found : byteAt s.buf s.buf.rpos = byte := first (by simp)
    rw [if_pos (by simp), found]

theorem be32_eq (val : UInt32) : be32 val = beBytes 4 val.toNat := by
  have stored := storeWord_eq val.toBitVec rfl
  rw [UInt32.toNat_toBitVec] at stored
  rw [← stored]
  rfl

@[simp] theorem be32_length (val : UInt32) : (be32 val).length = 4 := rfl

theorem ofNat_be32 (val : UInt32) : UInt32.ofNat (beNat (be32 val)) = val := by
  have small : val.toNat % 256 ^ 4 = val.toNat := Nat.mod_eq_of_lt val.toNat_lt
  rw [be32_eq, beNat_beBytes, small, UInt32.ofNat_toNat]

theorem be32_ofNat {bytes : List UInt8} (four : bytes.length = 4) : be32 (UInt32.ofNat (beNat bytes)) = bytes := by
  have small := beNat_lt bytes
  have word := beBytes_beNat bytes
  rw [four] at small word
  rw [be32_eq, UInt32.toNat_ofNat_of_lt' small, word]

theorem ofBe32_eq (b0 b1 b2 b3 : UInt8) : ofBe32 b0 b1 b2 b3 = UInt32.ofNat (beNat [b0, b1, b2, b3]) := by
  have loaded := loadWord_eq 32 [b0, b1, b2, b3] rfl (by simp)
  apply UInt32.toBitVec_inj.mp
  rw [UInt32.toBitVec_ofNat', ← show beNat ([b0, b1, b2, b3].take 4) = beNat [b0, b1, b2, b3] from rfl, ← loaded]
  simp [ofBe32, loadWord, List.range_succ]

theorem bufGetU32_eq {s : BufState} (sound : Sound s.buf) :
    bufGetU32 s = if 4 ≤ (unread s.buf).length
      then .ok (UInt32.ofNat (beNat ((unread s.buf).take 4))) (skip s 4)
      else .error .fail s := by
  rw [show bufGetU32 s = _ from guarded_eq sound 4 _]
  by_cases present : 4 ≤ (unread s.buf).length
  · have bytes : (unread s.buf).take 4 = [(unread s.buf).getD 0 0, (unread s.buf).getD 1 0,
        (unread s.buf).getD 2 0, (unread s.buf).getD 3 0] := by
      rcases rest : unread s.buf with _ | ⟨b0, _ | ⟨b1, _ | ⟨b2, _ | ⟨b3, bytes⟩⟩⟩⟩ <;> simp_all
    rw [if_pos present, if_pos present, bytes, ← ofBe32_eq]
    simp only [byteAt_eq sound (show 0 < (unread s.buf).length by omega),
      byteAt_eq sound (show 1 < (unread s.buf).length by omega), byteAt_eq sound (show 2 < (unread s.buf).length by omega),
      byteAt_eq sound (show 3 < (unread s.buf).length by omega)]
  · rw [if_neg present, if_neg present]

/-- Eight bytes, highest first. -/
theorem be64_eq (val : UInt64) : be64 val = beBytes 8 val.toNat := by
  have stored := storeWord_eq val.toBitVec rfl
  rw [UInt64.toNat_toBitVec] at stored
  rw [← stored]
  rfl

@[simp] theorem be64_length (val : UInt64) : (be64 val).length = 8 := rfl

theorem ofNat_be64 (val : UInt64) : UInt64.ofNat (beNat (be64 val)) = val := by
  have small : val.toNat % 256 ^ 8 = val.toNat := Nat.mod_eq_of_lt val.toNat_lt
  rw [be64_eq, beNat_beBytes, small, UInt64.ofNat_toNat]

theorem be64_ofNat {bytes : List UInt8} (eight : bytes.length = 8) : be64 (UInt64.ofNat (beNat bytes)) = bytes := by
  have small := beNat_lt bytes
  have word := beBytes_beNat bytes
  rw [eight] at small word
  rw [be64_eq, UInt64.toNat_ofNat_of_lt' small, word]

/-- One more byte below those already read. -/
private theorem or_byte (high : Nat) (byte : UInt8) :
    (UInt64.ofNat high <<< 8) ||| byte.toUInt64 = UInt64.ofNat (high * 256 + byte.toNat) := by
  have small : byte.toNat < 2 ^ 8 := byte.toNat_lt
  have low : high % 2 ^ 64 * 256 % 2 ^ 64 = (high % 2 ^ 56) <<< 8 := by
    rw [Nat.shiftLeft_eq]
    omega
  apply UInt64.toNat.inj
  calc ((UInt64.ofNat high <<< 8) ||| byte.toUInt64).toNat = (high % 2 ^ 64 * 256 % 2 ^ 64) ||| byte.toNat := by
        simp [Nat.shiftLeft_eq]
    _ = (high % 2 ^ 56) <<< 8 + byte.toNat := by rw [low, Nat.shiftLeft_add_eq_or_of_lt small]
    _ = (high * 256 + byte.toNat) % 2 ^ 64 := by
        rw [Nat.shiftLeft_eq]
        omega
    _ = _ := rfl

theorem ofBe64_eq (byte : Nat → UInt8) : ofBe64 byte = UInt64.ofNat (beNat ((List.range 8).map byte)) := by
  have horner (count : Nat) : (List.range count).foldl (fun (res : UInt64) i => (res <<< 8) ||| (byte i).toUInt64) 0 =
      UInt64.ofNat (beNat ((List.range count).map byte)) := by
    induction count with
    | zero => rfl
    | succ count ih =>
      rw [List.range_succ, List.foldl_append, ih, List.map_append, beNat_append, List.foldl_cons, List.foldl_nil, or_byte,
        List.map_singleton, beNat_singleton, List.length_singleton, pow_one]
  exact horner 8

theorem bufGetU64_eq {s : BufState} (sound : Sound s.buf) :
    bufGetU64 s = if 8 ≤ (unread s.buf).length
      then .ok (UInt64.ofNat (beNat ((unread s.buf).take 8))) (skip s 8)
      else .error .fail s := by
  rw [show bufGetU64 s = _ from guarded_eq sound 8 _]
  by_cases present : 8 ≤ (unread s.buf).length
  · have bytes : (List.range 8).map (fun i => byteAt s.buf (s.buf.rpos + i)) = (unread s.buf).take 8 := by
      apply List.ext_getElem
      · rw [List.length_map, List.length_range, List.length_take, Nat.min_eq_left present]
      · intro i inside inside'
        rw [List.length_map, List.length_range] at inside
        rw [List.getElem_map, List.getElem_range, byteAt_eq sound (by omega), List.getElem_take,
          List.getD_eq_getElem?_getD, List.getElem?_eq_getElem (by omega)]
        rfl
    rw [if_pos present, if_pos present, ofBe64_eq, bytes]
  · rw [if_neg present, if_neg present]

theorem bufGetRaw_eq {s : BufState} (sound : Sound s.buf) (n : Nat) :
    bufGetRaw n s = if n ≤ (unread s.buf).length
      then .ok ((unread s.buf).take n) (skip s n)
      else .error .fail s := by
  rw [show bufGetRaw n s = _ from guarded_eq sound n _]
  by_cases present : n ≤ (unread s.buf).length
  · rw [if_pos present, if_pos present, take_block sound present]
  · rw [if_neg present, if_neg present]

theorem bufGetBool_eq {s : BufState} (sound : Sound s.buf) :
    bufGetBool s = match unread s.buf with
      | [] => .error .fail s
      | byte :: _ => .ok (byte ≠ 0) (skip s 1) := by
  rw [bufGetBool, bind_apply, bufGetU8_eq sound]
  cases unread s.buf <;> rfl

/-- Length and bytes of the string at the front of what is unread. -/
def stringLength (bytes : List UInt8) : Nat := beNat (bytes.take 4)

theorem stringLength_lt (bytes : List UInt8) : stringLength bytes < 2 ^ 32 := by
  refine Nat.lt_of_lt_of_le (beNat_lt _) ?_
  rw [List.length_take, show 2 ^ 32 = 256 ^ 4 from rfl]
  exact Nat.pow_le_pow_right (by decide) (Nat.min_le_left _ _)

theorem wireString_length (str : List UInt8) : (wireString str).length = 4 + str.length := by
  rw [wireString, List.length_append, be32_length]

theorem stringLength_wireString {str : List UInt8} (rest : List UInt8) (short : str.length < 2 ^ 32) :
    stringLength (wireString str ++ rest) = str.length := by
  rw [stringLength, wireString, List.append_assoc, List.take_append_of_le_length (by simp),
    List.take_of_length_le (by simp), be32_eq, beNat_beBytes, UInt32.toNat_ofNat_of_lt' short]
  exact Nat.mod_eq_of_lt short

/-- The length at the read position. -/
def frontLength (buf : SshBuf) : Nat :=
  (ofBe32 (byteAt buf (buf.rpos + 0)) (byteAt buf (buf.rpos + 1)) (byteAt buf (buf.rpos + 2)) (byteAt buf (buf.rpos + 3))).toNat

theorem bufGetU32_apply (s : BufState) :
    bufGetU32 s = if bufReadable s.buf < 4 then .error .fail s
      else .ok (UInt32.ofNat (frontLength s.buf)) (advanced s 4) := by
  rw [frontLength, UInt32.ofNat_toNat]
  exact guarded_apply s 4 _

theorem readable_ordered {buf : SshBuf} (order : buf.rpos ≤ buf.len) : bufReadable buf = buf.len - buf.rpos := by
  rw [bufReadable]
  split <;> omega

/-- A string that is not all there, or finds no memory, still costs its length field. -/
theorem bufGetString_apply {s : BufState} (word : s.buf.len < SIZE_MAX_SUCC) :
    bufGetString s =
      if bufReadable s.buf < 4 then .error .fail s
      else if bufReadable s.buf < 4 + frontLength s.buf then .error .fail (skip s 4)
      else if s.heap.alloc.1 then
        .ok ((s.buf.data.drop (s.buf.rpos + 4)).take (frontLength s.buf))
          (skip { s with heap := s.heap.alloc.2 } (4 + frontLength s.buf))
      else .error .fail (skip { s with heap := s.heap.alloc.2 } 4) := by
  by_cases header : bufReadable s.buf < 4
  · rw [if_pos header, bufGetString, bind_of_error (by rw [bufGetU32_apply, if_pos header])]
  · have order : s.buf.rpos + bufReadable s.buf = s.buf.len := by
      unfold bufReadable at header ⊢
      split at header <;> split <;> omega
    have left : bufReadable (skip s 4).buf = bufReadable s.buf - 4 := by
      rw [readable_ordered (show s.buf.rpos + 4 ≤ s.buf.len by omega)]
      change s.buf.len - (s.buf.rpos + 4) = _
      omega
    have length : (UInt32.ofNat (frontLength s.buf)).toNat = frontLength s.buf := by rw [frontLength, UInt32.ofNat_toNat]
    have opened : bufGetU32 s = .ok (UInt32.ofNat (frontLength s.buf)) (skip s 4) := by
      rw [bufGetU32_apply, if_neg header, advanced_eq word (by omega)]
    rw [if_neg header, bufGetString, bind_of_ok opened, bind_of_ok (get_apply _), length, left]
    by_cases short : bufReadable s.buf < 4 + frontLength s.buf
    · rw [if_pos short, decide_eq_true (show bufReadable s.buf - 4 < frontLength s.buf by omega), bind_of_error (failIf_true _)]
    · rw [if_neg short, decide_eq_false (show ¬bufReadable s.buf - 4 < frontLength s.buf by omega),
        bind_of_ok (failIf_false _)]
      by_cases granted : s.heap.alloc.1 = true
      · have body : s.buf.rpos + 4 + frontLength s.buf ≤ s.buf.len := by omega
        have moved := @advanced_eq (skip { s with heap := s.heap.alloc.2 } 4) (frontLength s.buf) word body
        rw [if_pos granted, bind_of_ok ((alloc_apply (skip s 4)).trans (if_pos granted))]
        by_cases positive : frontLength s.buf > 0
        · rw [if_pos positive, ← skip_skip, ← moved]
          rfl
        · rw [if_neg positive, show frontLength s.buf = 0 by omega]
          rfl
      · rw [if_neg granted, bind_of_error ((alloc_apply (skip s 4)).trans (if_neg granted))]
        rfl

theorem frontLength_eq {s : BufState} (sound : Sound s.buf) (header : 4 ≤ (unread s.buf).length) :
    frontLength s.buf = stringLength (unread s.buf) := by
  have opened := bufGetU32_apply s
  rw [bufGetU32_eq sound, sound.readable, if_pos header, if_neg (Nat.not_lt_of_le header)] at opened
  injection opened with same _
  have length := congrArg UInt32.toNat same
  rw [frontLength, UInt32.ofNat_toNat] at length
  rw [frontLength, ← length]
  exact UInt32.toNat_ofNat_of_lt' (stringLength_lt _)

/-- The same of a buffer in order. -/
theorem bufGetString_eq {s : BufState} (sound : Sound s.buf) :
    bufGetString s =
      if (unread s.buf).length < 4 then .error .fail s
      else if (unread s.buf).length < 4 + stringLength (unread s.buf) then .error .fail (skip s 4)
      else if s.heap.alloc.1 then
        .ok (((unread s.buf).drop 4).take (stringLength (unread s.buf)))
          (skip { s with heap := s.heap.alloc.2 } (4 + stringLength (unread s.buf)))
      else .error .fail (skip { s with heap := s.heap.alloc.2 } 4) := by
  rw [bufGetString_apply (Nat.lt_of_le_of_lt sound.fits sound.word), sound.readable]
  by_cases header : (unread s.buf).length < 4
  · rw [if_pos header, if_pos header]
  · rw [if_neg header, if_neg header, frontLength_eq sound (Nat.le_of_not_lt header)]
    by_cases short : (unread s.buf).length < 4 + stringLength (unread s.buf)
    · rw [if_pos short, if_pos short]
    · have body : (s.buf.data.drop (s.buf.rpos + 4)).take (stringLength (unread s.buf)) =
          ((unread s.buf).drop 4).take (stringLength (unread s.buf)) := by
        have block := congrArg (List.drop 4) (take_block sound (Nat.le_of_not_lt short))
        rw [List.drop_take, List.drop_take, List.drop_drop, Nat.add_sub_cancel_left] at block
        exact block
      rw [if_neg short, if_neg short, body]

theorem bufGetCstring_eq {s : BufState} (sound : Sound s.buf) :
    bufGetCstring s =
      if (unread s.buf).length < 4 then .ok none s
      else if (unread s.buf).length < 4 + stringLength (unread s.buf) then .ok none (skip s 4)
      else if s.heap.alloc.1 then
        .ok (some (((unread s.buf).drop 4).take (stringLength (unread s.buf))))
          (skip { s with heap := s.heap.alloc.2 } (4 + stringLength (unread s.buf)))
      else .ok none (skip { s with heap := s.heap.alloc.2 } 4) := by
  rw [bufGetCstring, bufGetString_eq sound]
  by_cases short : (unread s.buf).length < 4
  · simp only [if_pos short]
  by_cases cut : (unread s.buf).length < 4 + stringLength (unread s.buf)
  · simp only [if_neg short, if_pos cut]
  by_cases granted : s.heap.alloc.1
  · simp only [if_neg short, if_neg cut, if_pos granted]
  · simp only [if_neg short, if_neg cut, if_neg granted]

end Coalesce.BufferReaders
