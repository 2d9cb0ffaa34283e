import Coalesce.Buffer
import Coalesce.Library.WordBytes

/-! A buffer as the bytes it holds. The writers append to the contents and the
readers take from the front of what is unread; the block behind them, its
capacity and its reallocation are not seen from here on. -/

namespace Coalesce.BufferBytes
open Library.CallResult Library.ByteNumber Library.WordBytes Buffer

/-- What every operation keeps: positions in order, within a block of `cap` bytes. A store
beyond the block would make `data` longer. -/
structure Sound (buf : SshBuf) : Prop where
  block : buf.data.length = buf.cap
  fits : buf.len ≤ buf.cap
  read : buf.rpos ≤ buf.len
  word : buf.cap < SIZE_MAX_SUCC

/-- What every buffer of the library keeps. A block and its header share one
half of the address space. -/
structure Valid (buf : SshBuf) : Prop where
  block : buf.data.length = buf.cap
  fits : buf.len ≤ buf.cap
  read : buf.rpos ≤ buf.len
  small : buf.cap < 2 ^ 63 - 1

/-- Largest content that the doubling loop can still make room for. -/
def BUF_ROOM : Nat := 2 ^ 62

/-- Every coming allocation is granted. -/
def Plenty (heap : Heap) : Prop := ∀ answer ∈ heap, answer = true

def contents (buf : SshBuf) : List UInt8 := buf.data.take buf.len

def unread (buf : SshBuf) : List UInt8 := (contents buf).drop buf.rpos

instance (buf : SshBuf) : Decidable (Valid buf) :=
  decidable_of_iff (buf.data.length = buf.cap ∧ buf.len ≤ buf.cap ∧ buf.rpos ≤ buf.len ∧ buf.cap < 2 ^ 63 - 1)
    ⟨fun h => ⟨h.1, h.2.1, h.2.2.1, h.2.2.2⟩, fun h => ⟨h.block, h.fits, h.read, h.small⟩⟩

instance (heap : Heap) : Decidable (Plenty heap) := inferInstanceAs (Decidable (∀ answer ∈ heap, answer = true))

instance (buf : SshBuf) : Decidable (Sound buf) :=
  decidable_of_iff (buf.data.length = buf.cap ∧ buf.len ≤ buf.cap ∧ buf.rpos ≤ buf.len ∧ buf.cap < SIZE_MAX_SUCC)
    ⟨fun h => ⟨h.1, h.2.1, h.2.2.1, h.2.2.2⟩, fun h => ⟨h.block, h.fits, h.read, h.word⟩⟩

section
variable {buf : SshBuf}

theorem Valid.sound (valid : Valid buf) : Sound buf :=
  ⟨valid.block, valid.fits, valid.read, Nat.lt_trans valid.small (by decide)⟩

theorem Sound.length_contents (sound : Sound buf) : (contents buf).length = buf.len := by
  rw [contents, List.length_take, sound.block, Nat.min_eq_left sound.fits]

theorem Sound.length_unread (sound : Sound buf) : (unread buf).length = buf.len - buf.rpos := by
  rw [unread, List.length_drop, sound.length_contents]

theorem Sound.readable (sound : Sound buf) : bufReadable buf = (unread buf).length := by
  rw [sound.length_unread, bufReadable]
  split <;> omega

theorem Valid.reset (valid : Valid buf) : Valid (bufReset buf) :=
  ⟨valid.block, Nat.zero_le _, Nat.le_refl _, valid.small⟩

theorem Sound.reset (sound : Sound buf) : Sound (bufReset buf) :=
  ⟨sound.block, Nat.zero_le _, Nat.le_refl _, sound.word⟩

@[simp] theorem contents_reset (buf : SshBuf) : contents (bufReset buf) = [] := rfl

end

theorem plenty_alloc {heap : Heap} (plenty : Plenty heap) : heap.alloc.1 = true ∧ Plenty heap.alloc.2 := by
  cases heap with
  | nil => exact ⟨rfl, plenty⟩
  | cons answer rest =>
    exact ⟨plenty answer (by simp), fun other member => plenty other (List.mem_cons_of_mem _ member)⟩

theorem heap_alloc_drop (heap : Heap) : heap.alloc.2 = heap.drop 1 := by cases heap <;> rfl

/-! The doubling loop. -/

theorem doubleCap_exit {need newCap : Nat} (fuel : Nat) (enough : need ≤ newCap) :
    doubleCap need fuel newCap = some newCap := by
  cases fuel <;> simp [doubleCap, Nat.not_lt.mpr enough]

/-- Within half of the address space the loop ends, and never above twice what is needed. -/
theorem doubleCap_room {need newCap fuel : Nat} (room : need < 2 ^ 63) (positive : 0 < newCap)
    (reaches : need ≤ newCap * 2 ^ fuel) :
    ∃ cap, doubleCap need fuel newCap = some cap ∧ need ≤ cap ∧ cap ≤ max newCap (2 * need) := by
  induction fuel generalizing newCap with
  | zero => exact ⟨newCap, doubleCap_exit 0 (by simpa using reaches), by simpa using reaches, Nat.le_max_left _ _⟩
  | succ fuel ih =>
    by_cases short : newCap < need
    · have doubled : newCap * 2 % SIZE_MAX_SUCC = newCap * 2 := Nat.mod_eq_of_lt (by unfold SIZE_MAX_SUCC; omega)
      obtain ⟨cap, exit, enough, bound⟩ := @ih (newCap * 2) (by omega) (by
        calc need ≤ newCap * 2 ^ (fuel + 1) := reaches
          _ = newCap * 2 * 2 ^ fuel := by ring)
      refine ⟨cap, ?_, enough, by omega⟩
      rw [doubleCap, if_pos short, doubled, exit]
    · exact ⟨newCap, doubleCap_exit _ (by omega), by omega, Nat.le_max_left _ _⟩

/-- A capacity that is a multiple of four never reaches the last three sizes. -/
theorem doubleCap_hang {need newCap fuel : Nat} (huge : 2 ^ 64 - 3 ≤ need) (below : newCap < SIZE_MAX_SUCC)
    (multiple : newCap % 4 = 0) : doubleCap need fuel newCap = none := by
  unfold SIZE_MAX_SUCC at below
  induction fuel generalizing newCap with
  | zero => rw [doubleCap, if_pos (by omega)]
  | succ fuel ih =>
    rw [doubleCap, if_pos (by omega)]
    exact ih (by unfold SIZE_MAX_SUCC; omega) (by unfold SIZE_MAX_SUCC; omega)

/-! Reserving. -/

/-- `buf->cap ? buf->cap * 2 : BUF_MIN_CAP` -/
def firstCap (cap : Nat) : Nat := if cap ≠ 0 then cap * 2 % SIZE_MAX_SUCC else BUF_MIN_CAP

theorem alloc_apply (s : BufState) :
    alloc s = if s.heap.alloc.1 then .ok () { s with heap := s.heap.alloc.2 }
      else .error .fail { s with heap := s.heap.alloc.2 } := by
  by_cases granted : s.heap.alloc.1 = true
  · simp [alloc, bind_apply, granted]
  · simp [alloc, bind_apply, granted]

theorem bufReserve_apply (s : BufState) (additional : Nat) :
    bufReserve additional s =
      if (s.buf.len + additional) % SIZE_MAX_SUCC ≤ s.buf.cap then .ok () s
      else match doubleCap ((s.buf.len + additional) % SIZE_MAX_SUCC) 64 (firstCap s.buf.cap) with
        | none => .error .hang s
        | some newCap =>
          if s.heap.alloc.1 then .ok () ⟨s.heap.alloc.2, { s.buf with data := grow s.buf.data newCap, cap := newCap }⟩
          else .error .fail { s with heap := s.heap.alloc.2 } := by
  rw [bufReserve, bind_of_ok (get_apply s), firstCap]
  simp only
  by_cases present : (s.buf.len + additional) % SIZE_MAX_SUCC ≤ s.buf.cap
  · rw [if_pos present, if_pos present, pure_apply]
  · rw [if_neg present, if_neg present]
    cases doubleCap ((s.buf.len + additional) % SIZE_MAX_SUCC) 64
        (if s.buf.cap ≠ 0 then s.buf.cap * 2 % SIZE_MAX_SUCC else BUF_MIN_CAP) with
    | none => rfl
    | some newCap =>
      by_cases granted : s.heap.alloc.1 = true
      · have given := (alloc_apply s).trans (if_pos granted)
        simp only [bind_of_ok given, if_pos granted, modify_apply]
      · have refused := (alloc_apply s).trans (if_neg granted)
        simp only [bind_of_error refused, if_neg granted]

theorem bufReserve_hang {s : BufState} {n : Nat} (valid : Valid s.buf) (empty : s.buf.len = 0)
    (huge : 2 ^ 64 - 3 ≤ n) (word : n < SIZE_MAX_SUCC) : bufReserve n s = .error .hang s := by
  have small := valid.small
  have need : (s.buf.len + n) % SIZE_MAX_SUCC = n := by rw [empty, Nat.zero_add, Nat.mod_eq_of_lt word]
  have stuck : doubleCap n 64 (firstCap s.buf.cap) = none := by
    unfold firstCap
    split
    · rw [doubleCap, if_pos (by unfold SIZE_MAX_SUCC; omega)]
      exact doubleCap_hang huge (Nat.mod_lt _ (by decide)) (by unfold SIZE_MAX_SUCC; omega)
    · exact doubleCap_hang huge (by decide) (by decide)
  rw [bufReserve_apply, need, if_neg (by omega), stuck]

/-- The block grows; nothing else moves. -/
structure Reserved (s t : BufState) (additional : Nat) : Prop where
  sound : Sound t.buf
  plenty : Plenty s.heap → Plenty t.heap
  len : t.buf.len = s.buf.len
  rpos : t.buf.rpos = s.buf.rpos
  contents : contents t.buf = contents s.buf
  space : s.buf.len + additional ≤ t.buf.cap
  bound : t.buf.cap ≤ max s.buf.cap (max BUF_MIN_CAP (2 * (s.buf.len + additional)))

theorem grow_length (data : List UInt8) (newCap : Nat) : (grow data newCap).length = newCap := by
  simp only [grow, List.length_append, List.length_take, List.length_replicate]
  omega

theorem grow_take {data : List UInt8} {newCap len : Nat} (within : len ≤ newCap) (held : len ≤ data.length) :
    (grow data newCap).take len = data.take len := by
  rw [grow, List.take_append_of_le_length (by rw [List.length_take]; omega), List.take_take, Nat.min_eq_left within]

theorem alloc_cases (s : BufState) :
    (s.heap.alloc.1 = true ∧ alloc s = .ok () { s with heap := s.heap.alloc.2 }) ∨
    (¬Plenty s.heap ∧ alloc s = .error .fail { s with heap := s.heap.alloc.2 }) := by
  by_cases granted : s.heap.alloc.1 = true
  · exact Or.inl ⟨granted, (alloc_apply s).trans (if_pos granted)⟩
  · exact Or.inr ⟨fun plenty => granted (plenty_alloc plenty).1, (alloc_apply s).trans (if_neg granted)⟩

theorem bufReserve_cases {s : BufState} {n : Nat} (sound : Sound s.buf) (room : s.buf.len + n < 2 ^ 63) :
    (∃ t, bufReserve n s = .ok () t ∧ Reserved s t n) ∨
    (¬Plenty s.heap ∧ bufReserve n s = .error .fail { s with heap := s.heap.alloc.2 }) := by
  have fits := sound.fits
  have need : (s.buf.len + n) % SIZE_MAX_SUCC = s.buf.len + n := Nat.mod_eq_of_lt (by unfold SIZE_MAX_SUCC; omega)
  rw [bufReserve_apply, need]
  by_cases present : s.buf.len + n ≤ s.buf.cap
  · rw [if_pos present]
    exact Or.inl ⟨s, rfl, sound, id, rfl, rfl, rfl, present, Nat.le_max_left _ _⟩
  · have start : 0 < firstCap s.buf.cap ∧ firstCap s.buf.cap ≤ max BUF_MIN_CAP (2 * (s.buf.len + n)) := by
      unfold firstCap SIZE_MAX_SUCC BUF_MIN_CAP
      split <;> omega
    obtain ⟨cap, exit, enough, bound⟩ := @doubleCap_room _ _ 64 room start.1 (by omega)
    have word : cap < SIZE_MAX_SUCC := by
      unfold BUF_MIN_CAP at start
      unfold SIZE_MAX_SUCC
      omega
    have within : s.buf.len ≤ cap := by omega
    rw [if_neg present, exit]
    by_cases granted : s.heap.alloc.1 = true
    · refine Or.inl ⟨⟨s.heap.alloc.2, { s.buf with data := grow s.buf.data cap, cap := cap }⟩, if_pos granted,
        ⟨grow_length _ _, within, sound.read, word⟩, fun plenty => (plenty_alloc plenty).2, rfl, rfl, ?_, enough, ?_⟩
      · exact grow_take within (by rw [sound.block]; exact fits)
      · change cap ≤ _
        omega
    · exact Or.inr ⟨fun plenty => granted (plenty_alloc plenty).1, if_neg granted⟩

/-- A reservation that does not succeed leaves the buffer. -/
theorem bufReserve_error {s t : BufState} {n : Nat} {exit : Exit} (stopped : bufReserve n s = .error exit t) :
    t.buf = s.buf := by
  rw [bufReserve_apply] at stopped
  by_cases present : (s.buf.len + n) % SIZE_MAX_SUCC ≤ s.buf.cap
  · rw [if_pos present] at stopped
    contradiction
  · rw [if_neg present] at stopped
    cases doubled : doubleCap ((s.buf.len + n) % SIZE_MAX_SUCC) 64 (firstCap s.buf.cap) with
    | none =>
      rw [doubled] at stopped
      injection stopped with _ state
      rw [← state]
    | some newCap =>
      rw [doubled] at stopped
      by_cases granted : s.heap.alloc.1 = true
      · simp only [if_pos granted] at stopped
        contradiction
      · simp only [if_neg granted] at stopped
        injection stopped with _ state
        rw [← state]

/-! Writing. -/

/-- The call appended the bytes and left the read position. -/
structure Appended (s t : BufState) (bytes : List UInt8) : Prop where
  valid : Valid t.buf
  plenty : Plenty s.heap → Plenty t.heap
  rpos : t.buf.rpos = s.buf.rpos
  contents : contents t.buf = contents s.buf ++ bytes

/-- A writer that appends these bytes to every buffer with room for them, and can fail
only for want of memory. -/
def Appends (call : BufCall Unit) (bytes : List UInt8) : Prop :=
  ∀ s : BufState, Valid s.buf → s.buf.len + bytes.length < BUF_ROOM →
    (∃ t, call s = .ok () t ∧ Appended s t bytes) ∨ (¬Plenty s.heap ∧ ∃ t, call s = .error .fail t)

theorem Appends.ok {call : BufCall Unit} {bytes : List UInt8} (writes : Appends call bytes) {s : BufState}
    (valid : Valid s.buf) (plenty : Plenty s.heap) (room : s.buf.len + bytes.length < BUF_ROOM) :
    ∃ t, call s = .ok () t ∧ Appended s t bytes := by
  rcases writes s valid room with written | ⟨scarce, -⟩
  · exact written
  · exact absurd plenty scarce

theorem Appended.len {s t : BufState} {bytes : List UInt8} (appended : Appended s t bytes) (valid : Valid s.buf) :
    t.buf.len = s.buf.len + bytes.length := by
  rw [← appended.valid.sound.length_contents, appended.contents, List.length_append, valid.sound.length_contents]

theorem Appends.bind {first second : BufCall Unit} {left right : List UInt8}
    (writes : Appends first left) (then_writes : Appends second right) :
    Appends (first >>= fun _ => second) (left ++ right) := by
  intro s valid room
  rw [List.length_append] at room
  rcases writes s valid (by omega) with ⟨mid, returned, half⟩ | ⟨scarce, t, failed⟩
  · rw [bind_of_ok returned]
    rcases then_writes mid half.valid (by rw [half.len valid]; omega) with ⟨t, finished, rest⟩ | ⟨scarce, failed⟩
    · refine Or.inl ⟨t, finished, rest.valid, fun plenty => rest.plenty (half.plenty plenty), ?_, ?_⟩
      · rw [rest.rpos, half.rpos]
      · rw [rest.contents, half.contents, List.append_assoc]
    · exact Or.inr ⟨fun plenty => scarce (half.plenty plenty), failed⟩
  · exact Or.inr ⟨scarce, t, bind_of_error failed⟩

theorem appends_nothing : Appends (pure ()) [] :=
  fun s valid _ => Or.inl ⟨s, rfl, valid, id, rfl, by rw [List.append_nil]⟩

theorem blit_length {data bytes : List UInt8} {at_ : Nat} (within : at_ + bytes.length ≤ data.length) :
    (blit data at_ bytes).length = data.length := by
  simp only [blit, List.length_append, List.length_take, List.length_drop]
  omega

theorem blit_take {data bytes : List UInt8} {at_ : Nat} (within : at_ ≤ data.length) :
    (blit data at_ bytes).take (at_ + bytes.length) = data.take at_ ++ bytes := by
  rw [blit, List.take_append_of_le_length (by
    rw [List.length_append, List.length_take]
    omega)]
  apply List.take_of_length_le
  rw [List.length_append, List.length_take]
  omega

/-- What every writer is made of: room for some bytes, and the bytes in it. -/
def putBytes (bytes : List UInt8) : BufCall Unit := do
  bufReserve bytes.length
  store bytes

/-- The bytes have been added behind the contents. -/
structure Extended (s t : BufState) (bytes : List UInt8) : Prop where
  sound : Sound t.buf
  plenty : Plenty s.heap → Plenty t.heap
  rpos : t.buf.rpos = s.buf.rpos
  len : t.buf.len = s.buf.len + bytes.length
  contents : contents t.buf = contents s.buf ++ bytes
  bound : t.buf.cap ≤ max s.buf.cap (max BUF_MIN_CAP (2 * (s.buf.len + bytes.length)))

theorem extended_nil {s t : BufState} (buf : t.buf = s.buf) (plenty : Plenty s.heap → Plenty t.heap) (sound : Sound s.buf) :
    Extended s t [] :=
  ⟨by rw [buf]; exact sound, plenty, by rw [buf], by rw [buf]; rfl, by rw [buf, List.append_nil], by
    rw [buf]
    exact Nat.le_max_left _ _⟩

theorem Extended.trans {s t u : BufState} {first second : List UInt8} (before : Extended s t first)
    (behind : Extended t u second) : Extended s u (first ++ second) := by
  refine ⟨behind.sound, fun plenty => behind.plenty (before.plenty plenty), behind.rpos.trans before.rpos, ?_, ?_, ?_⟩
  · rw [behind.len, before.len, List.length_append, Nat.add_assoc]
  · rw [behind.contents, before.contents, List.append_assoc]
  · have bound := before.bound
    have bound' := behind.bound
    rw [before.len] at bound'
    rw [List.length_append]
    omega

/-- A store with room for it. -/
theorem store_extends {s mid : BufState} {bytes : List UInt8} (sound : Sound s.buf) (room : s.buf.len + bytes.length < 2 ^ 63)
    (reserved : Reserved s mid bytes.length) : ∃ t, store bytes mid = .ok () t ∧ Extended s t bytes := by
  have grown := reserved.sound
  have space := reserved.space
  have read := sound.read
  have len : (mid.buf.len + bytes.length) % SIZE_MAX_SUCC = s.buf.len + bytes.length := by
    rw [reserved.len]
    exact Nat.mod_eq_of_lt (by unfold SIZE_MAX_SUCC; omega)
  have within : mid.buf.len + bytes.length ≤ mid.buf.data.length := by rw [grown.block, reserved.len]; exact space
  refine ⟨{ mid with
    buf := { mid.buf with data := blit mid.buf.data mid.buf.len bytes, len := s.buf.len + bytes.length } }, ?_,
    ⟨?_, space, ?_, grown.word⟩, reserved.plenty, reserved.rpos, rfl, ?_, reserved.bound⟩
  · rw [store, modify_apply, len]
  · rw [blit_length within, grown.block]
  · change mid.buf.rpos ≤ s.buf.len + bytes.length
    rw [reserved.rpos]
    omega
  · rw [← reserved.contents, ← reserved.len]
    exact blit_take (by omega)

theorem putBytes_cases {s : BufState} {bytes : List UInt8} (sound : Sound s.buf)
    (room : s.buf.len + bytes.length < 2 ^ 63) :
    (∃ t, putBytes bytes s = .ok () t ∧ Extended s t bytes) ∨
    (¬Plenty s.heap ∧ putBytes bytes s = .error .fail { s with heap := s.heap.alloc.2 }) := by
  rcases bufReserve_cases sound room with ⟨mid, returned, reserved⟩ | ⟨scarce, refused⟩
  · obtain ⟨t, stored, extended⟩ := store_extends sound room reserved
    exact Or.inl ⟨t, (bind_of_ok returned).trans stored, extended⟩
  · exact Or.inr ⟨scarce, bind_of_error refused⟩

theorem appends_store (bytes : List UInt8) : Appends (putBytes bytes) bytes := by
  intro s valid room
  have small := valid.small
  unfold BUF_ROOM at room
  rcases putBytes_cases valid.sound (show s.buf.len + bytes.length < 2 ^ 63 by omega) with
    ⟨t, written, extended⟩ | ⟨scarce, refused⟩
  · have bound := extended.bound
    unfold BUF_MIN_CAP at bound
    exact Or.inl ⟨t, written, ⟨extended.sound.block, extended.sound.fits, extended.sound.read, by omega⟩,
      extended.plenty, extended.rpos, extended.contents⟩
  · exact Or.inr ⟨scarce, _, refused⟩

theorem appends_u8 (val : UInt8) : Appends (bufPutU8 val) [val] := appends_store [val]

theorem appends_u32 (val : UInt32) : Appends (bufPutU32 val) (be32 val) := appends_store (be32 val)

theorem appends_bool (val : Bool) : Appends (bufPutBool val) [if val then 1 else 0] := appends_u8 _

theorem bufPutRaw_eq {src : List UInt8} {n : Nat} (present : n ≤ src.length) :
    bufPutRaw (some src) n = if n = 0 then pure () else putBytes (src.take n) := by
  have length : (src.take n).length = n := by rw [List.length_take, Nat.min_eq_left present]
  funext s
  rw [bufPutRaw, Option.isNone_some, Bool.false_and, bind_of_ok (failIf_false s), putBytes, length]
  rfl

theorem appends_raw {src : List UInt8} {n : Nat} (present : n ≤ src.length) :
    Appends (bufPutRaw (some src) n) (src.take n) := by
  rw [bufPutRaw_eq present]
  by_cases none_left : n = 0
  · subst none_left
    exact appends_nothing
  · rw [if_neg none_left]
    exact appends_store _

/-- A raw write that does not succeed leaves the buffer. -/
theorem bufPutRaw_error {s t : BufState} {src : Option (List UInt8)} {n : Nat} {exit : Exit}
    (stopped : bufPutRaw src n s = .error exit t) : t.buf = s.buf := by
  rw [bufPutRaw] at stopped
  cases missing : (src.isNone && decide (n > 0)) with
  | true =>
    rw [missing, bind_of_error (failIf_true s)] at stopped
    cases stopped
    rfl
  | false =>
    rw [missing, bind_of_ok (failIf_false s)] at stopped
    split at stopped
    · cases stopped
    · cases reserved : bufReserve n s with
      | ok value mid =>
        rw [bind_of_ok reserved] at stopped
        cases stopped
      | error exit' mid =>
        rw [bind_of_error reserved] at stopped
        cases stopped
        exact bufReserve_error reserved

/-- The wire form of a string: its length and its bytes. -/
def wireString (str : List UInt8) : List UInt8 := be32 (UInt32.ofNat str.length) ++ str

theorem appends_string {src : List UInt8} {n : Nat} (present : n ≤ src.length) :
    Appends (bufPutString (some src) n) (wireString (src.take n)) := by
  have length : (src.take n).length = n := by rw [List.length_take, Nat.min_eq_left present]
  rw [wireString, length]
  refine (appends_u32 _).bind ?_
  by_cases positive : n > 0
  · rw [if_pos positive]
    exact appends_raw present
  · rw [if_neg positive, show n = 0 by omega]
    exact appends_nothing

theorem take_cString (str : List UInt8) : str.take (cString str).length = cString str := by
  have initial : cString str <+: str := List.takeWhile_prefix _
  exact Eq.symm <| List.prefix_iff_eq_take.mp initial

/-- NULL is written as the empty string, any other pointer up to its NUL. -/
theorem appends_cstring (str : Option (List UInt8)) :
    Appends (bufPutCstring str) (wireString (cString (str.getD []))) := by
  cases str with
  | none => exact appends_string (Nat.le_refl 0)
  | some str =>
    have initial : cString str <+: str := List.takeWhile_prefix _
    have written := @appends_string str _ initial.length_le
    rw [take_cString] at written
    exact written

end Coalesce.BufferBytes
