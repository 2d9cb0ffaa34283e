import Coalesce.BufferBytes

/-! Every writer as a list of chunks, each put behind the contents by one
reservation and one store. A writer that fails has put some of its chunks. -/

namespace Coalesce.BufferWriters
open Library.CallResult Buffer BufferBytes

def putAll : List (List UInt8) → BufCall Unit
  | [] => pure ()
  | chunk :: chunks => do
    putBytes chunk
    putAll chunks

theorem putAll_append (first second : List (List UInt8)) :
    putAll (first ++ second) = putAll first >>= fun _ => putAll second := by
  induction first with
  | nil => exact (pure_bind _ _).symm
  | cons chunk first ih => rw [List.cons_append, putAll, putAll, ih, bind_assoc]

theorem putAll_singleton (chunk : List UInt8) : putAll [chunk] = putBytes chunk := bind_pure_unit

/-! The chunks of the composite writers. -/

/-- `buf_put_raw` puts nothing when there is nothing, or no source. -/
def rawChunks (src : Option (List UInt8)) (n : Nat) : List (List UInt8) :=
  match src with
  | none => []
  | some src => if n = 0 then [] else [src.take n]

def stringChunks (str : Option (List UInt8)) (len : Nat) : List (List UInt8) :=
  be32 (UInt32.ofNat len) :: rawChunks str len

/-- The first significant byte on, of the magnitude that is there. -/
def significant (bignum : Option (List UInt8)) (len : Nat) : List UInt8 :=
  ((bignum.getD []).take len).dropWhile (· = 0)

/-- A magnitude whose first bit is set gets a zero byte in front. -/
def signPad (magnitude : List UInt8) : List (List UInt8) := if magnitude.headD 0 &&& 0x80 ≠ 0 then [[0x00]] else []

def mpintChunks (bignum : Option (List UInt8)) (len : Nat) : List (List UInt8) :=
  if significant bignum len = [] then [be32 0]
  else
    be32 (UInt32.ofNat ((significant bignum len).length + (signPad (significant bignum len)).length)) ::
      (signPad (significant bignum len) ++ [significant bignum len])

theorem bufPutU8_eq (val : UInt8) : bufPutU8 val = putAll [[val]] := (putAll_singleton [val]).symm

theorem bufPutU32_eq (val : UInt32) : bufPutU32 val = putAll [be32 val] := (putAll_singleton (be32 val)).symm

theorem bufPutU64_eq (val : UInt64) : bufPutU64 val = putAll [be64 val] := (putAll_singleton (be64 val)).symm

/-- A source that is not NULL has the bytes asked for. -/
def Readable (src : Option (List UInt8)) (n : Nat) : Prop := ∀ bytes, src = some bytes → n ≤ bytes.length

instance (src : Option (List UInt8)) (n : Nat) : Decidable (Readable src n) :=
  match src with
  | none => isTrue fun _ none => nomatch none
  | some bytes => decidable_of_iff (n ≤ bytes.length) ⟨fun h _ same => Option.some.inj same ▸ h, fun h => h bytes rfl⟩

theorem bufPutRaw_chunks {src : Option (List UInt8)} {n : Nat} (readable : Readable src n) :
    bufPutRaw src n = putAll (rawChunks src n) >>= fun _ => failIf (src.isNone && n > 0) := by
  cases src with
  | none =>
    by_cases empty : n = 0
    · subst empty
      rfl
    · have positive : decide (n > 0) = true := decide_eq_true (Nat.pos_of_ne_zero empty)
      rw [bufPutRaw, Option.isNone_none, positive]
      rfl
  | some src =>
    rw [bufPutRaw_eq (readable src rfl), rawChunks]
    by_cases empty : n = 0
    · rw [if_pos empty, if_pos empty]
      rfl
    · rw [if_neg empty, if_neg empty, putAll_singleton]
      exact bind_pure_unit.symm

theorem bufPutString_chunks {str : Option (List UInt8)} {len : Nat} (readable : Readable str len) :
    bufPutString str len = putAll (stringChunks str len) >>= fun _ => failIf (str.isNone && len > 0) := by
  rw [bufPutString, stringChunks, putAll, bind_assoc]
  by_cases positive : len > 0
  · rw [if_pos positive, bufPutRaw_chunks readable]
    rfl
  · have empty : rawChunks str len = [] := by
      cases str with
      | none => rfl
      | some str => exact if_pos (by omega)
    rw [if_neg positive, empty, decide_eq_false positive, Bool.and_false]
    rfl

theorem bufPutCstring_chunks (str : Option (List UInt8)) :
    bufPutCstring str = putAll (stringChunks (some (str.getD [])) (cString (str.getD [])).length) := by
  cases str with
  | none => rfl
  | some str =>
    have initial : cString str <+: str := List.takeWhile_prefix _
    have within : (cString str).length ≤ str.length := initial.length_le
    have readable : Readable (some str) (cString str).length := fun bytes same => Option.some.inj same ▸ within
    rw [bufPutCstring, bufPutString_chunks readable, Option.isNone_some, Bool.false_and]
    exact bind_pure_unit

theorem bufPutMpint_chunks (bignum : Option (List UInt8)) (len : Nat) :
    bufPutMpint bignum len = putAll (mpintChunks bignum len) := by
  rw [bufPutMpint, mpintChunks]
  by_cases nothing : (bignum.isNone || decide (len = 0)) = true
  · have empty : significant bignum len = [] := by
      cases bignum with
      | none => simp [significant]
      | some bytes =>
        have zero : len = 0 := by simpa using nothing
        simp [significant, zero]
    rw [if_pos nothing, if_pos empty, bufPutU32_eq]
  rw [if_neg nothing]
  change (if significant bignum len = [] then _ else _) = _
  by_cases zero : significant bignum len = []
  · rw [if_pos zero, if_pos zero, bufPutU32_eq]
  rw [if_neg zero, if_neg zero, putAll, putAll_append, putAll_singleton]
  have raw : bufPutRaw (some (significant bignum len)) (significant bignum len).length =
      putBytes (significant bignum len) := by
    have some_bytes : (significant bignum len).length ≠ 0 := fun none_left => zero (List.length_eq_zero_iff.mp none_left)
    rw [bufPutRaw_eq (Nat.le_refl _), if_neg some_bytes, List.take_length]
  change (do
    bufPutU32 (UInt32.ofNat ((significant bignum len).length +
      if (significant bignum len).headD 0 &&& 0x80 ≠ 0 then 1 else 0))
    if (significant bignum len).headD 0 &&& 0x80 ≠ 0 then bufPutU8 0x00 else pure ()
    bufPutRaw (some (significant bignum len)) (significant bignum len).length) = _
  rw [raw, signPad]
  by_cases pad : (significant bignum len).headD 0 &&& 0x80 ≠ 0
  · rw [if_pos pad, if_pos pad, if_pos pad, putAll_singleton]
    rfl
  · rw [if_neg pad, if_neg pad, if_neg pad]
    rfl

/-! What a run of chunks does, in full or cut off by a refused allocation. -/

/-- Each reservation that is reached asks for a content below half of the address space. -/
def RequestsBelow : List (List UInt8) → BufState → Prop
  | [], _ => True
  | chunk :: chunks, s =>
    s.buf.len + chunk.length < 2 ^ 63 ∧ ∀ t, putBytes chunk s = .ok () t → RequestsBelow chunks t

/-- Each store that is reached lies within the block as it is then. -/
def StoresWithin : List (List UInt8) → BufState → Prop
  | [], _ => True
  | chunk :: chunks, s => ∀ mid t, bufReserve chunk.length s = .ok () mid → store chunk mid = .ok () t →
      mid.buf.len + chunk.length ≤ mid.buf.cap ∧ StoresWithin chunks t

theorem requestsBelow_of_total {chunks : List (List UInt8)} {s : BufState} (sound : Sound s.buf)
    (room : s.buf.len + chunks.flatten.length < 2 ^ 63) : RequestsBelow chunks s := by
  induction chunks generalizing s with
  | nil => trivial
  | cons chunk chunks ih =>
    rw [List.flatten_cons, List.length_append] at room
    refine ⟨by omega, fun t written => ?_⟩
    rcases putBytes_cases sound (show s.buf.len + chunk.length < 2 ^ 63 by omega) with ⟨t', written', extended⟩ | ⟨-, refused⟩
    · rw [written] at written'
      cases written'
      exact ih extended.sound (by rw [extended.len]; omega)
    · rw [written] at refused
      cases refused

theorem putAll_cases {chunks : List (List UInt8)} {s : BufState} (sound : Sound s.buf) (below : RequestsBelow chunks s) :
    (∃ t, putAll chunks s = .ok () t ∧ Extended s t chunks.flatten ∧ (s.buf.len < 2 ^ 63 → t.buf.len < 2 ^ 63)) ∨
    (¬Plenty s.heap ∧ ∃ t written, putAll chunks s = .error .fail t ∧ Extended s t written ∧
      (s.buf.len < 2 ^ 63 → t.buf.len < 2 ^ 63)) := by
  induction chunks generalizing s with
  | nil => exact Or.inl ⟨s, rfl, extended_nil rfl id sound, id⟩
  | cons chunk chunks ih =>
    obtain ⟨room, later⟩ := below
    rw [putAll]
    rcases putBytes_cases sound room with ⟨mid, written, extended⟩ | ⟨scarce, refused⟩
    · have small : mid.buf.len < 2 ^ 63 := by rw [extended.len]; exact room
      rw [bind_of_ok written]
      rcases ih extended.sound (later mid written) with ⟨t, finished, rest, bound⟩ | ⟨scarce, t, more, stopped, rest, bound⟩
      · exact Or.inl ⟨t, finished, extended.trans rest, fun _ => bound small⟩
      · exact Or.inr ⟨fun plenty => scarce (extended.plenty plenty), t, chunk ++ more, stopped, extended.trans rest,
          fun _ => bound small⟩
    · refine Or.inr ⟨scarce, _, [], bind_of_error refused, extended_nil rfl ?_ sound, id⟩
      exact fun plenty => (plenty_alloc plenty).2

theorem storesWithin {chunks : List (List UInt8)} {s : BufState} (sound : Sound s.buf) (below : RequestsBelow chunks s) :
    StoresWithin chunks s := by
  induction chunks generalizing s with
  | nil => trivial
  | cons chunk chunks ih =>
    obtain ⟨room, later⟩ := below
    intro mid t reserved stored
    rcases bufReserve_cases sound room with ⟨mid', returned, grown⟩ | ⟨-, refused⟩
    · rw [reserved] at returned
      cases returned
      obtain ⟨t', stored', extended⟩ := store_extends sound room grown
      rw [stored] at stored'
      cases stored'
      exact ⟨by rw [grown.len]; exact grown.space, ih extended.sound (later t ((bind_of_ok reserved).trans stored))⟩
    · rw [reserved] at refused
      cases refused

end Coalesce.BufferWriters
