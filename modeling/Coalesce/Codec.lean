import Coalesce.BufferReaders
import Coalesce.BufferWriters

/-! The wire codec as a whole: a sequence of typed values written with the writers
of their types and read back with the readers. -/

namespace Coalesce.Codec
open Library.CallResult Library.ByteNumber Buffer BufferBytes BufferReaders BufferWriters

/-- A value with its wire type; a magnitude is unsigned, highest byte first. -/
inductive Value where
  | u8 (val : UInt8)
  | u32 (val : UInt32)
  | u64 (val : UInt64)
  | bool (val : Bool)
  | string (bytes : List UInt8)
  | mpint (magnitude : List UInt8)
  deriving DecidableEq, Repr

def put : Value → BufCall Unit
  | .u8 val => bufPutU8 val
  | .u32 val => bufPutU32 val
  | .u64 val => bufPutU64 val
  | .bool val => bufPutBool val
  | .string bytes => bufPutString (some bytes) bytes.length
  | .mpint magnitude => bufPutMpint (some magnitude) magnitude.length

/-- The reader for the type of a value. -/
def get : Value → BufCall Value
  | .u8 _ => do pure (.u8 (← bufGetU8))
  | .u32 _ => do pure (.u32 (← bufGetU32))
  | .u64 _ => do pure (.u64 (← bufGetU64))
  | .bool _ => do pure (.bool (← bufGetBool))
  | .string _ => do pure (.string (← bufGetString))
  | .mpint _ => do pure (.mpint (← bufGetMpint))

def putValues : List Value → BufCall Unit
  | [] => pure ()
  | value :: values => do
    put value
    putValues values

def getValues : List Value → BufCall (List Value)
  | [] => pure []
  | value :: values => do
    let read ← get value
    let rest ← getValues values
    pure (read :: rest)

/-- What fits the length fields of the wire. -/
def Encodable : Value → Prop
  | .string bytes => bytes.length < 2 ^ 32
  | .mpint magnitude => magnitude.length < 2 ^ 32 - 1
  | _ => True

/-- The shortest two's complement form of a number that is not negative: its first bit is
clear, and no byte could be left out. -/
def Canonical : List UInt8 → Prop
  | [] => True
  | first :: rest => first.toNat < 128 ∧ (first = 0 → ∃ second rest', rest = second :: rest' ∧ 128 ≤ second.toNat)

/-- What is read of a value: the value, or the canonical body of the same number. -/
def Matches : Value → Value → Prop
  | .mpint magnitude, .mpint body => Canonical body ∧ beNat body = beNat magnitude
  | value, read => read = value

/-- The body that an unsigned magnitude has on the wire. -/
def mpintBody (magnitude : List UInt8) : List UInt8 :=
  (signPad (magnitude.dropWhile (· = 0))).flatten ++ magnitude.dropWhile (· = 0)

def wire : Value → List UInt8
  | .u8 val => [val]
  | .u32 val => be32 val
  | .u64 val => be64 val
  | .bool val => [if val then 1 else 0]
  | .string bytes => wireString bytes
  | .mpint magnitude => wireString (mpintBody magnitude)

/-! Canonical bodies. -/

theorem high_bit (byte : UInt8) : byte &&& 0x80 ≠ 0 ↔ 128 ≤ byte.toNat := by
  have every : ∀ n : Fin 256, (n.val &&& 128 ≠ 0 ↔ 128 ≤ n.val) := by decide +kernel
  have here := every ⟨byte.toNat, byte.toNat_lt⟩
  rw [← here, ne_eq, ne_eq, ← UInt8.toNat_inj, UInt8.toNat_and]
  rfl

theorem beNat_dropWhile (bytes : List UInt8) : beNat (bytes.dropWhile (· = 0)) = beNat bytes := by
  induction bytes with
  | nil => rfl
  | cons byte bytes ih =>
    by_cases zero : byte = 0
    · rw [List.dropWhile_cons_of_pos (by simpa using zero), ih, beNat_cons, zero, UInt8.toNat_zero, Nat.zero_mul, Nat.zero_add]
    · rw [List.dropWhile_cons_of_neg (by simpa using zero)]

theorem head_dropWhile {bytes rest : List UInt8} {first : UInt8} (kept : bytes.dropWhile (· = 0) = first :: rest) :
    first ≠ 0 := by
  have stopped := List.head?_dropWhile_not (fun byte : UInt8 => decide (byte = 0)) bytes
  rw [kept] at stopped
  simpa using stopped

theorem mpintBody_number (magnitude : List UInt8) : beNat (mpintBody magnitude) = beNat magnitude := by
  have padded (bytes : List UInt8) : beNat ((signPad bytes).flatten ++ bytes) = beNat bytes := by
    unfold signPad
    split
    · rw [beNat_append]
      simp [beNat]
    · rfl
  rw [mpintBody, padded, beNat_dropWhile]

theorem mpintBody_canonical (magnitude : List UInt8) : Canonical (mpintBody magnitude) := by
  rw [mpintBody]
  cases kept : magnitude.dropWhile (· = 0) with
  | nil => trivial
  | cons first rest =>
    have some_bit := head_dropWhile kept
    unfold signPad
    by_cases high : first &&& 0x80 ≠ 0
    · rw [if_pos (show (first :: rest).headD 0 &&& 0x80 ≠ 0 from high)]
      exact ⟨by decide, fun _ => ⟨first, rest, rfl, (high_bit first).mp high⟩⟩
    · rw [if_neg (show ¬(first :: rest).headD 0 &&& 0x80 ≠ 0 from high)]
      rw [high_bit] at high
      exact ⟨by omega, fun zero => absurd zero some_bit⟩

/-- The number of a canonical body lies between the least and the most of its length. -/
theorem canonical_bounds {first : UInt8} {rest : List UInt8} (canonical : Canonical (first :: rest)) :
    256 ^ rest.length ≤ 2 * beNat (first :: rest) ∧ 2 * beNat (first :: rest) < 256 ^ (rest.length + 1) := by
  obtain ⟨positive, least⟩ := canonical
  have tail := beNat_lt rest
  have most : first.toNat * 256 ^ rest.length ≤ 127 * 256 ^ rest.length := Nat.mul_le_mul_right _ (by omega)
  rw [pow_succ, beNat_cons]
  refine ⟨?_, by omega⟩
  by_cases zero : first = 0
  · obtain ⟨second, rest', rfl, high⟩ := least zero
    have bits : 128 * 256 ^ rest'.length ≤ second.toNat * 256 ^ rest'.length := Nat.mul_le_mul_right _ high
    rw [beNat_cons, List.length_cons, pow_succ]
    omega
  · have some_bit : 1 ≤ first.toNat := by
      have nonzero : first.toNat ≠ 0 := fun same => zero (UInt8.toNat_inj.mp same)
      omega
    have bits : 1 * 256 ^ rest.length ≤ first.toNat * 256 ^ rest.length := Nat.mul_le_mul_right _ some_bit
    omega

/-- A number has one canonical body. -/
theorem canonical_unique {first second : List UInt8} (left : Canonical first) (right : Canonical second)
    (same : beNat first = beNat second) : first = second := by
  have ordered {short long : List UInt8} (lower : Canonical long) (upper : Canonical short)
      (number : beNat short = beNat long) : long.length ≤ short.length := by
    by_contra shorter
    cases long with
    | nil => exact shorter (Nat.zero_le _)
    | cons a as =>
      have least := (canonical_bounds lower).1
      cases short with
      | nil =>
        have positive : 0 < 256 ^ as.length := Nat.pos_of_ne_zero (by simp)
        rw [← number] at least
        simp [beNat] at least
      | cons b bs =>
        have most := (canonical_bounds upper).2
        rw [List.length_cons, List.length_cons] at shorter
        have grows : 256 ^ (bs.length + 1) ≤ 256 ^ as.length := Nat.pow_le_pow_right (by decide) (by omega)
        omega
  have length : first.length = second.length :=
    Nat.le_antisymm (ordered left right same.symm) (ordered right left same)
  rw [← beBytes_beNat first, ← beBytes_beNat second, length, same]

/-! One value. -/

theorem put_chunks (value : Value) : ∃ chunks, put value = putAll chunks ∧ chunks.flatten = wire value := by
  cases value with
  | u8 val => exact ⟨[[val]], bufPutU8_eq val, rfl⟩
  | u32 val => exact ⟨[be32 val], bufPutU32_eq val, rfl⟩
  | u64 val => exact ⟨[be64 val], bufPutU64_eq val, rfl⟩
  | bool val => exact ⟨[[if val then 1 else 0]], bufPutU8_eq _, rfl⟩
  | string bytes =>
    refine ⟨stringChunks (some bytes) bytes.length, ?_, ?_⟩
    · have readable : Readable (some bytes) bytes.length := fun other same => Option.some.inj same ▸ Nat.le_refl _
      rw [put, bufPutString_chunks readable]
      exact bind_pure_unit
    · rw [stringChunks, rawChunks, wire, wireString, List.flatten_cons]
      by_cases empty : bytes.length = 0
      · rw [if_pos empty, List.length_eq_zero_iff.mp empty]
        rfl
      · rw [if_neg empty, List.take_length]
        simp
  | mpint magnitude =>
    refine ⟨mpintChunks (some magnitude) magnitude.length, bufPutMpint_chunks _ _, ?_⟩
    have same : significant (some magnitude) magnitude.length = magnitude.dropWhile (· = 0) := by
      rw [significant, Option.getD_some, List.take_length]
    rw [mpintChunks, same, wire, wireString, mpintBody]
    by_cases zero : magnitude.dropWhile (· = 0) = []
    · rw [if_pos zero, zero]
      rfl
    · have pad (bytes : List UInt8) : (signPad bytes).flatten.length = (signPad bytes).length := by
        unfold signPad
        split <;> rfl
      rw [if_neg zero, List.length_append, pad, Nat.add_comm (signPad _).length]
      simp

theorem mpintBody_length (magnitude : List UInt8) : (mpintBody magnitude).length ≤ magnitude.length + 1 := by
  have pad : (signPad (magnitude.dropWhile (· = 0))).flatten.length ≤ 1 := by
    unfold signPad
    split <;> simp
  have rest : (magnitude.dropWhile (· = 0)).length ≤ magnitude.length := (List.dropWhile_suffix _).length_le
  rw [mpintBody, List.length_append]
  omega

/-- A string at the front of what is unread is read whole. -/
theorem bufGetString_reads {s : BufState} {str rest : List UInt8} (sound : Sound s.buf) (plenty : Plenty s.heap)
    (short : str.length < 2 ^ 32) (front : unread s.buf = wireString str ++ rest) :
    bufGetString s = .ok str (skip { s with heap := s.heap.alloc.2 } (wireString str).length) := by
  have length : (wireString str).length = 4 + str.length := wireString_length str
  have body : ((unread s.buf).drop 4).take str.length = str := by
    rw [front, wireString, List.append_assoc, List.drop_append_of_le_length (by simp), List.drop_of_length_le (by simp),
      List.nil_append, List.take_left]
  have size : stringLength (unread s.buf) = str.length := by rw [front, stringLength_wireString rest short]
  have total : (unread s.buf).length = 4 + str.length + rest.length := by rw [front, List.length_append, length]
  rw [bufGetString_eq sound, size, if_neg (by omega), if_neg (by omega), if_pos (plenty_alloc plenty).1, body, length]

theorem get_reads {value : Value} {s : BufState} {rest : List UInt8} (sound : Sound s.buf) (plenty : Plenty s.heap)
    (encodable : Encodable value) (front : unread s.buf = wire value ++ rest) :
    ∃ read heap, get value s = .ok read (skip { s with heap := heap } (wire value).length) ∧ Matches value read ∧ Plenty heap := by
  cases value with
  | u8 val =>
    refine ⟨.u8 val, s.heap, ?_, rfl, plenty⟩
    rw [get, bind_of_ok (by rw [bufGetU8_eq sound, front]; rfl)]
    rfl
  | u32 val =>
    have present : 4 ≤ (unread s.buf).length := by rw [front, List.length_append, wire, be32_length]; omega
    have bytes : (unread s.buf).take 4 = be32 val := by rw [front, wire, List.take_left' (be32_length val)]
    refine ⟨.u32 val, s.heap, ?_, rfl, plenty⟩
    rw [get, bind_of_ok (by rw [bufGetU32_eq sound, if_pos present, bytes, ofNat_be32])]
    rfl
  | u64 val =>
    have present : 8 ≤ (unread s.buf).length := by rw [front, List.length_append, wire, be64_length]; omega
    have bytes : (unread s.buf).take 8 = be64 val := by rw [front, wire, List.take_left' (be64_length val)]
    refine ⟨.u64 val, s.heap, ?_, rfl, plenty⟩
    rw [get, bind_of_ok (by rw [bufGetU64_eq sound, if_pos present, bytes, ofNat_be64])]
    rfl
  | bool val =>
    refine ⟨.bool val, s.heap, ?_, rfl, plenty⟩
    rw [get, bind_of_ok (by rw [bufGetBool_eq sound, front]; rfl)]
    cases val <;> rfl
  | string bytes =>
    refine ⟨.string bytes, s.heap.alloc.2, ?_, rfl, (plenty_alloc plenty).2⟩
    rw [get, bind_of_ok (bufGetString_reads sound plenty encodable front)]
    rfl
  | mpint magnitude =>
    have length := mpintBody_length magnitude
    have short : (mpintBody magnitude).length < 2 ^ 32 := by
      unfold Encodable at encodable
      omega
    refine ⟨.mpint (mpintBody magnitude), s.heap.alloc.2, ?_, ⟨mpintBody_canonical magnitude, mpintBody_number magnitude⟩,
      (plenty_alloc plenty).2⟩
    rw [get, bufGetMpint, bind_of_ok (bufGetString_reads sound plenty short front)]
    rfl

/-! The sequence. -/

theorem putValues_chunks (values : List Value) :
    ∃ chunks, putValues values = putAll chunks ∧ chunks.flatten = values.flatMap wire := by
  induction values with
  | nil => exact ⟨[], rfl, rfl⟩
  | cons value values ih =>
    obtain ⟨first, written, bytes⟩ := put_chunks value
    obtain ⟨rest, later, tail⟩ := ih
    refine ⟨first ++ rest, ?_, ?_⟩
    · rw [putValues, written, later, putAll_append]
    · rw [List.flatten_append, bytes, tail, List.flatMap_cons]

theorem getValues_reads {values : List Value} {s : BufState} {rest : List UInt8} (sound : Sound s.buf)
    (plenty : Plenty s.heap) (encodable : ∀ value ∈ values, Encodable value)
    (front : unread s.buf = values.flatMap wire ++ rest) :
    ∃ read heap, getValues values s = .ok read (skip { s with heap := heap } (values.flatMap wire).length) ∧
      List.Forall₂ Matches values read := by
  induction values generalizing s with
  | nil => exact ⟨[], s.heap, rfl, .nil⟩
  | cons value values ih =>
    rw [List.flatMap_cons, List.append_assoc] at front
    obtain ⟨read, heap, returned, same, more⟩ := get_reads sound plenty (encodable value List.mem_cons_self) front
    have present : (wire value).length ≤ (unread s.buf).length := by
      rw [front, List.length_append]
      omega
    have behind : unread (skip { s with heap := heap } (wire value).length).buf = values.flatMap wire ++ rest := by
      rw [unread_skip]
      change (unread s.buf).drop _ = _
      rw [front, List.drop_left]
    obtain ⟨reads, heap', rest_returned, all⟩ := ih (s := skip { s with heap := heap } (wire value).length)
      (sound_skip (s := { s with heap := heap }) sound present) more
      (fun other member => encodable other (List.mem_cons_of_mem _ member)) behind
    refine ⟨read :: reads, heap', ?_, .cons same all⟩
    rw [getValues, bind_of_ok returned, bind_of_ok rest_returned, List.flatMap_cons, List.length_append]
    simp only [skip, Nat.add_assoc]
    rfl

/-- Whatever is written behind a buffer's contents is read back from there, value by value,
up to the write position; the contents before it stay as they were. -/
theorem codec_round_trip (values : List Value) (s : BufState) (sound : Sound s.buf) (plenty : Plenty s.heap)
    (encodable : ∀ value ∈ values, Encodable value) (room : s.buf.len + (values.flatMap wire).length < 2 ^ 63) :
    ∃ t, putValues values s = .ok () t ∧ contents t.buf = contents s.buf ++ values.flatMap wire ∧
      t.buf.rpos = s.buf.rpos ∧
      ∃ read u, getValues values { t with buf := { t.buf with rpos := s.buf.len } } = .ok read u ∧
        List.Forall₂ Matches values read ∧ contents u.buf = contents t.buf ∧ u.buf.len = t.buf.len ∧
        u.buf.rpos = t.buf.len := by
  obtain ⟨chunks, written, bytes⟩ := putValues_chunks values
  rw [← bytes] at room
  rcases putAll_cases sound (requestsBelow_of_total sound room) with ⟨t, finished, extended, -⟩ | ⟨scarce, -⟩
  swap
  · exact absurd plenty scarce
  rw [bytes] at extended
  have length := extended.len
  have positioned : Sound { t.buf with rpos := s.buf.len } :=
    ⟨extended.sound.block, extended.sound.fits, by change s.buf.len ≤ t.buf.len; omega, extended.sound.word⟩
  have front : unread { t.buf with rpos := s.buf.len } = values.flatMap wire ++ [] := by
    change (contents t.buf).drop s.buf.len = _
    rw [extended.contents, ← sound.length_contents, List.drop_left, List.append_nil]
  obtain ⟨read, heap, returned, same⟩ := getValues_reads (s := { t with buf := { t.buf with rpos := s.buf.len } })
    positioned (extended.plenty plenty) encodable front
  exact ⟨t, by rw [written, finished], extended.contents, extended.rpos, read, _, returned, same, rfl, rfl, length.symm⟩

/-- A number with its first bit set, behind a byte. -/
theorem codec_round_trip_two :
    let fresh : BufState := ⟨[], { data := [], rpos := 0, len := 0, cap := 0 }⟩
    let values : List Value := [.u8 7, .mpint [0, 0x80]]
    ∃ t, putValues values fresh = .ok () t ∧ contents t.buf = contents fresh.buf ++ values.flatMap wire ∧
      t.buf.rpos = fresh.buf.rpos ∧
      ∃ read u, getValues values { t with buf := { t.buf with rpos := fresh.buf.len } } = .ok read u ∧
        List.Forall₂ Matches values read ∧ contents u.buf = contents t.buf ∧ u.buf.len = t.buf.len ∧
        u.buf.rpos = t.buf.len :=
  codec_round_trip _ _ (by decide) (by decide)
    (by
      intro value member
      rcases List.mem_cons.mp member with rfl | member
      · trivial
      · rw [List.mem_singleton] at member
        rw [member]
        change 2 < 2 ^ 32 - 1
        decide) (by decide)

end Coalesce.Codec
