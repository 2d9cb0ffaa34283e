import Coalesce.Buffer
import Mathlib.Data.List.GetD

/-! base64.c. A buffer is the memory behind a pointer, past its capacity too; `none` stands
for NULL. A result `none` is one that C leaves open: an `int` that overflows, or a size
that does not fit when it is returned as an `int`. -/

namespace Coalesce.Base64
open Buffer

def INT_MAX : ℕ := 2 ^ 31 - 1

abbrev Memory := ℕ → UInt8

def B64_ALPHA : List UInt8 :=
  "ABCDEFGHIJKLMNOPQRSTUVWXYZabcdefghijklmnopqrstuvwxyz0123456789+/".toList.map fun c => UInt8.ofNat c.toNat

/-- `=` -/
def PAD : UInt8 := 61

/-- `return (int)o;` -/
def returnSize (o : ℕ) : Option Int := if o ≤ INT_MAX then some o else none

theorem returnSize_fits {o : ℕ} (small : o ≤ INT_MAX) : returnSize o = some (o : Int) := if_pos small

/-- `dst` and `o` -/
structure Output where
  mem : Memory
  o : ℕ

/-- `dst[o++] = c;` -/
def put (out : Output) (c : UInt8) : Output := ⟨Function.update out.mem out.o c, out.o + 1⟩

/-- `B64_ALPHA[(v >> shift) & 0x3F]` -/
def sextet (v shift : UInt32) : UInt8 := B64_ALPHA.getD ((v >>> shift) &&& 0x3F).toNat 0

/-- The bytes from `src[i]` on: three at a time, then what is left. -/
def encodeLoop (out : Output) : List UInt8 → Output
  | [] => out
  | [a] =>
      let v := a.toUInt32 <<< 16
      put (put (put (put out (sextet v 18)) (sextet v 12)) PAD) PAD
  | [a, b] =>
      let v := (a.toUInt32 <<< 16) ||| (b.toUInt32 <<< 8)
      put (put (put (put out (sextet v 18)) (sextet v 12)) (sextet v 6)) PAD
  | a :: b :: c :: rest =>
      let v := (a.toUInt32 <<< 16) ||| (b.toUInt32 <<< 8) ||| c.toUInt32
      encodeLoop (put (put (put (put out (sextet v 18)) (sextet v 12)) (sextet v 6)) (sextet v 0)) rest

def base64Encode (dst : Option Memory) (dstCap : ℕ) (src : Option (List UInt8)) : Option Int × Option Memory :=
  match dst, src with
  | some mem, some src =>
      let need := (src.length + 2) % SIZE_MAX_SUCC / 3 * 4 % SIZE_MAX_SUCC
      if (need + 1) % SIZE_MAX_SUCC > dstCap then (some (-1), dst)
      else
        let out := encodeLoop ⟨mem, 0⟩ src
        (returnSize out.o, some (Function.update out.mem out.o 0))
  | _, _ => (some (-1), dst)

def b64Val (c : UInt8) : Int :=
  if c ≥ 65 ∧ c ≤ 90 then c.toNat - 65
  else if c ≥ 97 ∧ c ≤ 122 then c.toNat - 97 + 26
  else if c ≥ 48 ∧ c ≤ 57 then c.toNat - 48 + 52
  else if c = 43 then 62
  else if c = 47 then 63
  else -1

structure Decoder where
  out : Output
  acc : UInt32
  bits : ℕ
  pad : ℕ

/-- Behind the last character. -/
def finish (s : Decoder) : Option Int × Memory :=
  if s.bits ≥ 6 then (some (-1), s.out.mem)
  else if s.pad > 2 then (some (-1), s.out.mem)
  else (returnSize s.out.o, s.out.mem)

/-- One character of the alphabet. -/
def accept (s : Decoder) (v : UInt32) : Decoder := { s with acc := (s.acc <<< 6) ||| v, bits := s.bits + 6 }

/-- The upper eight of the bits that are there go to `dst`. -/
def emit (s : Decoder) : Decoder :=
  let bits := s.bits - 8
  { s with bits := bits, out := put s.out ((s.acc >>> UInt32.ofNat bits) &&& 0xFF).toUInt8 }

/-- The characters from `p` on; a NUL ends them. -/
def decodeLoop (dstCap : ℕ) (s : Decoder) : List UInt8 → Option Int × Memory
  | [] => finish s
  | c :: src =>
      if c = 0 then finish s
      else if c = 10 ∨ c = 13 then decodeLoop dstCap s src
      else if c = PAD then
        if s.pad < INT_MAX then decodeLoop dstCap { s with pad := s.pad + 1 } src else (none, s.out.mem)
      else if b64Val c < 0 then (some (-1), s.out.mem)
      else if s.pad ≠ 0 then (some (-1), s.out.mem)
      else
        let s := accept s (UInt32.ofNat (b64Val c).toNat)
        if s.bits ≥ 8 then
          if s.out.o ≥ dstCap then (some (-1), s.out.mem) else decodeLoop dstCap (emit s) src
        else decodeLoop dstCap s src

def base64Decode (dst : Option Memory) (dstCap : ℕ) (src : Option (List UInt8)) : Option Int × Option Memory :=
  match dst, src with
  | some mem, some src =>
      let done := decodeLoop dstCap ⟨⟨mem, 0⟩, 0, 0, 0⟩ src
      (done.1, some done.2)
  | _, _ => (some (-1), dst)

/-! What is written. -/

/-- The bytes stand at the start of the memory, nothing else has changed. -/
def written (mem : Memory) (bytes : List UInt8) : Memory := fun k => if k < bytes.length then bytes.getD k 0 else mem k

def outputOf (mem : Memory) (bytes : List UInt8) : Output := ⟨written mem bytes, bytes.length⟩

theorem update_written (mem : Memory) (bytes : List UInt8) (c : UInt8) :
    Function.update (written mem bytes) bytes.length c = written mem (bytes ++ [c]) := by
  funext k
  rw [Function.update_apply, written, written, List.length_append, List.length_singleton]
  rcases Nat.lt_trichotomy k bytes.length with before | here | behind
  · rw [if_neg (Nat.ne_of_lt before), if_pos before, if_pos (Nat.lt_succ_of_lt before), List.getD_append _ _ _ _ before]
  · rw [if_pos here, if_pos (by omega), here, List.getD_append_right _ _ _ _ (Nat.le_refl _), Nat.sub_self]
    rfl
  · rw [if_neg (by omega), if_neg (by omega), if_neg (by omega)]

theorem put_outputOf (mem : Memory) (bytes : List UInt8) (c : UInt8) :
    put (outputOf mem bytes) c = outputOf mem (bytes ++ [c]) := by
  rw [put, outputOf, update_written, outputOf, List.length_append, List.length_singleton]

/-! The alphabet. -/

theorem b64Val_alphabet (v : Fin 64) : b64Val (B64_ALPHA.getD v.val 0) = v.val := by
  revert v
  decide +kernel

theorem alphabet_length : B64_ALPHA.length = 64 := by decide

theorem alphabet_at_b64Val (c : UInt8) : b64Val c < 0 ∨ B64_ALPHA.getD (b64Val c).toNat 0 = c := by
  obtain ⟨⟨c⟩⟩ := c
  revert c
  decide +kernel

theorem b64Val_lt (c : UInt8) : b64Val c < 64 := by
  unfold b64Val
  split_ifs <;> simp only [UInt8.le_iff_toNat_le, ge_iff_le] at * <;> simp at * <;> omega

theorem b64Val_nonneg {c : UInt8} (member : c ∈ B64_ALPHA) : 0 ≤ b64Val c := by
  obtain ⟨i, inside, same⟩ := List.getElem_of_mem member
  have value := b64Val_alphabet ⟨i, by rwa [alphabet_length] at inside⟩
  rw [List.getD_eq_getElem _ _ inside, same] at value
  rw [value]
  exact Int.natCast_nonneg i

theorem mem_alphabet {c : UInt8} (value : 0 ≤ b64Val c) : c ∈ B64_ALPHA := by
  have limit := b64Val_lt c
  have inside : (b64Val c).toNat < B64_ALPHA.length := by
    rw [alphabet_length]
    omega
  have entry := (alphabet_at_b64Val c).resolve_left (Int.not_lt.mpr value)
  rw [List.getD_eq_getElem?_getD, List.getElem?_eq_getElem inside, Option.getD_some] at entry
  rw [← entry]
  exact List.getElem_mem inside

theorem alphabet_ne {c : UInt8} (member : c ∈ B64_ALPHA) : c ≠ 0 ∧ ¬(c = 10 ∨ c = 13) ∧ c ≠ PAD := by
  have value := b64Val_nonneg member
  have outside {d : UInt8} (other : b64Val d = -1) : c ≠ d := by
    intro same
    rw [same, other] at value
    omega
  have lf := outside (d := 10) (by decide)
  have cr := outside (d := 13) (by decide)
  exact ⟨outside (by decide), not_or.mpr ⟨lf, cr⟩, outside (by decide)⟩

/-! One character. -/

section
variable {dstCap : ℕ} {s : Decoder} {c : UInt8} {src : List UInt8}

theorem decodeLoop_nul : decodeLoop dstCap s (0 :: src) = finish s := if_pos rfl

theorem decodeLoop_break (breaks : c = 10 ∨ c = 13) : decodeLoop dstCap s (c :: src) = decodeLoop dstCap s src := by
  have inside : c ≠ 0 := by
    rcases breaks with lf | cr
    · rw [lf]
      decide
    · rw [cr]
      decide
  change ite _ _ _ = _
  rw [if_neg inside, if_pos breaks]

theorem decodeLoop_pad (room : s.pad < INT_MAX) :
    decodeLoop dstCap s (PAD :: src) = decodeLoop dstCap { s with pad := s.pad + 1 } src := by
  change ite _ _ _ = _
  rw [if_neg (by decide), if_neg (by decide), if_pos rfl, if_pos room]

theorem decodeLoop_pad_overflow (full : ¬s.pad < INT_MAX) : decodeLoop dstCap s (PAD :: src) = (none, s.out.mem) := by
  change ite _ _ _ = _
  rw [if_neg (by decide), if_neg (by decide), if_pos rfl, if_neg full]

theorem decodeLoop_other (inside : c ≠ 0) (whole : ¬(c = 10 ∨ c = 13)) (data : c ≠ PAD) (wrong : c ∉ B64_ALPHA ∨ s.pad ≠ 0) :
    decodeLoop dstCap s (c :: src) = (some (-1), s.out.mem) := by
  change ite _ _ _ = _
  rw [if_neg inside, if_neg whole, if_neg data]
  by_cases value : b64Val c < 0
  · rw [if_pos value]
  · have member := mem_alphabet (Int.not_lt.mp value)
    rw [if_neg value, if_pos (wrong.resolve_left (not_not.mpr member))]

theorem decodeLoop_digit (member : c ∈ B64_ALPHA) (data : s.pad = 0) : decodeLoop dstCap s (c :: src) =
    if s.bits + 6 ≥ 8 then
      if s.out.o ≥ dstCap then (some (-1), s.out.mem)
      else decodeLoop dstCap (emit (accept s (UInt32.ofNat (b64Val c).toNat))) src
    else decodeLoop dstCap (accept s (UInt32.ofNat (b64Val c).toNat)) src := by
  obtain ⟨inside, whole, other⟩ := alphabet_ne member
  change ite _ _ _ = _
  rw [if_neg inside, if_neg whole, if_neg other, if_neg (Int.not_lt.mpr (b64Val_nonneg member)), if_neg (not_not.mpr data)]
  rfl

end

end Coalesce.Base64
