import Coalesce.Library.Keystream
import Mathlib.Data.Vector.Basic

/-! AES (FIPS 197) and counter mode, as aes.c computes them. A context keeps its
keystream offset as a `Fin 16`: the C code only ever stores zero or a value
reduced modulo `AES_BLOCK_SIZE`. -/

namespace Coalesce.Aes
open Library

def AES_BLOCK_SIZE : Nat := 16

abbrev Block := Vector UInt8 16

def SBOX : Array UInt8 := #[
  0x63, 0x7c, 0x77, 0x7b, 0xf2, 0x6b, 0x6f, 0xc5, 0x30, 0x01, 0x67, 0x2b, 0xfe, 0xd7, 0xab, 0x76,
  0xca, 0x82, 0xc9, 0x7d, 0xfa, 0x59, 0x47, 0xf0, 0xad, 0xd4, 0xa2, 0xaf, 0x9c, 0xa4, 0x72, 0xc0,
  0xb7, 0xfd, 0x93, 0x26, 0x36, 0x3f, 0xf7, 0xcc, 0x34, 0xa5, 0xe5, 0xf1, 0x71, 0xd8, 0x31, 0x15,
  0x04, 0xc7, 0x23, 0xc3, 0x18, 0x96, 0x05, 0x9a, 0x07, 0x12, 0x80, 0xe2, 0xeb, 0x27, 0xb2, 0x75,
  0x09, 0x83, 0x2c, 0x1a, 0x1b, 0x6e, 0x5a, 0xa0, 0x52, 0x3b, 0xd6, 0xb3, 0x29, 0xe3, 0x2f, 0x84,
  0x53, 0xd1, 0x00, 0xed, 0x20, 0xfc, 0xb1, 0x5b, 0x6a, 0xcb, 0xbe, 0x39, 0x4a, 0x4c, 0x58, 0xcf,
  0xd0, 0xef, 0xaa, 0xfb, 0x43, 0x4d, 0x33, 0x85, 0x45, 0xf9, 0x02, 0x7f, 0x50, 0x3c, 0x9f, 0xa8,
  0x51, 0xa3, 0x40, 0x8f, 0x92, 0x9d, 0x38, 0xf5, 0xbc, 0xb6, 0xda, 0x21, 0x10, 0xff, 0xf3, 0xd2,
  0xcd, 0x0c, 0x13, 0xec, 0x5f, 0x97, 0x44, 0x17, 0xc4, 0xa7, 0x7e, 0x3d, 0x64, 0x5d, 0x19, 0x73,
  0x60, 0x81, 0x4f, 0xdc, 0x22, 0x2a, 0x90, 0x88, 0x46, 0xee, 0xb8, 0x14, 0xde, 0x5e, 0x0b, 0xdb,
  0xe0, 0x32, 0x3a, 0x0a, 0x49, 0x06, 0x24, 0x5c, 0xc2, 0xd3, 0xac, 0x62, 0x91, 0x95, 0xe4, 0x79,
  0xe7, 0xc8, 0x37, 0x6d, 0x8d, 0xd5, 0x4e, 0xa9, 0x6c, 0x56, 0xf4, 0xea, 0x65, 0x7a, 0xae, 0x08,
  0xba, 0x78, 0x25, 0x2e, 0x1c, 0xa6, 0xb4, 0xc6, 0xe8, 0xdd, 0x74, 0x1f, 0x4b, 0xbd, 0x8b, 0x8a,
  0x70, 0x3e, 0xb5, 0x66, 0x48, 0x03, 0xf6, 0x0e, 0x61, 0x35, 0x57, 0xb9, 0x86, 0xc1, 0x1d, 0x9e,
  0xe1, 0xf8, 0x98, 0x11, 0x69, 0xd9, 0x8e, 0x94, 0x9b, 0x1e, 0x87, 0xe9, 0xce, 0x55, 0x28, 0xdf,
  0x8c, 0xa1, 0x89, 0x0d, 0xbf, 0xe6, 0x42, 0x68, 0x41, 0x99, 0x2d, 0x0f, 0xb0, 0x54, 0xbb, 0x16]

def RCON : Array UInt8 := #[0x00, 0x01, 0x02, 0x04, 0x08, 0x10, 0x20, 0x40, 0x80, 0x1b, 0x36]

/-- `aes_ctx_t`: `4 * (AES_MAX_ROUNDS + 1)` round-key words. -/
structure AesCtx where
  rk : Vector UInt32 60
  rounds : Nat
  deriving DecidableEq, Repr

structure AesCtrCtx where
  aes : AesCtx
  nonceCounter : Block
  stream : Block
  streamOffset : Fin 16
  deriving DecidableEq, Repr

def ROTWORD (w : UInt32) : UInt32 := (w <<< 8) ||| (w >>> 24)

def sbox (x : UInt8) : UInt8 := SBOX.getD x.toNat 0

def SUBWORD (w : UInt32) : UInt32 :=
  ((sbox (w >>> 24).toUInt8).toUInt32 <<< 24) ||| ((sbox (w >>> 16).toUInt8).toUInt32 <<< 16) |||
    ((sbox (w >>> 8).toUInt8).toUInt32 <<< 8) ||| (sbox w.toUInt8).toUInt32

/-- Key length in words and number of rounds. -/
def keySchedule (keyBits : Nat) : Option (Nat × Nat) :=
  match keyBits with
  | 128 => some (4, 10)
  | 192 => some (6, 12)
  | 256 => some (8, 14)
  | _ => none

def keyWord (key : List UInt8) (i : Nat) : UInt32 :=
  ((key.getD (4 * i) 0).toUInt32 <<< 24) ||| ((key.getD (4 * i + 1) 0).toUInt32 <<< 16) |||
    ((key.getD (4 * i + 2) 0).toUInt32 <<< 8) ||| (key.getD (4 * i + 3) 0).toUInt32

/-- The word that is added to `rk[i - nk]`. -/
def expandTemp (nk i : Nat) (temp : UInt32) : UInt32 :=
  if i % nk = 0 then SUBWORD (ROTWORD temp) ^^^ ((RCON.getD (i / nk) 0).toUInt32 <<< 24)
  else if nk > 6 ∧ i % nk = 4 then SUBWORD temp
  else temp

def expandStep (nk : Nat) (rk : Vector UInt32 60) (i : Nat) : Vector UInt32 60 :=
  rk.setIfInBounds i (rk.getD (i - nk) 0 ^^^ expandTemp nk i (rk.getD (i - 1) 0))

/-- `none` stands for the code -1; the context is untouched then. -/
def aesSetEncryptKey (ctx : AesCtx) (key : List UInt8) (keyBits : Nat) : Option AesCtx :=
  match keySchedule keyBits with
  | none => none
  | some (nk, rounds) =>
      let total := 4 * (rounds + 1)
      let loaded := (List.range nk).foldl (fun rk i => rk.setIfInBounds i (keyWord key i)) ctx.rk
      some ⟨(List.range' nk (total - nk)).foldl (expandStep nk) loaded, rounds⟩

/-- Adds the four round-key words from `first` on, column by column. -/
def addRoundKey (s : Block) (rk : Vector UInt32 60) (first : Nat) : Block :=
  Vector.ofFn fun i : Fin 16 =>
    s[i] ^^^ (rk.getD (first + i.val / 4) 0 >>> (24 - 8 * UInt32.ofNat (i.val % 4))).toUInt8

def subBytes (s : Block) : Block := s.map sbox

/-- Row `r` of the column-major state moves left by `r`. -/
def shiftRows (s : Block) : Block :=
  #v[s[0], s[5], s[10], s[15], s[4], s[9], s[14], s[3],
    s[8], s[13], s[2], s[7], s[12], s[1], s[6], s[11]]

def xtime (x : UInt8) : UInt8 := (x <<< 1) ^^^ (if x &&& 0x80 ≠ 0 then 0x1b else 0x00)

/-- One column: `p[r] ^= all ^ xtime(a[r] ^ a[r + 1])`. -/
def mixColumn (a0 a1 a2 a3 : UInt8) : Vector UInt8 4 :=
  let all := a0 ^^^ a1 ^^^ a2 ^^^ a3
  #v[a0 ^^^ (all ^^^ xtime (a0 ^^^ a1)), a1 ^^^ (all ^^^ xtime (a1 ^^^ a2)),
    a2 ^^^ (all ^^^ xtime (a2 ^^^ a3)), a3 ^^^ (all ^^^ xtime (a3 ^^^ a0))]

def mixColumns (s : Block) : Block :=
  mixColumn s[0] s[1] s[2] s[3] ++ mixColumn s[4] s[5] s[6] s[7] ++
    mixColumn s[8] s[9] s[10] s[11] ++ mixColumn s[12] s[13] s[14] s[15]

def aesRound (rk : Vector UInt32 60) (s : Block) (r : Nat) : Block :=
  addRoundKey (mixColumns (shiftRows (subBytes s))) rk (4 * r)

def aesEncryptBlock (ctx : AesCtx) (input : Block) : Block :=
  let s := addRoundKey input ctx.rk 0
  let s := (List.range' 1 (ctx.rounds - 1)).foldl (aesRound ctx.rk) s
  addRoundKey (shiftRows (subBytes s)) ctx.rk (4 * ctx.rounds)

/-- Adds one at byte `i` and carries towards byte 0 while a byte wraps to zero. -/
def ctrCarry (ctr : Block) : Nat → Block
  | 0 => ctr
  | i + 1 =>
      let bumped := ctr.getD i 0 + 1
      let ctr := ctr.setIfInBounds i bumped
      if bumped ≠ 0 then ctr else ctrCarry ctr i

def ctrIncrement (ctr : Block) : Block := ctrCarry ctr 16

def aesCtrZero : AesCtrCtx :=
  ⟨⟨Vector.replicate 60 0, 0⟩, Vector.replicate 16 0, Vector.replicate 16 0, 0⟩

/-- `iv` points to 16 bytes. The result pairs the code with the context, which
is cleared even when the key size is refused. -/
def aesCtrInit (key : List UInt8) (keyBits : Nat) (iv : List UInt8) : Bool × AesCtrCtx :=
  match aesSetEncryptKey aesCtrZero.aes key keyBits with
  | none => (false, aesCtrZero)
  | some aes => (true, { aesCtrZero with aes := aes, nonceCounter := Vector.ofFn fun i : Fin 16 => iv.getD i.val 0 })

/-- A fresh keystream block, when none is in use. -/
def refill (ctx : AesCtrCtx) : AesCtrCtx :=
  if ctx.streamOffset = 0 then
    { ctx with stream := aesEncryptBlock ctx.aes ctx.nonceCounter, nonceCounter := ctrIncrement ctx.nonceCounter }
  else ctx

/-- Each pass uses what is left of the current keystream block. -/
def aesCtrCrypt (ctx : AesCtrCtx) (data : List UInt8) : List UInt8 × AesCtrCtx :=
  if _empty : data = [] then ([], ctx)
  else
    let ctx := refill ctx
    let take := min (AES_BLOCK_SIZE - ctx.streamOffset.val) data.length
    let head := List.zipWith (· ^^^ ·) (data.take take) (ctx.stream.toList.drop ctx.streamOffset.val)
    let rest := aesCtrCrypt { ctx with streamOffset := Fin.ofNat 16 (ctx.streamOffset.val + take) } (data.drop take)
    (head ++ rest.1, rest.2)
termination_by data.length
decreasing_by
  have positive := List.length_pos_iff.mpr _empty
  have _offset := (refill ctx).streamOffset.isLt
  simp only [List.length_drop, AES_BLOCK_SIZE]
  omega

/-! CTR mode as a stream: the code fills whole blocks, the stream below moves
byte by byte. -/

def ctrKey (ctx : AesCtrCtx) : UInt8 := (refill ctx).stream.get ctx.streamOffset

def ctrNext (ctx : AesCtrCtx) : AesCtrCtx := { refill ctx with streamOffset := ctx.streamOffset + 1 }

@[simp] theorem refill_streamOffset (ctx : AesCtrCtx) : (refill ctx).streamOffset = ctx.streamOffset := by
  unfold refill
  split <;> rfl

theorem refill_of_ne_zero {ctx : AesCtrCtx} (inside : ctx.streamOffset ≠ 0) : refill ctx = ctx := by
  rw [refill, if_neg inside]

private theorem drop_stream (stream : Block) (offset : Fin 16) :
    stream.toList.drop offset.val = stream.get offset :: stream.toList.drop (offset.val + 1) := by
  rw [List.drop_eq_getElem_cons (by simp)]
  rfl

/-- One pass of the loop of `aes_ctr_crypt`: only its first byte can draw fresh keystream. -/
theorem crypt_pass (ctx : AesCtrCtx) (bytes : List UInt8)
    (fits : ctx.streamOffset.val + bytes.length ≤ 16) (work : bytes ≠ []) :
    Keystream.crypt ctrKey ctrNext ctx bytes =
      (List.zipWith (· ^^^ ·) bytes ((refill ctx).stream.toList.drop ctx.streamOffset.val),
        { refill ctx with streamOffset := Fin.ofNat 16 (ctx.streamOffset.val + bytes.length) }) := by
  induction bytes generalizing ctx with
  | nil => exact absurd rfl work
  | cons byte bytes ih =>
    rw [List.length_cons] at fits
    rw [Keystream.crypt, drop_stream, List.zipWith_cons_cons]
    rcases bytes with _ | ⟨second, bytes⟩
    · simp [ctrKey, ctrNext, Fin.ext_iff, Fin.val_add]
    · rw [List.length_cons] at fits
      have moved : (ctx.streamOffset + 1).val = ctx.streamOffset.val + 1 := by
        rw [Fin.val_add, Fin.val_one]
        omega
      have inside : (ctrNext ctx).streamOffset ≠ 0 := by
        rw [ne_eq, Fin.ext_iff, ctrNext, moved]
        simp
      have room : (ctrNext ctx).streamOffset.val + (second :: bytes).length ≤ 16 := by
        rw [ctrNext, moved, List.length_cons]
        omega
      rw [ih (ctrNext ctx) room (List.cons_ne_nil _ _), refill_of_ne_zero inside]
      simp only [ctrKey, ctrNext, moved, List.length_cons, Nat.add_assoc, Nat.add_comm 1]

/-- Block by block or byte by byte, the keystream is the same. -/
theorem aesCtrCrypt_eq (ctx : AesCtrCtx) (data : List UInt8) :
    aesCtrCrypt ctx data = Keystream.crypt ctrKey ctrNext ctx data := by
  induction ctx, data using aesCtrCrypt.induct with
  | case1 ctx => simp [aesCtrCrypt]
  | case2 ctx data work refilled take ih =>
    have positive := List.length_pos_iff.mpr work
    have offset := ctx.streamOffset.isLt
    have same : refilled.streamOffset = ctx.streamOffset := refill_streamOffset ctx
    have room : take ≤ 16 - ctx.streamOffset.val := by
      simp only [take, same, AES_BLOCK_SIZE]
      exact Nat.min_le_left _ _
    have nonempty : 0 < take := by
      simp only [take, same, AES_BLOCK_SIZE]
      omega
    have taken : (data.take take).length = take := by
      rw [List.length_take, Nat.min_eq_left (Nat.min_le_right _ _)]
    have pass := crypt_pass ctx (data.take take) (by omega)
      (List.length_pos_iff.mp (by rw [taken]; exact nonempty))
    rw [taken, ← same] at pass
    conv_rhs => rw [← List.take_append_drop take data, Keystream.crypt_append, pass]
    rw [← ih, aesCtrCrypt, dif_neg work]

theorem aesCtrCrypt_append (ctx : AesCtrCtx) (first second : List UInt8) :
    aesCtrCrypt ctx (first ++ second) =
      ((aesCtrCrypt ctx first).1 ++ (aesCtrCrypt (aesCtrCrypt ctx first).2 second).1,
        (aesCtrCrypt (aesCtrCrypt ctx first).2 second).2) := by
  simp only [aesCtrCrypt_eq, Keystream.crypt_append]

@[simp] theorem aesCtrCrypt_length (ctx : AesCtrCtx) (data : List UInt8) :
    (aesCtrCrypt ctx data).1.length = data.length := by
  rw [aesCtrCrypt_eq, Keystream.crypt_length]

/-- Decryption is encryption from the same state. -/
theorem aesCtrCrypt_crypt (ctx : AesCtrCtx) (data : List UInt8) :
    (aesCtrCrypt ctx (aesCtrCrypt ctx data).1).1 = data := by
  simp only [aesCtrCrypt_eq, Keystream.crypt_crypt]

theorem aesCtrCrypt_state (ctx : AesCtrCtx) (data : List UInt8) :
    (aesCtrCrypt ctx data).2 = ctrNext^[data.length] ctx := by
  rw [aesCtrCrypt_eq, Keystream.crypt_state]

end Coalesce.Aes
