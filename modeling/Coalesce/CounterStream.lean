import Coalesce.CounterMode
import Coalesce.AesStandard

/-! `aes_ctr_crypt` on memory. The bytes it reads and the bytes it writes may be the same
ones; a stream may be cut into calls in any way. -/

namespace Coalesce.CounterStream
open Library Aes AesStandard CounterMode

/-- `count` bytes from an address on. -/
def bytesAt (mem : ℕ → UInt8) (start count : ℕ) : List UInt8 := (List.range count).map fun k => mem (start + k)

/-- `for (k = 0; k < take; k++) out[i + k] = in[i + k] ^ stream[stream_offset + k];` -/
def xorBytes (stream : Block) (offset src dst : ℕ) (mem : ℕ → UInt8) (take : ℕ) : ℕ → UInt8 :=
  (List.range take).foldl
    (fun mem k => Function.update mem (dst + k) (mem (src + k) ^^^ stream.toList.getD (offset + k) 0)) mem

/-- The loop from `i` on. -/
def cryptLoop (src dst len i : ℕ) (ctx : AesCtrCtx) (mem : ℕ → UInt8) : AesCtrCtx × (ℕ → UInt8) :=
  if _more : i < len then
    let ctx := refill ctx
    let take := min (AES_BLOCK_SIZE - ctx.streamOffset.val) (len - i)
    let mem := xorBytes ctx.stream ctx.streamOffset.val (src + i) (dst + i) mem take
    cryptLoop src dst len (i + take) { ctx with streamOffset := Fin.ofNat 16 (ctx.streamOffset.val + take) } mem
  else (ctx, mem)
termination_by len - i
decreasing_by
  have _offset := (refill ctx).streamOffset.isLt
  simp only [AES_BLOCK_SIZE]
  omega

def aesCtrCryptAt (ctx : AesCtrCtx) (mem : ℕ → UInt8) (src dst len : ℕ) : AesCtrCtx × (ℕ → UInt8) :=
  cryptLoop src dst len 0 ctx mem

/-! One call. -/

theorem bytesAt_length (mem : ℕ → UInt8) (start count : ℕ) : (bytesAt mem start count).length = count := by
  rw [bytesAt, List.length_map, List.length_range]

theorem bytesAt_append (mem : ℕ → UInt8) (start first second : ℕ) :
    bytesAt mem start (first + second) = bytesAt mem start first ++ bytesAt mem (start + first) second := by
  rw [bytesAt, List.range_add, List.map_append, List.map_map]
  congr 1
  apply List.map_congr_left
  intro k _
  rw [Function.comp_apply, Nat.add_assoc]

theorem bytesAt_cut (mem : ℕ → UInt8) (start : ℕ) {count take : ℕ} (fits : take ≤ count) :
    (bytesAt mem start count).take take = bytesAt mem start take ∧
      (bytesAt mem start count).drop take = bytesAt mem (start + take) (count - take) := by
  have split : bytesAt mem start count = bytesAt mem start take ++ bytesAt mem (start + take) (count - take) := by
    rw [← bytesAt_append, Nat.add_sub_cancel' fits]
  rw [split]
  exact ⟨List.take_left' (bytesAt_length _ _ _), List.drop_left' (bytesAt_length _ _ _)⟩

theorem bytesAt_congr {mem mem' : ℕ → UInt8} {start count : ℕ} (same : ∀ k < count, mem (start + k) = mem' (start + k)) :
    bytesAt mem start count = bytesAt mem' start count := by
  apply List.map_congr_left
  intro k inside
  exact same k (List.mem_range.mp inside)

/-- Writing does not get ahead of reading: the result lies at or below the input, or behind it. -/
theorem xorBytes_apply {stream : Block} {offset src dst take : ℕ} {mem : ℕ → UInt8}
    (apart : dst ≤ src ∨ src + take ≤ dst) (a : ℕ) :
    xorBytes stream offset src dst mem take a =
      if dst ≤ a ∧ a < dst + take then mem (src + (a - dst)) ^^^ stream.toList.getD (offset + (a - dst)) 0 else mem a := by
  induction take generalizing a with
  | zero =>
    rw [if_neg (by omega)]
    rfl
  | succ take ih =>
    have before := ih (by omega)
    rw [xorBytes, List.range_succ, List.foldl_append]
    change Function.update (xorBytes stream offset src dst mem take) (dst + take)
      (xorBytes stream offset src dst mem take (src + take) ^^^ stream.toList.getD (offset + take) 0) a = _
    rw [Function.update_apply, before, before]
    by_cases last : a = dst + take
    · rw [if_pos last, if_neg (by omega), if_pos (by omega), last, Nat.add_sub_cancel_left]
    · rw [if_neg last]
      by_cases inside : dst ≤ a ∧ a < dst + take
      · rw [if_pos inside, if_pos (by omega)]
      · rw [if_neg inside, if_neg (by omega)]

theorem xorBytes_outside {stream : Block} {offset src dst take : ℕ} {mem : ℕ → UInt8}
    (apart : dst ≤ src ∨ src + take ≤ dst) {a : ℕ} (outside : a < dst ∨ dst + take ≤ a) :
    xorBytes stream offset src dst mem take a = mem a := by
  rw [xorBytes_apply apart, if_neg (by omega)]

theorem xorBytes_written {stream : Block} {offset src dst take : ℕ} {mem : ℕ → UInt8}
    (apart : dst ≤ src ∨ src + take ≤ dst) (room : offset + take ≤ 16) :
    bytesAt (xorBytes stream offset src dst mem take) dst take =
      List.zipWith (· ^^^ ·) (bytesAt mem src take) (stream.toList.drop offset) := by
  apply List.ext_getElem
  · rw [bytesAt_length, List.length_zipWith, bytesAt_length, List.length_drop, Vector.length_toList]
    omega
  · intro k inside inside'
    rw [bytesAt_length] at inside
    simp only [bytesAt, List.getElem_map, List.getElem_range, List.getElem_zipWith, List.getElem_drop]
    rw [xorBytes_apply apart, if_pos (by omega), Nat.add_sub_cancel_left, List.getD_eq_getElem?_getD,
      List.getElem?_eq_getElem (by rw [Vector.length_toList]; omega)]
    rfl

theorem crypt_work {ctx : AesCtrCtx} {data : List UInt8} (work : data ≠ []) {take : ℕ}
    (taken : take = min (AES_BLOCK_SIZE - (refill ctx).streamOffset.val) data.length) :
    aesCtrCrypt ctx data =
      let rest := aesCtrCrypt { refill ctx with streamOffset := Fin.ofNat 16 ((refill ctx).streamOffset.val + take) } (data.drop take)
      (List.zipWith (· ^^^ ·) (data.take take) ((refill ctx).stream.toList.drop (refill ctx).streamOffset.val) ++ rest.1, rest.2) := by
  rw [taken, aesCtrCrypt, dif_neg work]

/-- From `i` on the loop does what the stream cipher does, and nothing outside of `out`. -/
theorem cryptLoop_eq {src dst len i : ℕ} {ctx : AesCtrCtx} {mem : ℕ → UInt8} (apart : dst ≤ src ∨ src + len ≤ dst)
    (inside : i ≤ len) :
    (cryptLoop src dst len i ctx mem).1 = (aesCtrCrypt ctx (bytesAt mem (src + i) (len - i))).2 ∧
      bytesAt (cryptLoop src dst len i ctx mem).2 (dst + i) (len - i) =
        (aesCtrCrypt ctx (bytesAt mem (src + i) (len - i))).1 ∧
      ∀ a, a < dst + i ∨ dst + len ≤ a → (cryptLoop src dst len i ctx mem).2 a = mem a := by
  induction i, ctx, mem using cryptLoop.induct src dst len with
  | case1 i ctx mem more refilled take mem' ih =>
    have offset := refilled.streamOffset.isLt
    have room : take ≤ 16 - refilled.streamOffset.val := Nat.min_le_left _ _
    have left : take ≤ len - i := Nat.min_le_right _ _
    have step : cryptLoop src dst len i ctx mem = cryptLoop src dst len (i + take)
        { refilled with streamOffset := Fin.ofNat 16 (refilled.streamOffset.val + take) } mem' := by
      rw [cryptLoop, dif_pos more]
    have length : (bytesAt mem (src + i) (len - i)).length = len - i := bytesAt_length _ _ _
    obtain ⟨front, back⟩ := bytesAt_cut mem (src + i) left
    rw [Nat.add_assoc, Nat.sub_sub] at back
    have written := @xorBytes_written refilled.stream refilled.streamOffset.val (src + i) (dst + i) take mem (by omega) (by omega)
    have same (a : ℕ) (out : a < dst + i ∨ dst + i + take ≤ a) : mem' a = mem a := by
      apply xorBytes_outside
      · omega
      · exact out
    have unread : bytesAt mem' (src + (i + take)) (len - (i + take)) = bytesAt mem (src + (i + take)) (len - (i + take)) := by
      apply bytesAt_congr
      intro k within
      exact same _ (by omega)
    have work : bytesAt mem (src + i) (len - i) ≠ [] := by
      rw [← List.length_pos_iff, length]
      omega
    have crypt := @crypt_work ctx _ work take (by rw [length])
    obtain ⟨state, rest, untouched⟩ := ih (by omega)
    rw [unread] at state rest
    rw [front, back] at crypt
    rw [step, crypt]
    refine ⟨state, ?_, ?_⟩
    · have head : bytesAt (cryptLoop src dst len (i + take)
          { refilled with streamOffset := Fin.ofNat 16 (refilled.streamOffset.val + take) } mem').2 (dst + i) take =
          bytesAt mem' (dst + i) take := by
        apply bytesAt_congr
        intro k within
        exact untouched _ (by omega)
      rw [show len - i = take + (len - (i + take)) by omega, bytesAt_append, Nat.add_assoc, rest, head]
      exact congrArg (· ++ _) written
    · intro a out
      rw [untouched a (by omega)]
      exact same a (by omega)
  | case2 i ctx mem last =>
    have nothing : len - i = 0 := by omega
    rw [cryptLoop, dif_neg last, nothing]
    exact ⟨by simp [bytesAt, aesCtrCrypt], by simp [bytesAt, aesCtrCrypt], fun _ _ => rfl⟩

/-! Any number of calls. -/

/-- What `aes_ctr_crypt` is called with, and the memory it finds. In place `src` is `dst`. -/
structure CryptCall where
  mem : ℕ → UInt8
  src : ℕ
  dst : ℕ
  len : ℕ
  apart : dst ≤ src ∨ src + len ≤ dst

def CryptCall.input (call : CryptCall) : List UInt8 := bytesAt call.mem call.src call.len

/-- The bytes of all calls. -/
def dataOf (calls : List CryptCall) : List UInt8 := (calls.map CryptCall.input).flatten

/-- The bytes that the calls leave behind, and the context after the last one. -/
def cryptCalls (ctx : AesCtrCtx) : List CryptCall → List UInt8 × AesCtrCtx
  | [] => ([], ctx)
  | call :: calls =>
    let done := aesCtrCryptAt ctx call.mem call.src call.dst call.len
    let rest := cryptCalls done.1 calls
    (bytesAt done.2 call.dst call.len ++ rest.1, rest.2)

theorem cryptCalls_eq (ctx : AesCtrCtx) (calls : List CryptCall) :
    cryptCalls ctx calls = aesCtrCrypt ctx (dataOf calls) := by
  induction calls generalizing ctx with
  | nil => simp [cryptCalls, dataOf, aesCtrCrypt]
  | cons call calls ih =>
    obtain ⟨state, written, -⟩ := @cryptLoop_eq call.src call.dst call.len 0 ctx call.mem call.apart (Nat.zero_le _)
    have data : dataOf (call :: calls) = call.input ++ dataOf calls := by
      rw [dataOf, List.map_cons, List.flatten_cons]
      rfl
    simp only [Nat.add_zero, Nat.sub_zero] at state written
    rw [cryptCalls, data, aesCtrCrypt_append]
    simp only [ih, aesCtrCryptAt, state, written]
    rfl

/-! From `aes_ctr_init` on. -/

theorem started_set {key : List UInt8} {keyBits : ℕ} {iv : List UInt8} {ctx : AesCtrCtx}
    (started : aesCtrInit key keyBits iv = (true, ctx)) :
    ∃ aes, aesSetEncryptKey aesCtrZero.aes key keyBits = some aes ∧
      ctx = ⟨aes, Vector.ofFn fun i => iv.getD i.val 0, Vector.replicate 16 0, 0⟩ := by
  cases schedule : aesSetEncryptKey aesCtrZero.aes key keyBits with
  | none =>
    rw [aesCtrInit, schedule] at started
    exact absurd (congrArg Prod.fst started) Bool.false_ne_true
  | some aes =>
    rw [aesCtrInit, schedule] at started
    exact ⟨aes, rfl, (congrArg Prod.snd started).symm⟩

theorem started_atBlock {key : List UInt8} {keyBits : ℕ} {iv : Block} {ctx : AesCtrCtx}
    (started : aesCtrInit key keyBits iv.toList = (true, ctx)) : AtBlock ctx.aes iv 0 ctx := by
  have read : (Vector.ofFn fun i : Fin 16 => iv.toList.getD i.val 0) = iv := by
    apply Vector.toList_inj.mp
    exact toList_ofFn_getD Vector.length_toList
  obtain ⟨aes, -, set⟩ := started_set started
  rw [read] at set
  rw [set]
  exact ⟨rfl, (counterAt_zero iv).symm, rfl⟩

/-- The cipher of a context is the one of the key that it was started with. -/
theorem started_cipher {key : List UInt8} {keyBits : ℕ} {iv : List UInt8} {ctx : AesCtrCtx}
    (started : aesCtrInit key keyBits iv = (true, ctx)) :
    ∃ size : Fips197.KeySize, keyBits = 32 * size.words ∧ ∀ block, stateOf (aesEncryptBlock ctx.aes block) =
      Fips197.cipher size (Fips197.keyExpansion size (keyWords key)) (stateOf block) := by
  obtain ⟨aes, schedule, set⟩ := started_set started
  obtain ⟨size, bits, rounds, expanded⟩ := expanded_of_set schedule
  rw [set]
  exact ⟨size, bits, stateOf_aesEncryptBlock rounds expanded⟩

/-- Byte `i` of the keystream is byte `i % 16` of block `i / 16`. -/
theorem keystream_getD {aes : AesCtx} {iv : Block} {ctx : AesCtrCtx} (start : AtBlock aes iv 0 ctx) (i : ℕ) :
    ctrKey (ctrNext^[i] ctx) = (keystreamBlock aes iv (i / 16)).getD (i % 16) 0 := by
  have place : i = i % 16 + 16 * (i / 16) := (Nat.mod_add_div i 16).symm
  have inside : i % 16 < 16 := Nat.mod_lt _ (by decide)
  obtain ⟨-, later⟩ := stream_blocks start (i / 16)
  obtain ⟨block, -⟩ := stream_block later
  rw [Nat.zero_add] at block
  rw [← block, Keystream.stream_getD ctrKey ctrNext _ inside, ← Function.iterate_add_apply, ← place]

theorem aesCtrCrypt_getD {aes : AesCtx} {iv : Block} {ctx : AesCtrCtx} (start : AtBlock aes iv 0 ctx) {data : List UInt8}
    {i : ℕ} (inside : i < data.length) :
    (aesCtrCrypt ctx data).1.getD i 0 = data.getD i 0 ^^^ (keystreamBlock aes iv (i / 16)).getD (i % 16) 0 := by
  have drawn := Keystream.stream_getD ctrKey ctrNext ctx inside
  rw [keystream_getD start, List.getD_eq_getElem?_getD, List.getElem?_eq_getElem (by rw [Keystream.stream_length]; exact inside),
    Option.getD_some] at drawn
  rw [aesCtrCrypt_eq, Keystream.crypt_eq_zipWith, List.getD_eq_getElem?_getD, List.getElem?_zipWith,
    List.getElem?_eq_getElem inside, List.getElem?_eq_getElem (by rw [Keystream.stream_length]; exact inside), drawn]
  have byte : data.getD i 0 = data[i] := by
    rw [List.getD_eq_getElem?_getD, List.getElem?_eq_getElem inside, Option.getD_some]
  rw [byte]
  rfl

/-- The calls draw one keystream, that of FIPS 197 under the key, however the data is cut, and a
second pass takes it off again. -/
theorem ctr_streaming {key : List UInt8} {keyBits : ℕ} {iv : Block} {ctx : AesCtrCtx}
    (started : aesCtrInit key keyBits iv.toList = (true, ctx)) (calls : List CryptCall) :
    (∃ size : Fips197.KeySize, keyBits = 32 * size.words ∧ ∀ block, stateOf (aesEncryptBlock ctx.aes block) =
        Fips197.cipher size (Fips197.keyExpansion size (keyWords key)) (stateOf block)) ∧
      (cryptCalls ctx calls).1.length = (dataOf calls).length ∧
      (∀ i < (dataOf calls).length, (cryptCalls ctx calls).1.getD i 0 =
        (dataOf calls).getD i 0 ^^^ (aesEncryptBlock ctx.aes (counterAt iv (i / 16))).toList.getD (i % 16) 0) ∧
      (∀ others, dataOf others = dataOf calls → cryptCalls ctx others = cryptCalls ctx calls) ∧
      ∀ others, dataOf others = (cryptCalls ctx calls).1 → (cryptCalls ctx others).1 = dataOf calls := by
  have start := started_atBlock started
  have all := cryptCalls_eq ctx calls
  constructor
  · exact started_cipher started
  constructor
  · rw [all, aesCtrCrypt_length]
  constructor
  · intro i inside
    rw [all]
    exact aesCtrCrypt_getD start inside
  constructor
  · intro others same
    rw [cryptCalls_eq, same, all]
  · intro others same
    rw [cryptCalls_eq, same, all, aesCtrCrypt_crypt]

/-- Bytes 0, 1, 2, … in place. -/
def countedBytes (start len : ℕ) : CryptCall := ⟨fun a => UInt8.ofNat a, start, start, len, .inl (Nat.le_refl start)⟩

/-- The largest counter, whose next value is zero. -/
def lastCounter : Block := Vector.replicate 16 0xff

def countedKey : List UInt8 := (List.range 16).map UInt8.ofNat

def lastContext : AesCtrCtx := (aesCtrInit countedKey 128 lastCounter.toList).2

/-- Twenty bytes in three calls, over the end of the counter. -/
theorem ctr_streaming_wrapping_counter :
    (∃ size : Fips197.KeySize, 128 = 32 * size.words ∧ ∀ block, stateOf (aesEncryptBlock lastContext.aes block) =
        Fips197.cipher size (Fips197.keyExpansion size (keyWords countedKey)) (stateOf block)) ∧
      (∀ i < 20, (cryptCalls lastContext [countedBytes 0 7, countedBytes 7 0, countedBytes 7 13]).1.getD i 0 =
        ((List.range 20).map UInt8.ofNat).getD i 0 ^^^
          (aesEncryptBlock lastContext.aes (counterAt lastCounter (i / 16))).toList.getD (i % 16) 0) ∧
      counterAt lastCounter 1 = Vector.replicate 16 0 ∧
      cryptCalls lastContext [countedBytes 0 20] =
        cryptCalls lastContext [countedBytes 0 7, countedBytes 7 0, countedBytes 7 13] := by
  have started : aesCtrInit countedKey 128 lastCounter.toList = (true, lastContext) := rfl
  have data : dataOf [countedBytes 0 7, countedBytes 7 0, countedBytes 7 13] = (List.range 20).map UInt8.ofNat := by decide
  obtain ⟨cipher, -, bytes, cut, -⟩ := ctr_streaming started [countedBytes 0 7, countedBytes 7 0, countedBytes 7 13]
  rw [data] at bytes cut
  exact ⟨cipher, bytes, by decide, cut _ (by decide)⟩

end Coalesce.CounterStream
