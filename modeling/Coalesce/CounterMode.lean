import Coalesce.AesPermutation
import Coalesce.Library.ByteNumber
import Mathlib.Data.List.Nodup

/-! Counter mode of aes.c block by block: the counter is a number that goes up by one,
and from a fresh block on the keystream is the encryption of its successive values. -/

namespace Coalesce.CounterMode
open Library Library.ByteNumber Aes AesPermutation

def counterValue (ctr : Block) : Nat := beNat ctr.toList

/-- `k` steps behind `iv`, modulo 2 ^ 128. -/
def counterAt (iv : Block) (k : Nat) : Block :=
  Vector.ofFn fun i : Fin 16 => (beBytes 16 ((counterValue iv + k) % 2 ^ 128)).getD i.val 0

theorem toList_ofFn_getD {bytes : List UInt8} (length : bytes.length = 16) :
    (Vector.ofFn fun i : Fin 16 => bytes.getD i.val 0).toList = bytes := by
  apply List.ext_getElem
  · rw [Vector.length_toList, length]
  · intro i left right
    simp [right]

theorem counterValue_lt (ctr : Block) : counterValue ctr < 2 ^ 128 := by
  have limit := beNat_lt ctr.toList
  rw [Vector.length_toList] at limit
  exact limit

theorem counterValue_injective : Function.Injective counterValue := by
  intro a b same
  apply Vector.toList_inj.mp
  exact beNat_injective (by rw [Vector.length_toList, Vector.length_toList]) same

theorem counterValue_counterAt (iv : Block) (k : Nat) : counterValue (counterAt iv k) = (counterValue iv + k) % 2 ^ 128 := by
  rw [counterValue, counterAt, toList_ofFn_getD (beBytes_length _ _), beNat_beBytes]
  exact Nat.mod_eq_of_lt (Nat.mod_lt _ (by decide))

/-- The carry from byte `i` on adds one in the place above it. -/
theorem counterValue_ctrCarry (ctr : Block) {i : Nat} (within : i ≤ 16) :
    counterValue (ctrCarry ctr i) % 2 ^ 128 = (counterValue ctr + 256 ^ (16 - i)) % 2 ^ 128 := by
  induction i generalizing ctr with
  | zero => rw [ctrCarry, show 256 ^ (16 - 0) = 2 ^ 128 by decide, Nat.add_mod_right]
  | succ i ih =>
    have byte : i < ctr.toList.length := by
      rw [Vector.length_toList]
      omega
    have placed := beNat_set byte (ctr.getD i 0 + 1)
    rw [Vector.length_toList, show ctr.toList.getD i 0 = ctr.getD i 0 by simp [Vector.getD, List.getD_eq_getElem?_getD]] at placed
    have set : counterValue (ctr.setIfInBounds i (ctr.getD i 0 + 1)) = beNat (ctr.toList.set i (ctr.getD i 0 + 1)) := by
      rw [counterValue, Vector.toList_setIfInBounds]
    rw [← set] at placed
    change counterValue _ + _ = counterValue ctr + _ at placed
    have above : 256 ^ (16 - i) = 256 ^ (16 - (i + 1)) * 256 := by
      rw [← Nat.pow_succ]
      congr 1
      omega
    have bumped : (ctr.getD i 0 + 1).toNat = ((ctr.getD i 0).toNat + 1) % 256 := UInt8.toNat_add _ _
    have size := (ctr.getD i 0).toNat_lt
    have distribute : 256 ^ (16 - (i + 1)) * ((ctr.getD i 0).toNat + 1) =
        256 ^ (16 - (i + 1)) * (ctr.getD i 0).toNat + 256 ^ (16 - (i + 1)) := Nat.mul_succ _ _
    rw [ctrCarry]
    by_cases wraps : ctr.getD i 0 + 1 = 0
    · have last : (ctr.getD i 0).toNat = 255 := by
        have zero := congrArg UInt8.toNat wraps
        rw [bumped, UInt8.toNat_zero] at zero
        omega
      rw [if_neg (not_not.mpr wraps), ih _ (by omega)]
      rw [wraps, last, UInt8.toNat_zero] at placed
      rw [wraps]
      omega
    · have stays : (ctr.getD i 0 + 1).toNat = (ctr.getD i 0).toNat + 1 := by
        have nonzero : (ctr.getD i 0 + 1).toNat ≠ 0 := fun zero => wraps (UInt8.toNat_inj.mp zero)
        omega
      rw [if_pos wraps]
      rw [stays, distribute] at placed
      congr 1
      omega

theorem counterValue_ctrIncrement (ctr : Block) : counterValue (ctrIncrement ctr) = (counterValue ctr + 1) % 2 ^ 128 := by
  have bound := counterValue_lt (ctrIncrement ctr)
  have carried := counterValue_ctrCarry ctr (Nat.le_refl 16)
  rw [← Nat.mod_eq_of_lt bound]
  exact carried

theorem counterAt_succ (iv : Block) (k : Nat) : ctrIncrement (counterAt iv k) = counterAt iv (k + 1) := by
  apply counterValue_injective
  rw [counterValue_ctrIncrement, counterValue_counterAt, counterValue_counterAt, Nat.mod_add_mod, Nat.add_assoc]

theorem counterAt_zero (iv : Block) : counterAt iv 0 = iv := by
  apply counterValue_injective
  rw [counterValue_counterAt, Nat.add_zero, Nat.mod_eq_of_lt (counterValue_lt iv)]

/-- Fewer than 2 ^ 128 successive values are all different. -/
theorem counterAt_nodup (iv : Block) {count : Nat} (few : count ≤ 2 ^ 128) : ((List.range count).map (counterAt iv)).Nodup := by
  apply List.Nodup.map_on
  · intro i below j below' same
    have values := congrArg counterValue same
    rw [counterValue_counterAt, counterValue_counterAt] at values
    rw [List.mem_range] at below below'
    have start := counterValue_lt iv
    omega
  · exact List.nodup_range

/-! The keystream. -/

/-- The context draws block `k` behind `iv` next, and none of an earlier block is left. -/
structure AtBlock (aes : AesCtx) (iv : Block) (k : Nat) (ctx : AesCtrCtx) : Prop where
  aes : ctx.aes = aes
  counter : ctx.nonceCounter = counterAt iv k
  fresh : ctx.streamOffset = 0

/-- Block `k` of the keystream behind `iv`. -/
def keystreamBlock (aes : AesCtx) (iv : Block) (k : Nat) : List UInt8 := (aesEncryptBlock aes (counterAt iv k)).toList

theorem keystreamBlock_length (aes : AesCtx) (iv : Block) (k : Nat) : (keystreamBlock aes iv k).length = 16 :=
  Vector.length_toList

private theorem zipWith_zero {bytes : List UInt8} {count : Nat} (length : bytes.length = count) :
    List.zipWith (· ^^^ ·) (List.replicate count 0) bytes = bytes := by
  induction bytes generalizing count with
  | nil => rw [List.zipWith_nil_right]
  | cons byte bytes ih =>
    rw [← length, List.length_cons, List.replicate_succ, List.zipWith_cons_cons, ih rfl, UInt8.zero_xor]

variable {aes : AesCtx} {iv : Block} {k : Nat} {ctx : AesCtrCtx}

theorem stream_block (at_block : AtBlock aes iv k ctx) :
    Keystream.stream ctrKey ctrNext ctx 16 = keystreamBlock aes iv k ∧ AtBlock aes iv (k + 1) (ctrNext^[16] ctx) := by
  have refilled : refill ctx =
      { ctx with stream := aesEncryptBlock aes (counterAt iv k), nonceCounter := ctrIncrement (counterAt iv k) } := by
    rw [refill, if_pos at_block.fresh, at_block.aes, at_block.counter]
  have fits : ctx.streamOffset.val + (List.replicate 16 (0 : UInt8)).length ≤ 16 := by rw [at_block.fresh, List.length_replicate]; rfl
  have pass := crypt_pass ctx (List.replicate 16 0) fits (List.cons_ne_nil _ _)
  have state := Keystream.crypt_state ctrKey ctrNext ctx (List.replicate 16 0)
  have both := Keystream.zipWith_crypt ctrKey ctrNext ctx (List.replicate 16 0)
  have drawn : (keystreamBlock aes iv k).drop ctx.streamOffset.val = keystreamBlock aes iv k := by
    rw [at_block.fresh]
    rfl
  have given : (Keystream.crypt ctrKey ctrNext ctx (List.replicate 16 0)).1 = keystreamBlock aes iv k := by
    rw [pass, refilled]
    change List.zipWith _ _ ((keystreamBlock aes iv k).drop ctx.streamOffset.val) = _
    rw [drawn, zipWith_zero (keystreamBlock_length aes iv k)]
  rw [given, zipWith_zero (keystreamBlock_length aes iv k), List.length_replicate] at both
  have start : Fin.ofNat 16 (ctx.streamOffset.val + 16) = 0 := by
    rw [at_block.fresh]
    rfl
  rw [pass, refilled, List.length_replicate, start, counterAt_succ] at state
  rw [← state]
  exact ⟨both.symm, ⟨at_block.aes, rfl, rfl⟩⟩

theorem stream_blocks (at_block : AtBlock aes iv k ctx) (count : Nat) :
    Keystream.stream ctrKey ctrNext ctx (16 * count) = ((List.range' k count).map (keystreamBlock aes iv)).flatten ∧
      AtBlock aes iv (k + count) (ctrNext^[16 * count] ctx) := by
  induction count generalizing k ctx with
  | zero => exact ⟨rfl, at_block⟩
  | succ count ih =>
    obtain ⟨block, next⟩ := stream_block at_block
    obtain ⟨blocks, later⟩ := ih next
    have bytes : 16 * (count + 1) = 16 + 16 * count := by omega
    constructor
    · rw [bytes, Keystream.stream_add, block, blocks, List.range'_succ, List.map_cons, List.flatten_cons]
    · rw [bytes, Nat.add_comm 16, Function.iterate_add_apply, show k + (count + 1) = k + 1 + count by omega]
      exact later

/-- A text is cut into blocks; the last one may be short. -/
def blocksOf (bytes : List UInt8) : List (List UInt8) :=
  (List.range ((bytes.length + 15) / 16)).map fun k => (bytes.drop (16 * k)).take 16

theorem blocksOf_flatten {blocks : List (List UInt8)} (whole : ∀ block ∈ blocks, block.length = 16) :
    blocksOf blocks.flatten = blocks := by
  induction blocks with
  | nil => rfl
  | cons block blocks ih =>
    have rest := ih fun other member => whole other (List.mem_cons_of_mem _ member)
    have length := whole block List.mem_cons_self
    have count : (16 + blocks.flatten.length + 15) / 16 = (blocks.flatten.length + 15) / 16 + 1 := by omega
    rw [blocksOf, List.flatten_cons, List.length_append, length, count, List.range_succ_eq_map, List.map_cons, List.map_map]
    congr 1
    · rw [Nat.mul_zero, List.drop_zero, List.take_append_of_le_length (Nat.le_of_eq length.symm),
        List.take_of_length_le (Nat.le_of_eq length)]
    · conv_rhs => rw [← rest]
      apply List.map_congr_left
      intro k _
      rw [Function.comp_apply, List.drop_append, List.drop_of_length_le (by omega), List.nil_append, length]
      congr 2

end Coalesce.CounterMode
