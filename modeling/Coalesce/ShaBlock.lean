import Coalesce.Library.Sha2
import Coalesce.Library.WordBytes

/-! The block functions of sha256.c and sha512.c are one text with two sets of
numbers. It is written here once, over the word width; each file applies it to
its own table and rotation amounts. -/

namespace Coalesce.ShaBlock
open Library.Sha2 Library.BlockHash Library.ByteNumber Library.WordBytes

variable (shape : Shape) (table : List (BitVec shape.width))

/-- `w[i] = w[i - 16] + s0 + w[i - 7] + s1`. -/
def extend (words : List (BitVec shape.width)) (i : Nat) : List (BitVec shape.width) :=
  let s0 := smallSigma shape.smallSigma0 (words.getD (i - 15) 0)
  let s1 := smallSigma shape.smallSigma1 (words.getD (i - 2) 0)
  words ++ [words.getD (i - 16) 0 + s0 + words.getD (i - 7) 0 + s1]

def blockWords (block : List UInt8) : List (BitVec shape.width) :=
  let loaded := (List.range 16).map fun i => loadWord shape.width (block.drop (i * (shape.width / 8)))
  (List.range' 16 (shape.rounds - 16)).foldl (extend shape) loaded

/-- One pass of the main loop over the variables `a, ..., h`. -/
def blockRound (words : List (BitVec shape.width)) (v : Words shape.width) (i : Nat) : Words shape.width :=
  let S1 := bigSigma shape.bigSigma1 v.e
  let t1 := v.h + S1 + ch v.e v.f v.g + table.getD i 0 + words.getD i 0
  let S0 := bigSigma shape.bigSigma0 v.a
  let t2 := S0 + maj v.a v.b v.c
  ⟨t1 + t2, v.a, v.b, v.c, v.d + t1, v.e, v.f, v.g⟩

def shaBlock (state : Words shape.width) (block : List UInt8) : Words shape.width :=
  state.add ((List.range shape.rounds).foldl (blockRound shape table (blockWords shape block)) state)

def digest (state : Words shape.width) : List UInt8 := state.toList.flatMap storeWord

section
variable {shape table}

private theorem getD_map_range {α : Type} (f : Nat → α) (zero : α) {count i : Nat} (bound : i < count) :
    ((List.range count).map f).getD i zero = f i := by
  simp [List.getD_eq_getElem?_getD, bound]

theorem schedule_early (m : Nat → BitVec shape.width) {t : Nat} (early : t < 16) : schedule shape m t = m t := by
  rw [schedule, if_pos early]

theorem schedule_late (m : Nat → BitVec shape.width) {t : Nat} (late : 16 ≤ t) :
    schedule shape m t = smallSigma shape.smallSigma1 (schedule shape m (t - 2)) + schedule shape m (t - 7) +
      smallSigma shape.smallSigma0 (schedule shape m (t - 15)) + schedule shape m (t - 16) := by
  rw [schedule, if_neg (by omega)]

/-- One more word of the message schedule. -/
theorem extend_schedule (m : Nat → BitVec shape.width) {i : Nat} (late : 16 ≤ i) :
    extend shape ((List.range i).map (schedule shape m)) i = (List.range (i + 1)).map (schedule shape m) := by
  rw [extend, getD_map_range _ _ (by omega), getD_map_range _ _ (by omega), getD_map_range _ _ (by omega),
    getD_map_range _ _ (by omega), List.range_succ, List.map_append, List.map_singleton, schedule_late m late]
  congr 2
  ac_rfl

theorem extend_run (m : Nat → BitVec shape.width) (count : Nat) :
    (List.range' 16 count).foldl (extend shape) ((List.range 16).map (schedule shape m)) =
      (List.range (16 + count)).map (schedule shape m) := by
  induction count with
  | zero => rfl
  | succ count ih =>
    rw [List.range'_concat, List.foldl_append, ih, Nat.one_mul, List.foldl_cons, List.foldl_nil,
      extend_schedule m (by omega), Nat.add_assoc]

theorem blockWords_eq (whole : 8 * (shape.width / 8) = shape.width) (long : 16 ≤ shape.rounds)
    (block : List UInt8) (length : block.length = blockSize shape) :
    blockWords shape block = (List.range shape.rounds).map (schedule shape (blockWord shape block)) := by
  have loaded : ((List.range 16).map fun i => loadWord shape.width (block.drop (i * (shape.width / 8)))) =
      (List.range 16).map (schedule shape (blockWord shape block)) := by
    apply List.map_congr_left
    intro i member
    have bound := List.mem_range.mp member
    have present : shape.width / 8 ≤ (block.drop (i * (shape.width / 8))).length := by
      rw [List.length_drop, length, blockSize, bytesPerWord, ← Nat.sub_mul]
      exact Nat.le_mul_of_pos_left _ (by omega)
    rw [loadWord_eq _ _ whole present, schedule_early _ bound]
    rfl
  rw [blockWords, loaded, extend_run, Nat.add_sub_cancel' long]

variable (shape)

/-- The block function with the standard's constants is the standard's compression. -/
theorem shaBlock_eq (whole : 8 * (shape.width / 8) = shape.width) (long : 16 ≤ shape.rounds)
    (known : table = constants shape)
    (state : Words shape.width) (block : List UInt8) (length : block.length = blockSize shape) :
    shaBlock shape table state block = compress shape state block := by
  rw [shaBlock, compress, blockWords_eq whole long block length, known]
  congr 1
  apply List.foldl_ext
  intro v i member
  have bound := List.mem_range.mp member
  simp only [blockRound, Library.Sha2.round, getD_map_range _ _ bound]

theorem digest_eq (whole : 8 * (shape.width / 8) = shape.width) (state : Words shape.width) :
    digest shape state = digestBytes shape state := by
  have words : (storeWord : BitVec shape.width → List UInt8) = fun word => beBytes (bytesPerWord shape) word.toNat :=
    funext fun word => storeWord_eq word whole
  rw [digest, digestBytes, words]

end

end Coalesce.ShaBlock
