import Coalesce.Aes
import Coalesce.Library.ByteNumber
import Mathlib.Data.Fintype.EquivFin
import Mathlib.Tactic.IntervalCases

/-! AES under a fixed key schedule is injective. The table has no entry twice, adding a
round key undoes itself, and both ShiftRows and MixColumns come back to where they
started after four applications. -/

namespace Coalesce.AesPermutation
open Library.ByteNumber Aes

theorem injective_of_fourth {α : Type} {f : α → α} (fourth : ∀ x, f (f (f (f x))) = x) : Function.Injective f := by
  have inverse : Function.LeftInverse (fun x => f (f (f x))) f := fourth
  exact inverse.injective

/-! The round functions. -/

private theorem xor_left_comm (x y z : UInt8) : x ^^^ (y ^^^ z) = y ^^^ (x ^^^ z) := by
  rw [← UInt8.xor_assoc, UInt8.xor_comm x, UInt8.xor_assoc]

private theorem xor_cancel (x y : UInt8) : x ^^^ (x ^^^ y) = y := by
  rw [← UInt8.xor_assoc, UInt8.xor_self, UInt8.zero_xor]

/-- The table has all 256 values. -/
theorem SBOX_full : valueMask SBOX.toList = 2 ^ 256 - 1 := by decide +kernel

theorem sbox_surjective : Function.Surjective sbox := by
  intro y
  have bit : (valueMask SBOX.toList).testBit y.toNat = true := by
    rw [SBOX_full, Nat.testBit_two_pow_sub_one, decide_eq_true_eq]
    exact y.toNat_lt
  obtain ⟨entry, member, same⟩ := mem_of_testBit bit
  obtain ⟨i, inside, found⟩ := List.getElem_of_mem member
  have size : SBOX.toList.length = 256 := by decide +kernel
  have found : SBOX.toList[i]? = some entry := List.getElem?_eq_some_iff.mpr ⟨inside, found⟩
  refine ⟨UInt8.ofNat i, ?_⟩
  rw [size] at inside
  rw [sbox, UInt8.toNat_ofNat_of_lt' inside, Array.getD_eq_getD_getElem?, ← Array.getElem?_toList,
    found]
  exact UInt8.toNat_inj.mp same

theorem sbox_injective : Function.Injective sbox := by
  have finite : Finite UInt8 := Finite.of_injective UInt8.toFin fun _ _ same => UInt8.toFin_inj.mp same
  exact Finite.injective_iff_surjective.mpr sbox_surjective

theorem subBytes_injective : Function.Injective subBytes := by
  intro s t same
  exact (Vector.map_inj_right fun _ _ equal => sbox_injective equal).mp same

/-- Byte `i` comes from five times as far, around the block. -/
theorem shiftRows_getElem (s : Block) {i : Nat} (inside : i < 16) (around : 5 * i % 16 < 16) :
    (shiftRows s)[i] = s[5 * i % 16] := by
  interval_cases i <;> rfl

theorem shiftRows_fourth (s : Block) : shiftRows (shiftRows (shiftRows (shiftRows s))) = s := by
  ext i inside
  have around : ∀ j, 5 * j % 16 < 16 := fun j => Nat.mod_lt _ (by decide)
  have back : 5 * (5 * (5 * (5 * i % 16) % 16) % 16) % 16 = i := by omega
  rw [shiftRows_getElem _ inside (around _), shiftRows_getElem _ _ (around _), shiftRows_getElem _ _ (around _),
    shiftRows_getElem _ _ (around _)]
  simp only [back]

theorem addRoundKey_twice (rk : Vector UInt32 60) (first : Nat) (s : Block) :
    addRoundKey (addRoundKey s rk first) rk first = s := by
  have twice (x k : UInt8) : x ^^^ k ^^^ k = x := by rw [UInt8.xor_assoc, UInt8.xor_self, UInt8.xor_zero]
  apply Vector.ext
  intro i inside
  simp only [addRoundKey, Vector.getElem_ofFn, Fin.getElem_fin, twice]

/-! MixColumns needs of `xtime` only that it is additive. -/

theorem high_bit (x : UInt8) : x &&& 0x80 = 0 ∨ x &&& 0x80 = 0x80 := by
  obtain ⟨⟨x⟩⟩ := x
  revert x
  decide +kernel

theorem xtime_xor (x y : UInt8) : xtime (x ^^^ y) = xtime x ^^^ xtime y := by
  have both : (x ^^^ y) &&& 0x80 = (x &&& 0x80) ^^^ (y &&& 0x80) := by
    rw [← UInt8.toBitVec_inj]
    ext i inside
    simp [Bool.and_xor_distrib_right]
  unfold xtime
  rw [both, UInt8.shiftLeft_xor]
  rcases high_bit x with left | left <;> rcases high_bit y with right | right <;>
    simp [left, right, UInt8.xor_assoc, UInt8.xor_comm, xor_left_comm]

/-- One byte of `mixColumn`, from the column as it is read from that byte on. -/
def mixByte (a b c d : UInt8) : UInt8 := a ^^^ ((a ^^^ b ^^^ c ^^^ d) ^^^ xtime (a ^^^ b))

theorem mixColumn_eq (a b c d : UInt8) :
    mixColumn a b c d = #v[mixByte a b c d, mixByte b c d a, mixByte c d a b, mixByte d a b c] := by
  simp only [mixColumn, mixByte, UInt8.xor_comm, xor_left_comm]

/-- Twice: what remains is `xtime` squared of rows that lie two apart. -/
theorem mixByte_twice (a b c d : UInt8) :
    mixByte (mixByte a b c d) (mixByte b c d a) (mixByte c d a b) (mixByte d a b c) = a ^^^ xtime (xtime (a ^^^ c)) := by
  simp only [mixByte, xtime_xor]
  generalize xtime (xtime a) = a₂
  generalize xtime (xtime b) = b₂
  generalize xtime (xtime c) = c₂
  generalize xtime (xtime d) = d₂
  generalize xtime a = a₁
  generalize xtime b = b₁
  generalize xtime c = c₁
  generalize xtime d = d₁
  simp only [UInt8.xor_comm, xor_left_comm, xor_cancel, UInt8.xor_self, UInt8.xor_zero]

theorem exchange_twice (a c : UInt8) :
    (a ^^^ xtime (xtime (a ^^^ c))) ^^^ xtime (xtime ((a ^^^ xtime (xtime (a ^^^ c))) ^^^ (c ^^^ xtime (xtime (c ^^^ a))))) =
      a := by
  have same : (a ^^^ xtime (xtime (a ^^^ c))) ^^^ (c ^^^ xtime (xtime (c ^^^ a))) = a ^^^ c := by
    rw [UInt8.xor_comm c a]
    simp only [UInt8.xor_comm, xor_left_comm, UInt8.xor_self, UInt8.xor_zero]
  rw [same, UInt8.xor_assoc, UInt8.xor_self, UInt8.xor_zero]

/-- `mixColumn` on a column. -/
def mix (column : Vector UInt8 4) : Vector UInt8 4 := mixColumn column[0] column[1] column[2] column[3]

theorem mix_entries (a b c d : UInt8) : mix #v[a, b, c, d] = mixColumn a b c d := by
  simp only [mix, Vector.getElem_mk, List.getElem_toArray, List.getElem_cons_zero, List.getElem_cons_succ]

theorem column_congr {a b c d a' b' c' d' : UInt8} (first : a = a') (second : b = b') (third : c = c') (fourth : d = d') :
    #v[a, b, c, d] = #v[a', b', c', d'] := by
  rw [first, second, third, fourth]

theorem mix_twice (a b c d : UInt8) :
    mix (mix #v[a, b, c, d]) = #v[a ^^^ xtime (xtime (a ^^^ c)), b ^^^ xtime (xtime (b ^^^ d)),
      c ^^^ xtime (xtime (c ^^^ a)), d ^^^ xtime (xtime (d ^^^ b))] := by
  rw [mix_entries, mixColumn_eq, mix_entries, mixColumn_eq]
  exact column_congr (mixByte_twice a b c d) (mixByte_twice b c d a) (mixByte_twice c d a b) (mixByte_twice d a b c)

theorem mix_fourth (column : Vector UInt8 4) : mix (mix (mix (mix column))) = column := by
  have entries : column = #v[column[0], column[1], column[2], column[3]] := by
    ext i inside
    interval_cases i <;> rfl
  generalize column[0] = a, column[1] = b, column[2] = c, column[3] = d at entries
  rw [entries, mix_twice, mix_twice]
  exact column_congr (exchange_twice a c) (exchange_twice b d) (exchange_twice c a) (exchange_twice d b)

theorem mixColumns_injective : Function.Injective mixColumns := by
  intro s t same
  have injective := injective_of_fourth mix_fourth
  unfold mixColumns at same
  obtain ⟨same, fourth⟩ := Vector.append_inj same
  obtain ⟨same, third⟩ := Vector.append_inj same
  obtain ⟨first, second⟩ := Vector.append_inj same
  have column : ∀ a b c d a' b' c' d', mixColumn a b c d = mixColumn a' b' c' d' → a = a' ∧ b = b' ∧ c = c' ∧ d = d' := by
    intro a b c d a' b' c' d' equal
    have entries : #v[a, b, c, d] = #v[a', b', c', d'] := injective equal
    simpa using entries
  have first := column _ _ _ _ _ _ _ _ first
  have second := column _ _ _ _ _ _ _ _ second
  have third := column _ _ _ _ _ _ _ _ third
  have fourth := column _ _ _ _ _ _ _ _ fourth
  ext i inside
  interval_cases i
  all_goals simp only [first, second, third, fourth]

/-! The cipher. -/

theorem addRoundKey_injective (rk : Vector UInt32 60) (first : Nat) :
    Function.Injective fun s => addRoundKey s rk first :=
  Function.Involutive.injective (addRoundKey_twice rk first)

theorem shiftRows_injective : Function.Injective shiftRows := injective_of_fourth shiftRows_fourth

theorem aesRound_injective (rk : Vector UInt32 60) (r : Nat) : Function.Injective fun s => aesRound rk s r := by
  intro s t same
  have mixed := addRoundKey_injective rk (4 * r) same
  exact subBytes_injective (shiftRows_injective (mixColumns_injective mixed))

theorem rounds_injective (rk : Vector UInt32 60) (rounds : List Nat) :
    Function.Injective fun s => rounds.foldl (aesRound rk) s := by
  induction rounds with
  | nil => exact Function.injective_id
  | cons r rounds ih => exact ih.comp (aesRound_injective rk r)

/-- Whatever the key schedule, different blocks are encrypted to different blocks. -/
theorem aesEncryptBlock_injective (ctx : AesCtx) : Function.Injective (aesEncryptBlock ctx) := by
  intro s t same
  have last := addRoundKey_injective ctx.rk (4 * ctx.rounds) same
  have before := subBytes_injective (shiftRows_injective last)
  exact addRoundKey_injective ctx.rk 0 (rounds_injective ctx.rk _ before)

end Coalesce.AesPermutation
