import Coalesce.Aes
import Coalesce.Library.CheckedRun
import Mathlib.Tactic.IntervalCases

/-! aes.c once more, with every index looked up in its array: a read or write outside of
`SBOX`, `RCON`, `rk`, the key or, in `shift_rows`, the block stops the run. -/

namespace Coalesce.CheckedAes
open Library CheckedRun Aes

def sboxChecked (x : UInt8) : Option UInt8 := SBOX[x.toNat]?

def SUBWORDChecked (w : UInt32) : Option UInt32 :=
  (sboxChecked (w >>> 24).toUInt8).bind fun a => (sboxChecked (w >>> 16).toUInt8).bind fun b =>
    (sboxChecked (w >>> 8).toUInt8).bind fun c => (sboxChecked w.toUInt8).map fun d =>
      (a.toUInt32 <<< 24) ||| (b.toUInt32 <<< 16) ||| (c.toUInt32 <<< 8) ||| d.toUInt32

def keyWordChecked (key : List UInt8) (i : Nat) : Option UInt32 :=
  key[4 * i]?.bind fun a => key[4 * i + 1]?.bind fun b => key[4 * i + 2]?.bind fun c => key[4 * i + 3]?.map fun d =>
    (a.toUInt32 <<< 24) ||| (b.toUInt32 <<< 16) ||| (c.toUInt32 <<< 8) ||| d.toUInt32

/-- `rk[i] = w` -/
def storeChecked (rk : Vector UInt32 60) (i : Nat) (w : UInt32) : Option (Vector UInt32 60) :=
  if i < 60 then some (rk.setIfInBounds i w) else none

/-- `rk[i - back]`; `i` and `back` are ints. -/
def beforeChecked (rk : Vector UInt32 60) (i back : Nat) : Option UInt32 :=
  if back ≤ i then rk[i - back]? else none

def loadStepChecked (key : List UInt8) (rk : Vector UInt32 60) (i : Nat) : Option (Vector UInt32 60) :=
  (keyWordChecked key i).bind (storeChecked rk i)

def expandTempChecked (nk i : Nat) (temp : UInt32) : Option UInt32 :=
  if i % nk = 0 then
    (SUBWORDChecked (ROTWORD temp)).bind fun substituted => RCON[i / nk]?.map fun (rcon : UInt8) =>
      substituted ^^^ (rcon.toUInt32 <<< 24)
  else if nk > 6 ∧ i % nk = 4 then SUBWORDChecked temp
  else some temp

def expandStepChecked (nk : Nat) (rk : Vector UInt32 60) (i : Nat) : Option (Vector UInt32 60) :=
  (beforeChecked rk i 1).bind fun temp => (expandTempChecked nk i temp).bind fun temp =>
    (beforeChecked rk i nk).bind fun before => storeChecked rk i (before ^^^ temp)

/-- The outer `none` is a run that stopped, the inner one the code -1. -/
def aesSetEncryptKeyChecked (ctx : AesCtx) (key : List UInt8) (keyBits : Nat) : Option (Option AesCtx) :=
  match keySchedule keyBits with
  | none => some none
  | some (nk, rounds) =>
      let total := 4 * (rounds + 1)
      ((List.range nk).foldlM (loadStepChecked key) ctx.rk).bind fun loaded =>
        ((List.range' nk (total - nk)).foldlM (expandStepChecked nk) loaded).map fun rk => some ⟨rk, rounds⟩

/-- Four words are read, from `first` on. -/
def addRoundKeyChecked (s : Block) (rk : Vector UInt32 60) (first : Nat) : Option Block :=
  if first + 3 < 60 then some (addRoundKey s rk first) else none

def subBytesChecked (s : Block) : Option Block := s.mapM sboxChecked

/-- `s[i] = b;` -/
def assignChecked (s : Block) (i : Nat) (b : UInt8) : Option Block :=
  if i < 16 then some (s.setIfInBounds i b) else none

/-- `s[i] = s[j];` -/
def moveChecked (s : Block) (i j : Nat) : Option Block := s[j]?.bind (assignChecked s i)

/-- In place, a row at a time. -/
def shiftRowsChecked (s : Block) : Option Block :=
  s[1]?.bind fun t => (moveChecked s 1 5).bind fun s => (moveChecked s 5 9).bind fun s =>
    (moveChecked s 9 13).bind fun s => (assignChecked s 13 t).bind fun s =>
  s[2]?.bind fun t => (moveChecked s 2 10).bind fun s => (assignChecked s 10 t).bind fun s =>
  s[6]?.bind fun t => (moveChecked s 6 14).bind fun s => (assignChecked s 14 t).bind fun s =>
  s[15]?.bind fun t => (moveChecked s 15 11).bind fun s => (moveChecked s 11 7).bind fun s =>
    (moveChecked s 7 3).bind fun s => assignChecked s 3 t

def aesRoundChecked (rk : Vector UInt32 60) (s : Block) (r : Nat) : Option Block :=
  (subBytesChecked s).bind fun s => (shiftRowsChecked s).bind fun s => addRoundKeyChecked (mixColumns s) rk (4 * r)

def aesEncryptBlockChecked (ctx : AesCtx) (input : Block) : Option Block :=
  (addRoundKeyChecked input ctx.rk 0).bind fun s =>
    ((List.range' 1 (ctx.rounds - 1)).foldlM (aesRoundChecked ctx.rk) s).bind fun s =>
      (subBytesChecked s).bind fun s => (shiftRowsChecked s).bind fun s => addRoundKeyChecked s ctx.rk (4 * ctx.rounds)

/-! Nothing stops. -/

theorem sboxChecked_eq (x : UInt8) : sboxChecked x = some (sbox x) := by
  have size : SBOX.size = 256 := by decide +kernel
  have inside : x.toNat < SBOX.size := by
    rw [size]
    exact x.toNat_lt
  rw [sboxChecked, sbox, Array.getD_eq_getD_getElem?, Array.getElem?_eq_getElem inside]
  rfl

theorem SUBWORDChecked_eq (w : UInt32) : SUBWORDChecked w = some (SUBWORD w) := by
  simp only [SUBWORDChecked, sboxChecked_eq, Option.bind_some, Option.map_some]
  rfl

theorem read_key {key : List UInt8} {i : Nat} (inside : i < key.length) : key[i]? = some (key.getD i 0) := by
  rw [List.getD_eq_getElem?_getD, List.getElem?_eq_getElem inside]
  rfl

theorem keyWordChecked_eq {key : List UInt8} {i : Nat} (inside : 4 * i + 3 < key.length) :
    keyWordChecked key i = some (keyWord key i) := by
  rw [keyWordChecked, read_key (show 4 * i < key.length by omega), read_key (show 4 * i + 1 < key.length by omega),
    read_key (show 4 * i + 2 < key.length by omega), read_key inside]
  rfl

theorem storeChecked_eq (rk : Vector UInt32 60) {i : Nat} (inside : i < 60) (w : UInt32) :
    storeChecked rk i w = some (rk.setIfInBounds i w) := if_pos inside

theorem beforeChecked_eq (rk : Vector UInt32 60) {i back : Nat} (behind : back ≤ i) (inside : i < 60) :
    beforeChecked rk i back = some (rk.getD (i - back) 0) := by
  rw [beforeChecked, if_pos behind, Vector.getElem?_eq_getElem (by omega)]
  simp [Vector.getD, show i - back < 60 by omega]

theorem expandTempChecked_eq {nk i : Nat} (temp : UInt32) (inside : i / nk < 11) :
    expandTempChecked nk i temp = some (expandTemp nk i temp) := by
  have rcon : RCON[i / nk]? = some (RCON.getD (i / nk) 0) := by
    rw [Array.getD_eq_getD_getElem?, Array.getElem?_eq_getElem inside]
    rfl
  unfold expandTempChecked expandTemp
  split
  · rw [SUBWORDChecked_eq, Option.bind_some, rcon, Option.map_some]
  · split
    · exact SUBWORDChecked_eq temp
    · rfl

theorem expandStepChecked_eq {nk i : Nat} (rk : Vector UInt32 60) (positive : 1 ≤ nk) (behind : nk ≤ i) (inside : i < 60)
    (few : i / nk < 11) : expandStepChecked nk rk i = some (expandStep nk rk i) := by
  rw [expandStepChecked, beforeChecked_eq rk (by omega) inside, Option.bind_some, expandTempChecked_eq _ few,
    Option.bind_some, beforeChecked_eq rk behind inside, Option.bind_some, storeChecked_eq rk inside]
  rfl

theorem loadStepChecked_eq {key : List UInt8} (rk : Vector UInt32 60) {i : Nat} (given : 4 * i + 3 < key.length) (inside : i < 60) :
    loadStepChecked key rk i = some (rk.setIfInBounds i (keyWord key i)) := by
  rw [loadStepChecked, keyWordChecked_eq given, Option.bind_some, storeChecked_eq rk inside]

/-- For the three key sizes the last word fits and `RCON` lasts. -/
theorem keySchedule_fits {keyBits nk rounds : Nat} (found : keySchedule keyBits = some (nk, rounds)) :
    1 ≤ nk ∧ nk ≤ 8 ∧ rounds ≤ 14 ∧ 4 * (rounds + 1) ≤ 11 * nk ∧ 32 * nk = keyBits := by
  unfold keySchedule at found
  split at found
  case h_4 => exact absurd found.symm (Option.some_ne_none _)
  all_goals
    obtain ⟨rfl, rfl⟩ := Prod.mk.inj (Option.some.inj found)
    decide

theorem aesSetEncryptKeyChecked_eq (ctx : AesCtx) {key : List UInt8} {keyBits : Nat} (enough : keyBits ≤ 8 * key.length) :
    aesSetEncryptKeyChecked ctx key keyBits = some (aesSetEncryptKey ctx key keyBits) := by
  unfold aesSetEncryptKeyChecked aesSetEncryptKey
  cases found : keySchedule keyBits with
  | none => rfl
  | some schedule =>
    obtain ⟨nk, rounds⟩ := schedule
    obtain ⟨positive, short, few, lasts, size⟩ := keySchedule_fits found
    have load : (List.range nk).foldlM (loadStepChecked key) ctx.rk =
        some ((List.range nk).foldl (fun rk i => rk.setIfInBounds i (keyWord key i)) ctx.rk) := by
      apply foldlM_eq
      intro rk i member
      have inside := List.mem_range.mp member
      exact loadStepChecked_eq rk (by omega) (by omega)
    have expand (loaded : Vector UInt32 60) :
        (List.range' nk (4 * (rounds + 1) - nk)).foldlM (expandStepChecked nk) loaded =
          some ((List.range' nk (4 * (rounds + 1) - nk)).foldl (expandStep nk) loaded) := by
      apply foldlM_eq
      intro rk i member
      obtain ⟨behind, inside⟩ := List.mem_range'_1.mp member
      have lookup : i / nk < 11 := by
        rw [Nat.div_lt_iff_lt_mul positive]
        omega
      exact expandStepChecked_eq rk positive behind (by omega) lookup
    simp only [load, expand, Option.bind_some, Option.map_some]

theorem subBytesChecked_eq (s : Block) : subBytesChecked s = some (subBytes s) := by
  have checked : sboxChecked = fun x => pure (sbox x) := funext sboxChecked_eq
  rw [subBytesChecked, checked]
  exact Vector.mapM_pure sbox

theorem addRoundKeyChecked_eq (s : Block) (rk : Vector UInt32 60) {first : Nat} (inside : first + 3 < 60) :
    addRoundKeyChecked s rk first = some (addRoundKey s rk first) := if_pos inside

theorem assignChecked_eq (s : Block) {i : Nat} (inside : i < 16) (b : UInt8) :
    assignChecked s i b = some (s.set i b inside) := by
  rw [assignChecked, if_pos inside]
  apply congrArg some
  apply Vector.ext
  intro j _
  rw [Vector.getElem_setIfInBounds, Vector.getElem_set]

theorem moveChecked_eq (s : Block) {i j : Nat} (source : j < 16) (target : i < 16) :
    moveChecked s i j = some (s.set i s[j] target) := by
  rw [moveChecked, Vector.getElem?_eq_getElem source, Option.bind_some, assignChecked_eq s target]

theorem shiftRowsChecked_eq (s : Block) : shiftRowsChecked s = some (shiftRows s) := by
  have moved : shiftRowsChecked s = some ((((((((((((s.set 1 s[5]).set 5 s[9]).set 9 s[13]).set 13 s[1]).set 2 s[10]).set 10 s[2]).set
      6 s[14]).set 14 s[6]).set 15 s[11]).set 11 s[7]).set 7 s[3]).set 3 s[15]) := by
    simp [shiftRowsChecked, moveChecked_eq, assignChecked_eq]
  rw [moved]
  apply congrArg some
  apply Vector.ext
  intro i inside
  interval_cases i <;> simp [shiftRows]

theorem aesRoundChecked_eq (rk : Vector UInt32 60) (s : Block) {r : Nat} (inside : 4 * r + 3 < 60) :
    aesRoundChecked rk s r = some (aesRound rk s r) := by
  rw [aesRoundChecked, subBytesChecked_eq, Option.bind_some, shiftRowsChecked_eq, Option.bind_some,
    addRoundKeyChecked_eq _ _ inside]
  rfl

theorem aesEncryptBlockChecked_eq {ctx : AesCtx} (few : ctx.rounds ≤ 14) (input : Block) :
    aesEncryptBlockChecked ctx input = some (aesEncryptBlock ctx input) := by
  have rounds (s : Block) : (List.range' 1 (ctx.rounds - 1)).foldlM (aesRoundChecked ctx.rk) s =
      some ((List.range' 1 (ctx.rounds - 1)).foldl (aesRound ctx.rk) s) := by
    apply foldlM_eq
    intro s r member
    obtain ⟨-, inside⟩ := List.mem_range'_1.mp member
    exact aesRoundChecked_eq ctx.rk s (by omega)
  rw [aesEncryptBlockChecked, addRoundKeyChecked_eq _ _ (by decide), Option.bind_some, rounds, Option.bind_some,
    subBytesChecked_eq, Option.bind_some, shiftRowsChecked_eq, Option.bind_some, addRoundKeyChecked_eq _ _ (by omega)]
  rfl

end Coalesce.CheckedAes
