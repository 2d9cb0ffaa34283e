import Coalesce.CheckedAes
import Coalesce.Library.Fips197
import Mathlib.Tactic.ReduceModChar

/-! aes.c computes FIPS 197. A block is the state column by column, a round-key word has its
first byte on top, and the bytes are elements of the field. -/

namespace Coalesce.AesStandard
open Library ByteField Aes CheckedAes

/-- Row `r`, column `c`. -/
def entry (s : Block) (r c : Fin 4) : UInt8 := s[(⟨4 * c.val + r.val, by omega⟩ : Fin 16)]

noncomputable def stateOf (s : Block) : Fips197.State := Matrix.of fun r c => toField (entry s r c)

/-- Byte `r` of a word, from the top. -/
def wordByte (w : UInt32) (r : ℕ) : UInt8 := (w >>> (24 - 8 * UInt32.ofNat r)).toUInt8

noncomputable def wordOf (w : UInt32) : Fips197.Word := fun r => toField (wordByte w r.val)

noncomputable def keyWords (key : List UInt8) (i : ℕ) : Fips197.Word := fun r => toField (key.getD (4 * i + r.val) 0)

/-! The tables. -/

/-- The affine map undone. -/
def unaffine (a : UInt8) : UInt8 :=
  ((a <<< 1) ||| (a >>> 7)) ^^^ ((a <<< 3) ||| (a >>> 5)) ^^^ ((a <<< 6) ||| (a >>> 2)) ^^^ 0x05

theorem bit_rotated (a : UInt8) (i : Fin 8) :
    bit ((a <<< 1) ||| (a >>> 7)) i = bit a (i + 7) ∧ bit ((a <<< 3) ||| (a >>> 5)) i = bit a (i + 5) ∧
      bit ((a <<< 6) ||| (a >>> 2)) i = bit a (i + 2) := by
  fin_cases i <;> simp [bit, Nat.testBit_mod_two_pow (j := 8), testBit_high]

theorem bit_unaffine (a : UInt8) (i : Fin 8) :
    bit (unaffine a) i = bit a (i + 7) + bit a (i + 5) + bit a (i + 2) + ![1, 0, 1, 0, 0, 0, 0, 0] i := by
  obtain ⟨one, three, six⟩ := bit_rotated a i
  have offset : bit 0x05 = ![1, 0, 1, 0, 0, 0, 0, 0] := by decide
  rw [unaffine, bit_xor, bit_xor, bit_xor, Pi.add_apply, Pi.add_apply, Pi.add_apply, one, three, six, offset]

/-- Every bit but one stands there twice. -/
theorem affine_unaffine (a : UInt8) : Fips197.affine (bit (unaffine a)) = bit a := by
  funext i
  simp only [Fips197.affine, bit_unaffine]
  fin_cases i <;> simp <;> ring_nf <;> reduce_mod_char

/-- The table gives every byte its inverse, and zero itself. -/
theorem SBOX_inverts : ∀ pair ∈ SBOX.toList.zipIdx,
    pair = (0x63, 0) ∨ times (UInt8.ofNat pair.2) (unaffine pair.1) = 1 := by decide +kernel

theorem times_sbox (a : UInt8) : a = 0 ∧ unaffine (sbox a) = 0 ∨ times a (unaffine (sbox a)) = 1 := by
  have found : (sbox a, a.toNat) ∈ SBOX.toList.zipIdx := by
    rw [List.mk_mem_zipIdx_iff_getElem?, Array.getElem?_toList]
    exact sboxChecked_eq a
  rcases SBOX_inverts _ found with zero | product
  · obtain ⟨value, index⟩ := Prod.mk.inj zero
    rw [value, ← UInt8.toNat_inj]
    exact Or.inl ⟨index, by decide⟩
  · dsimp only at product
    rw [UInt8.ofNat_toNat] at product
    exact Or.inr product

theorem toField_sbox (a : UInt8) : toField (sbox a) = Fips197.sBox (toField a) := by
  have inverted : (toField a)⁻¹ = toField (unaffine (sbox a)) := by
    rcases times_sbox a with ⟨zero, undone⟩ | product
    · rw [undone, zero, toField_zero, inv_zero]
    · exact toField_inverse product
  rw [Fips197.sBox, inverted]
  simp only [toField, AddEquiv.apply_symm_apply, affine_unaffine]

theorem toField_xtime (a : UInt8) : toField (xtime a) = x * toField a := toField_double a

theorem RCON_powers (k : Fin 10) : RCON.getD (k.val + 1) 0 = double^[k.val] 1 := by
  revert k
  decide

theorem toField_RCON {i : ℕ} (positive : 1 ≤ i) (inside : i < 11) : toField (RCON.getD i 0) = x ^ (i - 1) := by
  have power (k : ℕ) : toField (double^[k] 1) = x ^ k := by
    induction k with
    | zero => exact toField_one
    | succ k ih => rw [Function.iterate_succ_apply', toField_double, ih, pow_succ']
  have entry := RCON_powers ⟨i - 1, by omega⟩
  simp only [Nat.sub_add_cancel positive] at entry
  rw [entry, power]

/-! Round-key words. -/

theorem wordByte_xor (v w : UInt32) (r : ℕ) : wordByte (v ^^^ w) r = wordByte v r ^^^ wordByte w r := by
  rw [wordByte, UInt32.shiftRight_xor, UInt32.toUInt8_xor]
  rfl

theorem wordOf_xor (v w : UInt32) : wordOf (v ^^^ w) = wordOf v + wordOf w := by
  funext r
  rw [wordOf, wordByte_xor, toField_xor]
  rfl

def fourBytes (a b c d : UInt8) : UInt32 :=
  (a.toUInt32 <<< 24) ||| (b.toUInt32 <<< 16) ||| (c.toUInt32 <<< 8) ||| d.toUInt32

theorem entries_eq (f : ℕ → UInt8) (r : Fin 4) : ![f 0, f 1, f 2, f 3] r = f r.val := by
  fin_cases r <;> rfl

theorem wordByte_fourBytes (a b c d : UInt8) (r : Fin 4) : wordByte (fourBytes a b c d) r.val = ![a, b, c, d] r := by
  apply UInt8.toBitVec_inj.mp
  apply BitVec.eq_of_getLsbD_eq
  intro i inside
  fin_cases r <;> interval_cases i <;> simp [wordByte, fourBytes]

theorem wordByte_ROTWORD (w : UInt32) (r : Fin 4) : wordByte (ROTWORD w) r.val = wordByte w (r + 1).val := by
  apply UInt8.toBitVec_inj.mp
  apply BitVec.eq_of_getLsbD_eq
  intro i inside
  fin_cases r <;> interval_cases i <;> simp [wordByte, ROTWORD]

theorem wordOf_ROTWORD (w : UInt32) : wordOf (ROTWORD w) = Fips197.rotWord (wordOf w) := by
  funext r
  rw [wordOf, wordByte_ROTWORD]
  rfl

theorem wordOf_SUBWORD (w : UInt32) : wordOf (SUBWORD w) = Fips197.subWord (wordOf w) := by
  have bytes : SUBWORD w = fourBytes (sbox (wordByte w 0)) (sbox (wordByte w 1)) (sbox (wordByte w 2)) (sbox (wordByte w 3)) := by
    simp [SUBWORD, fourBytes, wordByte]
  funext r
  rw [wordOf, bytes, wordByte_fourBytes, Fips197.subWord, wordOf, ← toField_sbox]
  exact congrArg toField (entries_eq (fun k => sbox (wordByte w k)) r)

theorem wordOf_top (a : UInt8) : wordOf (a.toUInt32 <<< 24) = ![toField a, 0, 0, 0] := by
  have bytes : a.toUInt32 <<< 24 = fourBytes a 0 0 0 := by simp [fourBytes]
  funext r
  rw [wordOf, bytes, wordByte_fourBytes]
  fin_cases r
  · rfl
  all_goals exact toField_zero

theorem wordOf_keyWord (key : List UInt8) (i : ℕ) : wordOf (keyWord key i) = keyWords key i := by
  funext r
  have bytes : keyWord key i =
      fourBytes (key.getD (4 * i) 0) (key.getD (4 * i + 1) 0) (key.getD (4 * i + 2) 0) (key.getD (4 * i + 3) 0) := rfl
  rw [wordOf, bytes, wordByte_fourBytes, keyWords]
  exact congrArg toField (entries_eq (fun k => key.getD (4 * i + k) 0) r)

/-! The key schedule. -/

variable {size : Fips197.KeySize} {key : List UInt8} {rk : Vector UInt32 60} {i : ℕ}

theorem wordOf_expandTemp (behind : size.words ≤ i) (lookup : i / size.words < 11) (temp : UInt32) :
    wordOf (expandTemp size.words i temp) = Fips197.scheduleTemp size i (wordOf temp) := by
  have positive : 1 ≤ i / size.words := (Nat.one_le_div_iff size.words_pos).mpr behind
  unfold expandTemp Fips197.scheduleTemp
  split
  · rw [wordOf_xor, wordOf_SUBWORD, wordOf_ROTWORD, wordOf_top, toField_RCON positive lookup]
    rfl
  · split
    · exact wordOf_SUBWORD temp
    · rfl

/-- The first `count` words are those of the standard. -/
def Expanded (size : Fips197.KeySize) (key : List UInt8) (rk : Vector UInt32 60) (count : ℕ) : Prop :=
  ∀ i < count, wordOf (rk.getD i 0) = Fips197.keyExpansion size (keyWords key) i

theorem getD_set (rk : Vector UInt32 60) (w : UInt32) {i j : ℕ} (inside : i < 60) :
    (rk.setIfInBounds i w).getD j 0 = if j = i then w else rk.getD j 0 := by
  have lookup (words : Vector UInt32 60) : words.getD j 0 = words[j]?.getD 0 := by simp [Vector.getD]
  rw [lookup, lookup, Vector.getElem?_setIfInBounds, if_pos inside]
  by_cases here : j = i
  · rw [if_pos here.symm, if_pos here, Option.getD_some]
  · rw [if_neg (Ne.symm here), if_neg here]

theorem load_run (key : List UInt8) (rk : Vector UInt32 60) {count : ℕ} (fits : count ≤ 60) : ∀ j < count,
    ((List.range count).foldl (fun rk i => rk.setIfInBounds i (keyWord key i)) rk).getD j 0 = keyWord key j := by
  induction count with
  | zero => exact fun j inside => absurd inside (Nat.not_lt_zero j)
  | succ count ih =>
    intro j inside
    rw [List.range_succ, List.foldl_append, List.foldl_cons, List.foldl_nil, getD_set _ _ fits]
    by_cases last : j = count
    · rw [if_pos last, last]
    · rw [if_neg last, ih (by omega) j (by omega)]

theorem expanded_load (loaded : ∀ j < size.words, rk.getD j 0 = keyWord key j) : Expanded size key rk size.words := by
  intro j inside
  rw [loaded j inside, wordOf_keyWord, Fips197.keyExpansion_key inside]

theorem expanded_step (behind : size.words ≤ i) (inside : i < 60) (lookup : i / size.words < 11)
    (expanded : Expanded size key rk i) : Expanded size key (expandStep size.words rk i) (i + 1) := by
  have positive := size.words_pos
  intro j within
  rw [expandStep, getD_set _ _ inside]
  by_cases last : j = i
  · rw [if_pos last, last, wordOf_xor, wordOf_expandTemp behind lookup, expanded _ (by omega), expanded _ (by omega),
      ← Fips197.keyExpansion_step behind]
  · rw [if_neg last, expanded j (by omega)]

theorem schedule_fits (size : Fips197.KeySize) :
    size.words ≤ 8 ∧ size.rounds ≤ 14 ∧ size.words ≤ 4 * (size.rounds + 1) ∧ 4 * (size.rounds + 1) ≤ 11 * size.words := by
  cases size <;> decide

theorem expand_run (expanded : Expanded size key rk size.words) {count : ℕ}
    (within : size.words + count ≤ 4 * (size.rounds + 1)) :
    Expanded size key ((List.range' size.words count).foldl (expandStep size.words) rk) (size.words + count) := by
  obtain ⟨-, few, -, lasts⟩ := schedule_fits size
  induction count with
  | zero => exact expanded
  | succ count ih =>
    have before := ih (by omega)
    have lookup : (size.words + count) / size.words < 11 := by
      rw [Nat.div_lt_iff_lt_mul size.words_pos]
      omega
    rw [List.range'_1_concat, List.foldl_append]
    exact expanded_step (Nat.le_add_right _ _) (by omega) lookup before

theorem keySchedule_size (size : Fips197.KeySize) : keySchedule (32 * size.words) = some (size.words, size.rounds) := by
  cases size <;> rfl

theorem aesSetEncryptKey_expanded (size : Fips197.KeySize) (key : List UInt8) (before : AesCtx) :
    ∃ ctx, aesSetEncryptKey before key (32 * size.words) = some ctx ∧ ctx.rounds = size.rounds ∧
      Expanded size key ctx.rk (4 * (size.rounds + 1)) := by
  obtain ⟨short, -, covered, -⟩ := schedule_fits size
  have loaded := expanded_load (load_run key before.rk (show size.words ≤ 60 by omega))
  have expanded := expand_run loaded (show size.words + (4 * (size.rounds + 1) - size.words) ≤ 4 * (size.rounds + 1) by omega)
  rw [Nat.add_sub_cancel' covered] at expanded
  rw [aesSetEncryptKey, keySchedule_size]
  exact ⟨_, rfl, rfl, expanded⟩

/-- A key that is taken has one of the three sizes. -/
theorem expanded_of_set {before ctx : AesCtx} {keyBits : ℕ} (set : aesSetEncryptKey before key keyBits = some ctx) :
    ∃ size : Fips197.KeySize, keyBits = 32 * size.words ∧ ctx.rounds = size.rounds ∧
      Expanded size key ctx.rk (4 * (size.rounds + 1)) := by
  have known : ∃ size : Fips197.KeySize, keyBits = 32 * size.words := by
    unfold aesSetEncryptKey keySchedule at set
    split at set
    · contradiction
    · rename_i sizes
      split at sizes
      · exact ⟨.bits128, rfl⟩
      · exact ⟨.bits192, rfl⟩
      · exact ⟨.bits256, rfl⟩
      · contradiction
  obtain ⟨size, rfl⟩ := known
  obtain ⟨ctx', set', rounds, expanded⟩ := aesSetEncryptKey_expanded size key before
  rw [set] at set'
  rw [Option.some.inj set']
  exact ⟨size, rfl, rounds, expanded⟩

/-! The state. -/

theorem entry_addRoundKey (s : Block) (first : ℕ) (r c : Fin 4) :
    entry (addRoundKey s rk first) r c = entry s r c ^^^ wordByte (rk.getD (first + c.val) 0) r.val := by
  have column : (4 * c.val + r.val) / 4 = c.val := by omega
  have row : (4 * c.val + r.val) % 4 = r.val := by omega
  simp only [entry, addRoundKey, Fin.getElem_fin, Vector.getElem_ofFn, column, row]
  rfl

theorem stateOf_addRoundKey {w : ℕ → Fips197.Word} {round : ℕ} (s : Block)
    (keyed : ∀ c < 4, wordOf (rk.getD (4 * round + c) 0) = w (4 * round + c)) :
    stateOf (addRoundKey s rk (4 * round)) = Fips197.addRoundKey w round (stateOf s) := by
  ext r c
  have word := congrFun (keyed c.val c.isLt) r
  rw [stateOf, Matrix.of_apply, entry_addRoundKey, toField_xor, Fips197.addRoundKey, Matrix.of_apply, ← word]
  rfl

theorem stateOf_subBytes (s : Block) : stateOf (subBytes s) = Fips197.subBytes (stateOf s) := by
  ext r c
  have byte : entry (subBytes s) r c = sbox (entry s r c) := Vector.getElem_map sbox _
  rw [stateOf, Matrix.of_apply, byte, toField_sbox]
  rfl

theorem stateOf_shiftRows (s : Block) : stateOf (shiftRows s) = Fips197.shiftRows (stateOf s) := by
  ext r c
  apply congrArg toField
  fin_cases r <;> fin_cases c <;> rfl

theorem getElem_columns (p q u v : Vector UInt8 4) (r : Fin 4) :
    (p ++ q ++ u ++ v)[4 * 0 + r.val] = p[r] ∧ (p ++ q ++ u ++ v)[4 * 1 + r.val] = q[r] ∧
      (p ++ q ++ u ++ v)[4 * 2 + r.val] = u[r] ∧ (p ++ q ++ u ++ v)[4 * 3 + r.val] = v[r] := by
  have row := r.isLt
  constructor
  · rw [Vector.getElem_append_left (by omega), Vector.getElem_append_left (by omega), Vector.getElem_append_left (by omega)]
    simp
  constructor
  · rw [Vector.getElem_append_left (by omega), Vector.getElem_append_left (by omega), Vector.getElem_append_right _ (by omega)]
    simp
  constructor
  · rw [Vector.getElem_append_left (by omega), Vector.getElem_append_right _ (by omega)]
    simp
  · rw [Vector.getElem_append_right _ (by omega)]
    simp

theorem entry_columns (p q u v : Vector UInt8 4) (r c : Fin 4) : entry (p ++ q ++ u ++ v) r c = (![p, q, u, v] c)[r] := by
  obtain ⟨first, second, third, fourth⟩ := getElem_columns p q u v r
  fin_cases c
  · exact first
  · exact second
  · exact third
  · exact fourth

theorem entry_mixColumns (s : Block) (r c : Fin 4) :
    entry (mixColumns s) r c =
      entry s r c ^^^ (entry s 0 c ^^^ entry s 1 c ^^^ entry s 2 c ^^^ entry s 3 c ^^^ xtime (entry s r c ^^^ entry s (r + 1) c)) := by
  have column : ![mixColumn s[0] s[1] s[2] s[3], mixColumn s[4] s[5] s[6] s[7], mixColumn s[8] s[9] s[10] s[11],
      mixColumn s[12] s[13] s[14] s[15]] c = mixColumn (entry s 0 c) (entry s 1 c) (entry s 2 c) (entry s 3 c) := by
    fin_cases c <;> rfl
  rw [mixColumns, entry_columns, column]
  fin_cases r <;> rfl

/-- The row's own byte is added twice and drops out. -/
theorem stateOf_mixColumns (s : Block) : stateOf (mixColumns s) = Fips197.mixColumns (stateOf s) := by
  ext r c
  rw [stateOf, Matrix.of_apply, entry_mixColumns, Fips197.mixColumns, Matrix.mul_apply, Fin.sum_univ_four]
  simp only [toField_xor, toField_xtime, stateOf, Matrix.of_apply]
  fin_cases r
  · simp
    linear_combination toField (entry s 0 c) * two_eq_zero
  · simp
    linear_combination toField (entry s 1 c) * two_eq_zero
  · simp
    linear_combination toField (entry s 2 c) * two_eq_zero
  · simp
    linear_combination toField (entry s 3 c) * two_eq_zero

theorem stateOf_aesRound {w : ℕ → Fips197.Word} {round : ℕ} (s : Block)
    (keyed : ∀ c < 4, wordOf (rk.getD (4 * round + c) 0) = w (4 * round + c)) :
    stateOf (aesRound rk s round) = Fips197.cipherRound w (stateOf s) round := by
  rw [aesRound, stateOf_addRoundKey _ keyed, stateOf_mixColumns, stateOf_shiftRows, stateOf_subBytes]
  rfl

theorem stateOf_rounds {w : ℕ → Fips197.Word} (rounds : List ℕ) (s : Block)
    (keyed : ∀ round ∈ rounds, ∀ c < 4, wordOf (rk.getD (4 * round + c) 0) = w (4 * round + c)) :
    stateOf (rounds.foldl (aesRound rk) s) = rounds.foldl (Fips197.cipherRound w) (stateOf s) := by
  induction rounds generalizing s with
  | nil => rfl
  | cons round rounds ih =>
    have first := stateOf_aesRound s (keyed round List.mem_cons_self)
    rw [List.foldl_cons, List.foldl_cons, ih _ fun other member => keyed other (List.mem_cons_of_mem _ member), first]

theorem stateOf_aesEncryptBlock {ctx : AesCtx} (rounds : ctx.rounds = size.rounds)
    (expanded : Expanded size key ctx.rk (4 * (size.rounds + 1))) (input : Block) :
    stateOf (aesEncryptBlock ctx input) = Fips197.cipher size (Fips197.keyExpansion size (keyWords key)) (stateOf input) := by
  have keyed (round : ℕ) (within : round ≤ size.rounds) : ∀ c < 4,
      wordOf (ctx.rk.getD (4 * round + c) 0) = Fips197.keyExpansion size (keyWords key) (4 * round + c) :=
    fun c inside => expanded _ (by omega)
  have first := stateOf_addRoundKey input (keyed 0 (Nat.zero_le _))
  have middle (s : Block) := stateOf_rounds (List.range' 1 (size.rounds - 1)) s fun round member => by
    obtain ⟨-, inside⟩ := List.mem_range'_1.mp member
    exact keyed round (by omega)
  have last (s : Block) := stateOf_addRoundKey s (keyed size.rounds (Nat.le_refl _))
  rw [Nat.mul_zero] at first
  let s := (List.range' 1 (size.rounds - 1)).foldl (aesRound ctx.rk) (addRoundKey input ctx.rk 0)
  calc
    _ = stateOf (addRoundKey (shiftRows (subBytes s)) ctx.rk (4 * size.rounds)) := by rw [aesEncryptBlock, rounds]
    _ = Fips197.addRoundKey _ size.rounds (Fips197.shiftRows (Fips197.subBytes (stateOf s))) := by
      rw [last, stateOf_shiftRows, stateOf_subBytes]
    _ = _ := by
      rw [middle, first]
      rfl

/-- States tell blocks apart. -/
theorem stateOf_injective : Function.Injective stateOf := by
  intro s t same
  apply Vector.ext
  intro i inside
  have equal := congrFun (congrFun same ⟨i % 4, Nat.mod_lt _ (by decide)⟩) ⟨i / 4, by omega⟩
  have bytes : entry s ⟨i % 4, Nat.mod_lt _ (by decide)⟩ ⟨i / 4, by omega⟩ = entry t ⟨i % 4, Nat.mod_lt _ (by decide)⟩ ⟨i / 4, by omega⟩ :=
    toField_injective equal
  simp only [entry, Fin.getElem_fin, Nat.div_add_mod] at bytes
  exact bytes

/-- Key expansion and cipher are those of FIPS 197, and no index leaves its array. -/
theorem aes_eq_fips197 (size : Fips197.KeySize) (key : Vector UInt8 (4 * size.words)) (before : AesCtx) (input : Block) :
    ∃ ctx output, aesSetEncryptKey before key.toList (32 * size.words) = some ctx ∧ aesEncryptBlock ctx input = output ∧
      stateOf output = Fips197.cipher size (Fips197.keyExpansion size (keyWords key.toList)) (stateOf input) ∧
      aesSetEncryptKeyChecked before key.toList (32 * size.words) = some (some ctx) ∧
      aesEncryptBlockChecked ctx input = some output := by
  obtain ⟨-, few, -⟩ := schedule_fits size
  obtain ⟨ctx, set, rounds, expanded⟩ := aesSetEncryptKey_expanded size key.toList before
  have enough : 32 * size.words ≤ 8 * key.toList.length := by
    rw [Vector.length_toList]
    omega
  have limit : ctx.rounds ≤ 14 := by
    rw [rounds]
    exact few
  refine ⟨ctx, aesEncryptBlock ctx input, set, rfl, stateOf_aesEncryptBlock rounds expanded input, ?_, ?_⟩
  · rw [aesSetEncryptKeyChecked_eq before enough, set]
  · exact aesEncryptBlockChecked_eq limit input

end Coalesce.AesStandard
