import Coalesce.Library.KeyExpansion
import Coalesce.Sha256

/-! Key derivation, from kex.c: the loop hashes what it has written so far. -/

namespace Coalesce.KeyDerivation
open Library.BlockHash Library.KeyExpansion Sha256

/-- `K1`, from a hash over four updates. -/
def firstDigest (letter : UInt8) (kMpint h sessionId : List UInt8) : List UInt8 :=
  let ctx := sha256Update (sha256Update (sha256Init storage) kMpint) h
  sha256Final (sha256Update (sha256Update ctx [letter]) sessionId)

/-- The digest of one pass of the loop, over the key as far as it is written. -/
def nextDigest (kMpint h derived : List UInt8) : List UInt8 :=
  sha256Final (sha256Update (sha256Update (sha256Update (sha256Init storage) kMpint) h) derived)

/-- The bytes of a digest that the key still takes. -/
def chunkSize (left : Nat) : Nat := if left < SHA256_DIGEST_SIZE then left else SHA256_DIGEST_SIZE

theorem chunkSize_pos {left : Nat} (positive : 0 < left) : 0 < chunkSize left := by
  unfold chunkSize SHA256_DIGEST_SIZE
  split <;> omega

theorem chunkSize_le (left : Nat) : chunkSize left ≤ left := by
  unfold chunkSize SHA256_DIGEST_SIZE
  split <;> omega

theorem chunkSize_block (left : Nat) : chunkSize left ≤ SHA256_DIGEST_SIZE := by
  unfold chunkSize
  split <;> omega

theorem chunkSize_full {left : Nat} (more : chunkSize left < left) : chunkSize left = SHA256_DIGEST_SIZE := by
  unfold chunkSize at more ⊢
  split at more
  · omega
  · exact if_neg (by assumption)

/-- `while (written < key_len)`, on the storage at `out_key`. -/
def deriveLoop (kMpint h : List UInt8) (keyLen written : Nat) (outKey : List UInt8) : List UInt8 :=
  if more : written < keyLen then
    let digest := nextDigest kMpint h (outKey.take written)
    let chunk := chunkSize (keyLen - written)
    have shorter : keyLen - (written + chunk) < keyLen - written := by
      have positive := chunkSize_pos (Nat.sub_pos_of_lt more)
      omega
    deriveLoop kMpint h keyLen (written + chunk) (copyAt outKey written (digest.take chunk))
  else outKey
termination_by keyLen - written

/-- Pointers are NULL or give the bytes they point to; the result is the storage at
`out_key`, or none for -1. -/
def kexDeriveKey (letter : UInt8) (kMpint : Option (List UInt8)) (kLen : Nat) (h : Option (List UInt8)) (hLen : Nat)
    (sessionId : Option (List UInt8)) (sessionIdLen : Nat) (outKey : Option (List UInt8)) (keyLen : Nat) :
    Option (List UInt8) :=
  match kMpint, h, sessionId, outKey with
  | some kMpint, some h, some sessionId, some outKey =>
    if keyLen = 0 then none
    else
      let k := kMpint.take kLen
      let hash := h.take hLen
      let digest := firstDigest letter k hash (sessionId.take sessionIdLen)
      let chunk := chunkSize keyLen
      some (deriveLoop k hash keyLen chunk (copyAt outKey 0 (digest.take chunk)))
  | _, _, _, _ => none

/-! Against RFC 4253. -/

/-- `K1 || K2 || ... || Kn` -/
def keyMaterial (letter : UInt8) (k h sessionId : List UInt8) : Nat → List UInt8 :=
  expand Library.Sha2.sha256 (k ++ h) (letter :: sessionId)

theorem firstDigest_eq {letter : UInt8} {k h sessionId : List UInt8}
    (short : k.length + h.length + sessionId.length < 2 ^ 60) :
    firstDigest letter k h sessionId = keyMaterial letter k h sessionId 1 := by
  have stream := sha256_stream storage rfl [k, h, [letter], sessionId] (by simp; omega)
  simpa [firstDigest, keyMaterial, expand] using stream

theorem nextDigest_eq {k h derived : List UInt8} (short : k.length + h.length + derived.length < 2 ^ 61) :
    nextDigest k h derived = Library.Sha2.sha256 (k ++ h ++ derived) := by
  have stream := sha256_stream storage rfl [k, h, derived] (by simp; omega)
  simpa [nextDigest] using stream

theorem keyMaterial_length (letter : UInt8) (k h sessionId : List UInt8) (count : Nat) :
    (keyMaterial letter k h sessionId count).length = SHA256_DIGEST_SIZE * count :=
  expand_length _ _ _ Library.Sha2.sha256_length count

theorem keyMaterial_take {letter : UInt8} {k h sessionId : List UInt8} {length count more : Nat}
    (enough : length ≤ SHA256_DIGEST_SIZE * count) (enough' : length ≤ SHA256_DIGEST_SIZE * more) :
    (keyMaterial letter k h sessionId count).take length = (keyMaterial letter k h sessionId more).take length :=
  expand_take _ _ _ Library.Sha2.sha256_length enough enough'

section
variable {letter : UInt8} {k h sessionId before outKey : List UInt8} {keyLen written count : Nat}

/-- The invariant of the loop: the front of the storage holds key material, in whole blocks
as long as more is to come, and the rest is as it was. -/
structure Derived (letter : UInt8) (k h sessionId before : List UInt8) (keyLen written : Nat) (outKey : List UInt8) :
    Prop where
  length : outKey.length = before.length
  within : written ≤ keyLen
  whole : written < keyLen → ∃ count, 0 < count ∧ written = SHA256_DIGEST_SIZE * count
  bytes : ∀ count, written ≤ SHA256_DIGEST_SIZE * count →
    outKey.take written = (keyMaterial letter k h sessionId count).take written
  behind : outKey.drop written = before.drop written

/-- One block more, cut to what the key still takes. -/
theorem derived_append {digest : List UInt8} (more : SHA256_DIGEST_SIZE * count < keyLen) (space : keyLen ≤ before.length)
    (length : outKey.length = before.length)
    (here : outKey.take (SHA256_DIGEST_SIZE * count) = keyMaterial letter k h sessionId count)
    (behind : outKey.drop (SHA256_DIGEST_SIZE * count) = before.drop (SHA256_DIGEST_SIZE * count))
    (grown : keyMaterial letter k h sessionId (count + 1) = keyMaterial letter k h sessionId count ++ digest) :
    Derived letter k h sessionId before keyLen
      (SHA256_DIGEST_SIZE * count + chunkSize (keyLen - SHA256_DIGEST_SIZE * count))
      (copyAt outKey (SHA256_DIGEST_SIZE * count)
        (digest.take (chunkSize (keyLen - SHA256_DIGEST_SIZE * count)))) := by
  have total := keyMaterial_length letter k h sessionId (count + 1)
  have front := keyMaterial_length letter k h sessionId count
  rw [grown, List.length_append, front, Nat.mul_succ] at total
  have left := chunkSize_le (keyLen - SHA256_DIGEST_SIZE * count)
  have block := chunkSize_block (keyLen - SHA256_DIGEST_SIZE * count)
  have full := @chunkSize_full (keyLen - SHA256_DIGEST_SIZE * count)
  generalize chunkSize (keyLen - SHA256_DIGEST_SIZE * count) = chunk at left block full
  have taken : (digest.take chunk).length = chunk := by
    rw [List.length_take]
    omega
  refine ⟨?_, by omega, fun unfinished => ?_, fun enough reach => ?_, ?_⟩
  · rw [copyAt_length _ _ _ (by omega), length]
  · exact ⟨count + 1, Nat.succ_pos count, by rw [full (by omega), Nat.mul_succ]⟩
  · have copied := copyAt_take outKey (digest.take chunk) (SHA256_DIGEST_SIZE * count) (by omega)
    rw [taken, here] at copied
    have made : (keyMaterial letter k h sessionId (count + 1)).take (SHA256_DIGEST_SIZE * count + chunk) =
        keyMaterial letter k h sessionId count ++ digest.take chunk := by
      rw [grown, ← front, List.take_length_add_append]
    rw [copied, ← made]
    exact keyMaterial_take (by rw [Nat.mul_succ]; omega) reach
  · have start : (outKey.take (SHA256_DIGEST_SIZE * count) ++ digest.take chunk).length =
        SHA256_DIGEST_SIZE * count + chunk := by
      rw [List.length_append, List.length_take, taken]
      omega
    rw [copyAt, taken, ← start, List.drop_left, start, ← List.drop_drop, behind, List.drop_drop]

theorem derived_first (positive : 0 < keyLen) (space : keyLen ≤ before.length)
    (short : k.length + h.length + sessionId.length < 2 ^ 60) :
    Derived letter k h sessionId before keyLen (chunkSize keyLen)
      (copyAt before 0 ((firstDigest letter k h sessionId).take (chunkSize keyLen))) := by
  have first := @derived_append letter k h sessionId before before keyLen 0 (firstDigest letter k h sessionId) positive
    space rfl rfl rfl (by rw [firstDigest_eq short]; rfl)
  rw [Nat.mul_zero, Nat.zero_add, Nat.sub_zero] at first
  exact first

/-- The step lemma of the loop. -/
theorem Derived.next (derived : Derived letter k h sessionId before keyLen written outKey) (more : written < keyLen)
    (space : keyLen ≤ before.length) (short : k.length + h.length + keyLen < 2 ^ 60) :
    Derived letter k h sessionId before keyLen (written + chunkSize (keyLen - written))
      (copyAt outKey written ((nextDigest k h (outKey.take written)).take (chunkSize (keyLen - written)))) := by
  obtain ⟨count, positive, rfl⟩ := derived.whole more
  have here := derived.bytes count (Nat.le_refl _)
  rw [← keyMaterial_length letter k h sessionId count, List.take_length, keyMaterial_length] at here
  apply derived_append more space derived.length here derived.behind
  rw [here, nextDigest_eq (by rw [keyMaterial_length]; omega)]
  exact expand_succ _ _ _ positive

theorem Derived.loop (derived : Derived letter k h sessionId before keyLen written outKey)
    (space : keyLen ≤ before.length) (short : k.length + h.length + keyLen < 2 ^ 60) :
    Derived letter k h sessionId before keyLen keyLen (deriveLoop k h keyLen written outKey) := by
  induction written, outKey using deriveLoop.induct k h keyLen with
  | case1 written outKey more digest chunk shorter ih =>
    rw [deriveLoop, dif_pos more]
    exact ih (derived.next more space short)
  | case2 written outKey last =>
    have finished : written = keyLen := Nat.le_antisymm derived.within (Nat.le_of_not_lt last)
    rw [deriveLoop, dif_neg last]
    rw [finished] at derived
    exact derived

theorem kexDeriveKey_derived (positive : 0 < keyLen) (space : keyLen ≤ before.length)
    (short : k.length + h.length + sessionId.length + keyLen < 2 ^ 60) :
    ∃ after, kexDeriveKey letter (some k) k.length (some h) h.length (some sessionId) sessionId.length (some before) keyLen =
      some after ∧ Derived letter k h sessionId before keyLen keyLen after := by
  have first := @derived_first letter k h sessionId before keyLen positive space (by omega)
  refine ⟨_, ?_, first.loop space (by omega)⟩
  unfold kexDeriveKey
  simp only [Nat.ne_of_gt positive, if_false, List.take_length]

end

/-- The key is the front of the RFC's key material, and a shorter key the front of a longer one. -/
theorem derives_key_material (letter : UInt8) (k h sessionId before : List UInt8) (keyLen : Nat) (positive : 0 < keyLen)
    (space : keyLen ≤ before.length) (short : k.length + h.length + sessionId.length + keyLen < 2 ^ 60) :
    ∃ after, kexDeriveKey letter (some k) k.length (some h) h.length (some sessionId) sessionId.length (some before) keyLen =
        some after ∧
      after.length = before.length ∧ after.drop keyLen = before.drop keyLen ∧
      (∀ count, keyLen ≤ SHA256_DIGEST_SIZE * count →
        after.take keyLen = (keyMaterial letter k h sessionId count).take keyLen) ∧
      ∀ (shorter : Nat) (other : List UInt8), 0 < shorter → shorter ≤ keyLen → shorter ≤ other.length →
        ∃ after', kexDeriveKey letter (some k) k.length (some h) h.length (some sessionId) sessionId.length (some other)
          shorter = some after' ∧ after'.take shorter <+: after.take keyLen := by
  obtain ⟨after, derived, whole⟩ := @kexDeriveKey_derived letter k h sessionId before keyLen positive space short
  refine ⟨after, derived, whole.length, whole.behind, whole.bytes, fun shorter other positive' fewer space' => ?_⟩
  obtain ⟨after', derived', part⟩ := @kexDeriveKey_derived letter k h sessionId other shorter positive' space' (by omega)
  have blocks : keyLen ≤ SHA256_DIGEST_SIZE * keyLen := Nat.le_mul_of_pos_left _ (by decide)
  refine ⟨after', derived', ?_⟩
  rw [part.bytes keyLen (Nat.le_trans fewer blocks), whole.bytes keyLen blocks]
  exact List.take_prefix_take_left fewer

/-- A key of one and a half digests. -/
theorem derives_key_material_two_blocks :
    let k : List UInt8 := [0, 0, 0, 2, 1, 7]
    let h := List.replicate 32 (5 : UInt8)
    let sessionId := List.replicate 32 (9 : UInt8)
    ∃ after, kexDeriveKey 67 (some k) k.length (some h) h.length (some sessionId) sessionId.length
        (some (List.replicate 50 0)) 48 = some after ∧
      after.length = (List.replicate 50 (0 : UInt8)).length ∧ after.drop 48 = (List.replicate 50 0).drop 48 ∧
      (∀ count, 48 ≤ SHA256_DIGEST_SIZE * count → after.take 48 = (keyMaterial 67 k h sessionId count).take 48) ∧
      ∀ (shorter : Nat) (other : List UInt8), 0 < shorter → shorter ≤ 48 → shorter ≤ other.length →
        ∃ after', kexDeriveKey 67 (some k) k.length (some h) h.length (some sessionId) sessionId.length (some other)
          shorter = some after' ∧ after'.take shorter <+: after.take 48 :=
  derives_key_material 67 [0, 0, 0, 2, 1, 7] (List.replicate 32 5) (List.replicate 32 9) (List.replicate 50 0) 48 (by decide)
    (by decide) (by decide)

end Coalesce.KeyDerivation
