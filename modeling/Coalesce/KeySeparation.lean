import Coalesce.KeyDerivation
import Coalesce.MpintForm

/-! Which keys can be the same. Every block of key material is the digest of a message that
tells the block's place, its letter and the exchange it belongs to. -/

namespace Coalesce.KeySeparation
open Library.ByteNumber Library.KeyExpansion Buffer BufferReaders Codec MpintForm Sha256 KeyDerivation

/-- What a key is derived from. The shared secret is a magnitude, which goes into the hash as
an mpint. -/
structure Derivation where
  letter : UInt8
  secret : List UInt8
  h : List UInt8
  sessionId : List UInt8
  deriving DecidableEq, Repr

/-- Exchange hash and session identifier are digests. -/
structure Derivation.Fitting (d : Derivation) : Prop where
  secret : d.secret.length < 2 ^ 32 - 1
  h : d.h.length = SHA256_DIGEST_SIZE
  sessionId : d.sessionId.length = SHA256_DIGEST_SIZE

/-- The call, into storage that holds some bytes already. -/
def Derivation.key (d : Derivation) (before : List UInt8) (keyLen : Nat) : Option (List UInt8) :=
  kexDeriveKey d.letter (some (mpintBytes d.secret)) (mpintBytes d.secret).length (some d.h) d.h.length (some d.sessionId)
    d.sessionId.length (some before) keyLen

/-- What is hashed for a block. -/
def Derivation.hashed (d : Derivation) (index : Nat) : List UInt8 :=
  message Library.Sha2.sha256 (mpintBytes d.secret ++ d.h) (d.letter :: d.sessionId) index

/-- One digest's worth of a key. -/
def block (key : List UInt8) (index : Nat) : List UInt8 := (key.drop (SHA256_DIGEST_SIZE * index)).take SHA256_DIGEST_SIZE

/-- One letter, one shared number, one exchange, one session. -/
structure Same (d d' : Derivation) : Prop where
  letter : d.letter = d'.letter
  secret : beNat d.secret = beNat d'.secret
  h : d.h = d'.h
  sessionId : d.sessionId = d'.sessionId

/-- Two messages that are hashed up to these blocks are different and have one digest. -/
def Collides (d d' : Derivation) (i j : Nat) : Prop :=
  ∃ a ≤ i, ∃ b ≤ j, d.hashed a ≠ d'.hashed b ∧ Library.Sha2.sha256 (d.hashed a) = Library.Sha2.sha256 (d'.hashed b)

/-! An mpint ends where its length says. -/

theorem mpint_split {first second rest rest' : List UInt8} (short : first.length < 2 ^ 32 - 1)
    (short' : second.length < 2 ^ 32 - 1) (same : mpintBytes first ++ rest = mpintBytes second ++ rest') :
    mpintBytes first = mpintBytes second ∧ rest = rest' := by
  have size := mpintBody_length first
  have size' := mpintBody_length second
  unfold mpintBytes at same
  rw [List.append_assoc, List.append_assoc] at same
  obtain ⟨fields, -⟩ := List.append_inj same rfl
  have words : UInt32.ofNat (mpintBody first).length = UInt32.ofNat (mpintBody second).length := by
    rw [← ofNat_be32 (UInt32.ofNat (mpintBody first).length), fields, ofNat_be32]
  have numbers := congrArg UInt32.toNat words
  rw [UInt32.toNat_ofNat_of_lt' (by unfold UInt32.size; omega), UInt32.toNat_ofNat_of_lt' (by unfold UInt32.size; omega)] at numbers
  rw [← List.append_assoc, ← List.append_assoc] at same
  exact List.append_inj same (by rw [mpintBytes, mpintBytes, List.length_append, List.length_append, numbers])

theorem shared_split {d d' : Derivation} (fitting : d.Fitting) (fitting' : d'.Fitting) (rest rest' : List UInt8)
    (same : mpintBytes d.secret ++ d.h ++ rest = mpintBytes d'.secret ++ d'.h ++ rest') :
    mpintBytes d.secret ++ d.h = mpintBytes d'.secret ++ d'.h ∧ rest = rest' := by
  rw [List.append_assoc, List.append_assoc] at same
  obtain ⟨secrets, behind⟩ := mpint_split fitting.secret fitting'.secret same
  obtain ⟨hashes, rests⟩ := List.append_inj behind (by rw [fitting.h, fitting'.h])
  exact ⟨by rw [secrets, hashes], rests⟩

/-! Blocks. -/

theorem Derivation.Fitting.uneven {d : Derivation} (fitting : d.Fitting) : ¬SHA256_DIGEST_SIZE ∣ (d.letter :: d.sessionId).length := by
  rw [List.length_cons, fitting.sessionId]
  decide

/-- A block that lies within a key is the digest of its message. -/
theorem key_block {d : Derivation} (fitting : d.Fitting) {before : List UInt8} {keyLen : Nat} (some_bytes : 0 < keyLen)
    (space : keyLen ≤ before.length) (short : keyLen < 2 ^ 59) :
    ∃ key, d.key before keyLen = some key ∧ key.length = before.length ∧
      ∀ index, SHA256_DIGEST_SIZE * (index + 1) ≤ keyLen → block key index = Library.Sha2.sha256 (d.hashed index) := by
  have size := mpintBody_length d.secret
  have fits := fitting.secret
  have total : (mpintBytes d.secret).length + d.h.length + d.sessionId.length + keyLen < 2 ^ 60 := by
    rw [mpintBytes, List.length_append, be32_length, fitting.h, fitting.sessionId, SHA256_DIGEST_SIZE]
    omega
  obtain ⟨key, derived, whole⟩ := @kexDeriveKey_derived d.letter (mpintBytes d.secret) d.h d.sessionId before keyLen some_bytes
    space total
  refine ⟨key, derived, whole.length, fun index inside => ?_⟩
  have material := whole.bytes keyLen (Nat.le_mul_of_pos_left _ (by decide))
  have within (bytes : List UInt8) : block bytes index = block (bytes.take keyLen) index := by
    rw [Nat.mul_succ] at inside
    rw [block, block, List.drop_take, List.take_take, Nat.min_eq_left (by omega)]
  rw [within, material, ← within]
  rw [SHA256_DIGEST_SIZE] at inside
  exact expand_block _ _ _ Library.Sha2.sha256_length (by omega)

/-- Two keys, of any lengths: where they are derived from the same, so are their blocks at the
same place. Where any two whole blocks of theirs agree, they are derived from the same and the
blocks stand at the same place, or two messages that were hashed for them collide. -/
theorem keys_separate (d d' : Derivation) (fitting : d.Fitting) (fitting' : d'.Fitting) (before before' : List UInt8)
    (keyLen keyLen' : Nat) (space : 0 < keyLen ∧ keyLen ≤ before.length) (space' : 0 < keyLen' ∧ keyLen' ≤ before'.length)
    (short : keyLen < 2 ^ 59 ∧ keyLen' < 2 ^ 59) :
    ∃ key key', d.key before keyLen = some key ∧ d'.key before' keyLen' = some key' ∧
      ∀ i j, SHA256_DIGEST_SIZE * (i + 1) ≤ keyLen → SHA256_DIGEST_SIZE * (j + 1) ≤ keyLen' →
        (Same d d' → i = j → block key i = block key' j) ∧
          (block key i = block key' j → (Same d d' ∧ i = j) ∨ Collides d d' i j) := by
  obtain ⟨key, derived, -, blocks⟩ := key_block fitting space.1 space.2 short.1
  obtain ⟨key', derived', -, blocks'⟩ := key_block fitting' space'.1 space'.2 short.2
  refine ⟨key, key', derived, derived', fun i j inside inside' => ?_⟩
  rw [blocks i inside, blocks' j inside']
  constructor
  · intro same index
    have secrets := (mpintBytes_eq_iff d.secret d'.secret).mpr same.secret
    rw [index, Derivation.hashed, Derivation.hashed, same.letter, secrets, same.h, same.sessionId]
  · intro same
    rcases expand_separates Library.Sha2.sha256 _ _ Library.Sha2.sha256_length (by decide) (shared_split fitting fitting')
      fitting.uneven fitting'.uneven same with ⟨shared, starts, index⟩ | collides
    · obtain ⟨letters, sessions⟩ := List.cons.inj starts
      obtain ⟨secrets, hashes⟩ := List.append_inj' shared (by rw [fitting.h, fitting'.h])
      exact Or.inl ⟨⟨letters, (mpintBytes_eq_iff _ _).mp secrets, hashes, sessions⟩, index⟩
    · exact Or.inr collides

/-- The initial vectors of both directions. -/
def initialVector (letter : UInt8) : Derivation := ⟨letter, [1], List.replicate 32 0, List.replicate 32 0⟩

theorem initialVector_fitting (letter : UInt8) : (initialVector letter).Fitting :=
  ⟨show [1].length < 2 ^ 32 - 1 by decide, rfl, rfl⟩

theorem keys_separate_initial_vectors :
    ∃ key key', (initialVector 65).key (List.replicate 32 0) 32 = some key ∧
      (initialVector 66).key (List.replicate 32 0) 32 = some key' ∧
      ∀ i j, SHA256_DIGEST_SIZE * (i + 1) ≤ 32 → SHA256_DIGEST_SIZE * (j + 1) ≤ 32 →
        (Same (initialVector 65) (initialVector 66) → i = j → block key i = block key' j) ∧
          (block key i = block key' j → (Same (initialVector 65) (initialVector 66) ∧ i = j) ∨
            Collides (initialVector 65) (initialVector 66) i j) :=
  keys_separate (initialVector 65) (initialVector 66) (initialVector_fitting 65) (initialVector_fitting 66) _ _ 32 32 (by decide)
    (by decide) (by decide)

end Coalesce.KeySeparation
