import Coalesce.GroupArithmetic

/-! Bytes of field elements are canonical: they depend on the residue alone, and so do the
answers that are read off them. -/

namespace Coalesce.CanonicalField
open Library.ByteNumber Field25519 FieldArithmetic FieldBytes Primes25519 Ed25519 GroupArithmetic

variable {a b : Fe25519}

theorem tobytes_residue (below : Below (2 ^ 63) a) : fe25519Tobytes a = leBytes 32 (value a % P) := by
  rw [fe25519Tobytes_below below rfl, ZMod.val_natCast]

theorem leNat_tobytes (below : Below (2 ^ 63) a) : leNat (fe25519Tobytes a) = value a % P := by
  have small : value a % P < P := Nat.mod_lt _ (by decide)
  rw [tobytes_residue below, leNat_leBytes]
  exact Nat.mod_eq_of_lt (Nat.lt_trans small (by decide))

theorem tobytes_frombytes {s : List UInt8} (length : s.length = 32) :
    fe25519Tobytes (fe25519Frombytes s) = leBytes 32 (leNat s % 2 ^ 255 % P) := by
  have below : Below (2 ^ 63) (fe25519Frombytes s) := (reduced_frombytes s).below (by decide)
  rw [tobytes_residue below, frombytes_value length]

theorem tobytes_frombytes_iff {s : List UInt8} (length : s.length = 32) :
    fe25519Tobytes (fe25519Frombytes s) = s ↔ leNat s < P := by
  rw [tobytes_frombytes length]
  constructor
  · intro same
    have small : leNat s % 2 ^ 255 % P < P := Nat.mod_lt _ (by decide)
    calc
      leNat s = leNat (leBytes 32 (leNat s % 2 ^ 255 % P)) := by rw [same]
      _ = leNat s % 2 ^ 255 % P % 256 ^ 32 := leNat_leBytes 32 _
      _ ≤ leNat s % 2 ^ 255 % P := Nat.mod_le _ _
      _ < P := small
  · intro small
    have back := leBytes_leNat s
    rw [length] at back
    rw [Nat.mod_eq_of_lt (Nat.lt_trans small (by decide)), Nat.mod_eq_of_lt small, back]

theorem iszero_iff (below : Below (2 ^ 63) a) : fe25519Iszero a = true ↔ value a % P = 0 := by
  rw [fe25519Iszero_below below rfl, decide_eq_true_eq, ZMod.natCast_eq_zero_iff]
  exact Nat.dvd_iff_mod_eq_zero

theorem parity_residue (below : Below (2 ^ 63) a) : fe25519Parity a = value a % P % 2 := by
  rw [fe25519Parity_below below rfl, ZMod.val_natCast]

theorem equal_iff (first : Below (2 ^ 63) a) (second : Below (2 ^ 63) b) :
    feEqual a b = true ↔ value a % P = value b % P := by
  rw [feEqual_below first rfl second rfl, decide_eq_true_eq, ZMod.natCast_eq_natCast_iff']

/-- Writing is canonical, reading takes the low 255 bits, and the two are inverse below p.
Zero, parity and equality are those of the residues. -/
theorem field_serialization_canonical :
    (∀ a, Below (2 ^ 63) a → fe25519Tobytes a = leBytes 32 (value a % P) ∧ leNat (fe25519Tobytes a) < P) ∧
      (∀ s : Vector UInt8 32, Reduced (fe25519Frombytes s.toList) ∧
        value (fe25519Frombytes s.toList) = leNat s.toList % 2 ^ 255 ∧
        (fe25519Tobytes (fe25519Frombytes s.toList) = s.toList ↔ leNat s.toList < P)) ∧
      ∀ a, Below (2 ^ 63) a → (fe25519Iszero a = true ↔ value a % P = 0) ∧ fe25519Parity a = value a % P % 2 ∧
        ∀ b, Below (2 ^ 63) b → (feEqual a b = true ↔ value a % P = value b % P) := by
  constructor
  · intro a below
    rw [leNat_tobytes below]
    exact ⟨tobytes_residue below, Nat.mod_lt _ (by decide)⟩
  constructor
  · intro s
    have length : s.toList.length = 32 := Vector.length_toList
    exact ⟨reduced_frombytes s.toList, frombytes_value length, tobytes_frombytes_iff length⟩
  · intro a below
    exact ⟨iszero_iff below, parity_residue below, fun b other => equal_iff below other⟩

/-- The limbs of p are a zero. -/
theorem field_serialization_canonical_p :
    fe25519Iszero ⟨2 ^ 51 - 19, 2 ^ 51 - 1, 2 ^ 51 - 1, 2 ^ 51 - 1, 2 ^ 51 - 1⟩ = true := by
  have below : Below (2 ^ 63) ⟨2 ^ 51 - 19, 2 ^ 51 - 1, 2 ^ 51 - 1, 2 ^ 51 - 1, 2 ^ 51 - 1⟩ := by
    constructor <;> decide
  exact (field_serialization_canonical.2.2 _ below).1.mpr (by decide)

end Coalesce.CanonicalField
