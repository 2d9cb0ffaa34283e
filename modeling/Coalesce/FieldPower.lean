import Coalesce.FieldInPlace
import Coalesce.GroupBytes

/-! Powers, computed in place, and what the tables of exponents make of them. -/

namespace Coalesce.FieldPower
open Library.ByteNumber Library.BitLoop Library.CheckedRun Library.PointCompression
open Field25519 FieldArithmetic Primes25519 Edwards25519 GroupArithmetic GroupBytes FieldInPlace

section
variable {α : Type} [DecidableEq α]

/-- Memory with the local `r`, set to one. -/
def withLocal (mem : α → Fe25519) : Option α → Fe25519
  | none => fe25519SetOne
  | some place => mem place

/-- `fe25519_sq(r, r); if ((e[bit / 8] >> (bit & 7)) & 1) fe25519_mul(r, r, a);` -/
def powRoundAt (a : α) (e : List UInt8) (mem : Option α → Fe25519) (bit : ℕ) : Option (Option α → Fe25519) := do
  let mem ← fe25519SqAt mem none none
  if bitAt e bit ≠ 0 then fe25519MulAt mem none none (some a) else some mem

def fe25519PowAt (mem : α → Fe25519) (out a : α) (e : List UInt8) : Option (α → Fe25519) :=
  (bitsDownChecked (powRoundAt a e) 256 (withLocal mem)).map fun now => Function.update mem out (now none)

def fe25519InvertAt (mem : α → Fe25519) (out a : α) : Option (α → Fe25519) := fe25519PowAt mem out a FE25519_P_MINUS_2

/-! The loop. -/

/-- What a round leaves in `r`. -/
def powRound (a : Fe25519) (e : List UInt8) (r : Fe25519) (bit : ℕ) : Fe25519 :=
  if bitAt e bit ≠ 0 then fe25519Mul (fe25519Sq r) a else fe25519Sq r

theorem powRound_normalized (a : Fe25519) (e : List UInt8) (r : Fe25519) (bit : ℕ) : Normalized (powRound a e r bit) := by
  rw [powRound]
  split
  · exact carryColumns_normalized _
  · exact carryColumns_normalized _

variable {mem : α → Fe25519} {out a : α}

theorem powRoundAt_eq {now : Option α → Fe25519} (normalized : Normalized (now none)) (below : Below (2 ^ 54) (now (some a)))
    (e : List UInt8) (bit : ℕ) :
    powRoundAt a e now bit = some (Function.update now none (powRound (now (some a)) e (now none) bit)) := by
  have squared : fe25519SqAt now none none = some (Function.update now none (fe25519Sq (now none))) :=
    fe25519MulAt_eq normalized.below normalized.below
  have self : Function.update now none (fe25519Sq (now none)) none = fe25519Sq (now none) := Function.update_self _ _ _
  have other : Function.update now none (fe25519Sq (now none)) (some a) = now (some a) :=
    Function.update_of_ne (Option.some_ne_none a) _ _
  rw [powRoundAt, squared, Option.bind_eq_bind, Option.bind_some, powRound]
  split
  · rw [fe25519MulAt_eq, self, other, Function.update_idem]
    · rw [self]
      exact (carryColumns_normalized _).below
    · rwa [other]
  · rfl

/-- The local is the only thing that the loop writes. -/
theorem fe25519PowAt_eq (below : Below (2 ^ 54) (mem a)) (e : List UInt8) :
    fe25519PowAt mem out a e = some (Function.update mem out (fe25519Pow (mem a) e)) := by
  have loop : Completes (bitsDownChecked (powRoundAt a e) 256 (withLocal mem))
      (bitsDown (fun now bit => Function.update now none (powRound (mem a) e (now none) bit)) 256 (withLocal mem))
      fun now => Normalized (now none) ∧ now (some a) = mem a := by
    apply bitsDownChecked_completes
    · intro now bit ⟨normalized, operand⟩
      constructor
      · rw [powRoundAt_eq normalized (by rwa [operand]), operand]
      · rw [Function.update_self, Function.update_of_ne (Option.some_ne_none a)]
        exact ⟨powRound_normalized _ _ _ _, operand⟩
    · exact ⟨normalized_one, rfl⟩
  have local_eq : bitsDown (fun now bit => Function.update now none (powRound (mem a) e (now none) bit)) 256
      (withLocal mem) none = fe25519Pow (mem a) e := by
    apply bitsDown_related (fun (now : Option α → Fe25519) (r : Fe25519) => now none = r) _ 256 rfl
    intro now r bit same
    rw [Function.update_self, same]
    rfl
  rw [fe25519PowAt, loop.result, Option.map_some, local_eq]

theorem fe25519PowAt_written (out : α) (below : Below (2 ^ 54) (mem a)) {e : List UInt8} (length : e.length = 32) :
    ∃ after, fe25519PowAt mem out a e = some after ∧ Written mem after out (value (mem a) ^ leNat e) := by
  have small : leNat e < 2 ^ 256 := by
    have bound := leNat_lt e
    rwa [length, show 256 ^ 32 = 2 ^ 256 by decide] at bound
  obtain ⟨normalized, power⟩ := pow_value below e
  rw [Nat.mod_eq_of_lt small, ← Nat.cast_pow] at power
  exact ⟨_, fe25519PowAt_eq below e, written_update power normalized⟩

end

/-! Residues of powers. -/

variable {m n w : ℕ}

theorem power_P_sub_two (power : m % P = n ^ leNat FE25519_P_MINUS_2 % P) : (m : ZMod P) = (n : ZMod P)⁻¹ := by
  rw [cast_eq power, Nat.cast_pow, show leNat FE25519_P_MINUS_2 = P - 2 by decide, pow_P_sub_two]

theorem inverse_residue (power : m % P = n ^ leNat FE25519_P_MINUS_2 % P) (nonzero : n % P ≠ 0) : m * n % P = 1 := by
  have product : ((m * n : ℕ) : ZMod P) = (1 : ℕ) := by
    rw [Nat.cast_mul, power_P_sub_two power, Nat.cast_one, inv_mul_cancel₀ (cast_ne_zero nonzero)]
  exact (ZMod.natCast_eq_natCast_iff' _ _ P).mp product

theorem inverse_zero (power : m % P = n ^ leNat FE25519_P_MINUS_2 % P) (zero : n % P = 0) : m % P = 0 := by
  have vanishes : (n : ZMod P) = (0 : ℕ) := cast_eq zero
  have inverse : (m : ZMod P) = (0 : ℕ) := by
    rw [power_P_sub_two power, vanishes, Nat.cast_zero, inv_zero]
  exact (ZMod.natCast_eq_natCast_iff' _ _ P).mp inverse

theorem P14_sq (two : n % P = 2) (power : m % P = n ^ leNat FE25519_P14_EXP % P) : (m ^ 2 + 1) % P = 0 := by
  have base : (n : ZMod P) = (2 : ℕ) := cast_eq two
  have root : (m : ZMod P) = edwards.i := by
    rw [cast_eq power, Nat.cast_pow, base, ← P14_root]
    rfl
  have sum : ((m ^ 2 + 1 : ℕ) : ZMod P) = (0 : ℕ) := by
    push_cast
    rw [root, pow_two, edwards.i_sq]
    exact neg_add_cancel 1
  exact (ZMod.natCast_eq_natCast_iff' _ _ P).mp sum

theorem P58_sq (square : n % P = w ^ 2 % P) (power : m % P = n ^ leNat FE25519_P58_EXP % P) :
    m ^ 2 % P = w ^ 2 % P ∨ (m ^ 2 + w ^ 2) % P = 0 := by
  have base : (n : ZMod P) = (w ^ 2 : ℕ) := cast_eq square
  have root : (w : ZMod P) * w = n := by
    rw [base, Nat.cast_pow, pow_two]
  have candidate : (m : ZMod P) = (n : ZMod P) ^ (P / 8 + 1) := by
    rw [cast_eq power, Nat.cast_pow, ← P58_exponent]
    rfl
  have outcome := candidate_sq (show P = 8 * (P / 8) + 5 by decide) ZMod.pow_card root
  rw [← candidate, ← pow_two, base, ← Nat.cast_pow] at outcome
  apply outcome.imp
  · exact (ZMod.natCast_eq_natCast_iff' _ _ P).mp
  · intro negative
    have sum : ((m ^ 2 + w ^ 2 : ℕ) : ZMod P) = (0 : ℕ) := by
      rw [Nat.cast_add, negative, neg_add_cancel, Nat.cast_zero]
    exact (ZMod.natCast_eq_natCast_iff' _ _ P).mp sum

/-- Powers, inverses and the two candidates for roots. -/
theorem field_power_exact {α : Type} [DecidableEq α] (mem : α → Fe25519) (out a : α) (below : Below (2 ^ 54) (mem a)) :
    (∀ e : Vector UInt8 32, ∃ after, fe25519PowAt mem out a e.toList = some after ∧
      Written mem after out (value (mem a) ^ leNat e.toList)) ∧
      (∃ after, fe25519InvertAt mem out a = some after ∧ Normalized (after out) ∧
        (value (mem a) % P ≠ 0 → value (after out) * value (mem a) % P = 1) ∧
        (value (mem a) % P = 0 → value (after out) % P = 0)) ∧
      (value (mem a) % P = 2 → ∃ after, fe25519PowAt mem out a FE25519_P14_EXP = some after ∧ Normalized (after out) ∧
        (value (after out) ^ 2 + 1) % P = 0) ∧
      ∀ w, value (mem a) % P = w ^ 2 % P → ∃ after, fe25519PowAt mem out a FE25519_P58_EXP = some after ∧
        Normalized (after out) ∧ (value (after out) ^ 2 % P = w ^ 2 % P ∨ (value (after out) ^ 2 + w ^ 2) % P = 0) := by
  constructor
  · intro e
    exact fe25519PowAt_written out below Vector.length_toList
  constructor
  · obtain ⟨after, result, written⟩ := fe25519PowAt_written out below (show FE25519_P_MINUS_2.length = 32 by decide)
    exact ⟨after, result, written.normalized, inverse_residue written.residue, inverse_zero written.residue⟩
  constructor
  · intro two
    obtain ⟨after, result, written⟩ := fe25519PowAt_written out below (show FE25519_P14_EXP.length = 32 by decide)
    exact ⟨after, result, written.normalized, P14_sq two written.residue⟩
  · intro w square
    obtain ⟨after, result, written⟩ := fe25519PowAt_written out below (show FE25519_P58_EXP.length = 32 by decide)
    exact ⟨after, result, written.normalized, P58_sq square written.residue⟩

theorem field_power_exact_two :
    ∃ after, fe25519PowAt (fun _ : Unit => ⟨2, 0, 0, 0, 0⟩) () () FE25519_P14_EXP = some after ∧
      (value (after ()) ^ 2 + 1) % P = 0 := by
  have below : Below (2 ^ 54) ⟨2, 0, 0, 0, 0⟩ := by
    constructor <;> decide
  obtain ⟨after, result, -, root⟩ := (field_power_exact (fun _ : Unit => _) () () below).2.2.1 (by decide)
  exact ⟨after, result, root⟩

end Coalesce.FieldPower
