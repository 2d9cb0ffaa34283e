import Coalesce.CheckedField
import Coalesce.Library.CheckedRun

/-! Calls of fe25519.c that stop unless every word operation fits its type and the number
returned is the field operation's. -/

namespace Coalesce.ExactField
open Library.BitLoop Library.ByteNumber Library.CheckedRun Library.Collect
open Field25519 FieldArithmetic FieldBytes CheckedField Primes25519

def fe25519AddExact (a b : Fe25519) : Option Fe25519 :=
  (fe25519AddChecked a b).filter fun sum => value sum % P = (value a + value b) % P

def fe25519SubExact (a b : Fe25519) : Option Fe25519 :=
  (fe25519SubChecked a b).filter fun difference => (value difference + value b) % P = value a % P

def fe25519MulExact (a b : Fe25519) : Option Fe25519 :=
  (fe25519MulChecked a b).filter fun product => value product % P = value a * value b % P

def fe25519SqExact (a : Fe25519) : Option Fe25519 := fe25519MulExact a a

def fe25519Mul121666Exact (a : Fe25519) : Option Fe25519 :=
  (fe25519Mul121666Checked a).filter fun product => value product % P = value a * 121666 % P

def fe25519TobytesExact (a : Fe25519) : Option (List UInt8) :=
  (fe25519TobytesChecked a).filter fun bytes => bytes = leBytes 32 (value a % P)

def fe25519PowExact (a : Fe25519) (e : List UInt8) : Option Fe25519 :=
  bitsDownChecked (fun r bit => do
    let r ← fe25519SqExact r
    if bitAt e bit ≠ 0 then fe25519MulExact r a else some r) 256 fe25519SetOne

def fe25519InvertExact (a : Fe25519) : Option Fe25519 := fe25519PowExact a FE25519_P_MINUS_2

def fe25519IszeroExact (a : Fe25519) : Option Bool := do
  let b ← fe25519TobytesExact a
  some (collect (fun i => b.getD i 0) 32 == 0)

def fe25519ParityExact (a : Fe25519) : Option ℕ := do
  let b ← fe25519TobytesExact a
  some (b.getD 0 0 &&& 1).toNat

variable {a b : Fe25519}

theorem rep_value {k : ℕ} (within : Within k a) : Rep k a (value a : ZMod P) := ⟨within, rfl⟩

theorem residues {m n : ℕ} (same : (m : ZMod P) = n) : decide (m % P = n % P) = true :=
  decide_eq_true ((ZMod.natCast_eq_natCast_iff' m n P).mp same)

theorem completes_add {j k : ℕ} (first : Within j a) (second : Within k b) (room : j + k ≤ 4) :
    Completes (fe25519AddExact a b) (fe25519Add a b) (Within (j + k)) := by
  have sum := rep_add (rep_value first) (rep_value second) room
  apply Completes.filter ⟨addChecked_eq first second room, sum.within⟩
  apply residues
  rw [sum.denotes, Nat.cast_add]

theorem completes_sub {k : ℕ} (first : Within k a) (second : Within 1 b) (room : k ≤ 3) :
    Completes (fe25519SubExact a b) (fe25519Sub a b) (Within (k + 1)) := by
  have difference := rep_sub (rep_value first) (rep_value second) room
  apply Completes.filter ⟨subChecked_eq first second room, difference.within⟩
  apply residues
  rw [Nat.cast_add, difference.denotes, sub_add_cancel]

theorem completes_mul {j k : ℕ} (first : Within j a) (second : Within k b) (j_small : j ≤ 4) (k_small : k ≤ 4) :
    Completes (fe25519MulExact a b) (fe25519Mul a b) (Within 1) := by
  have product := rep_mul (rep_value (first.mono j_small)) (rep_value (second.mono k_small))
  apply Completes.filter ⟨mulChecked_eq (first.mono j_small).below (second.mono k_small).below, product.within⟩
  apply residues
  rw [product.denotes, Nat.cast_mul]

theorem completes_sq {k : ℕ} (within : Within k a) (small : k ≤ 4) :
    Completes (fe25519SqExact a) (fe25519Sq a) (Within 1) := completes_mul within within small small

theorem completes_mul121666 {k : ℕ} (within : Within k a) (small : k ≤ 4) :
    Completes (fe25519Mul121666Exact a) (fe25519Mul121666 a) (Within 1) := by
  have product := rep_mul121666 (rep_value (within.mono small))
  apply Completes.filter ⟨mul121666Checked_eq (within.mono small).below, product.within⟩
  apply residues
  rw [product.denotes, Nat.cast_mul, Nat.cast_ofNat]

theorem completes_tobytes {k : ℕ} (within : Within k a) (small : k ≤ 4) :
    Completes (fe25519TobytesExact a) (fe25519Tobytes a) fun _ => True := by
  have bytes := fe25519Tobytes_eq (rep_value (within.mono small))
  rw [ZMod.val_natCast] at bytes
  exact Completes.filter ⟨tobytesChecked_eq (within.mono small).carries, trivial⟩ (decide_eq_true bytes)

theorem completes_pow {k : ℕ} (within : Within k a) (small : k ≤ 4) (e : List UInt8) :
    Completes (fe25519PowExact a e) (fe25519Pow a e) (Within 1) := by
  apply bitsDownChecked_completes (Within 1) _ 256 rep_one.within
  intro r bit reached
  have squared := completes_sq reached (by decide)
  apply squared.bind
  split
  · exact completes_mul squared.holds within (by decide) small
  · exact .pure squared.holds

theorem completes_invert {k : ℕ} (within : Within k a) (small : k ≤ 4) :
    Completes (fe25519InvertExact a) (fe25519Invert a) (Within 1) := completes_pow within small FE25519_P_MINUS_2

theorem completes_iszero (within : Within 1 a) : Completes (fe25519IszeroExact a) (fe25519Iszero a) fun _ => True :=
  (completes_tobytes within (by decide)).bind (.pure trivial)

theorem completes_parity (within : Within 1 a) : Completes (fe25519ParityExact a) (fe25519Parity a) fun _ => True :=
  (completes_tobytes within (by decide)).bind (.pure trivial)

end Coalesce.ExactField
