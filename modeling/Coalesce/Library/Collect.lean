import Mathlib.Data.List.Basic

/-! Comparisons that take the same time whatever they find: a loop collects bits with
`|=`, and only the end looks at them. -/

namespace Coalesce.Library.Collect

/-- `for (i = 0; i < n; i++) acc |= byte(i);` -/
def collect (byte : Nat → UInt8) (n : Nat) : UInt8 := (List.range n).foldl (fun acc i => acc ||| byte i) 0

theorem collect_eq_zero {byte : Nat → UInt8} {n : Nat} : collect byte n = 0 ↔ ∀ i < n, byte i = 0 := by
  have run (acc : UInt8) (indices : List Nat) :
      indices.foldl (fun acc i => acc ||| byte i) acc = 0 ↔ acc = 0 ∧ ∀ i ∈ indices, byte i = 0 := by
    induction indices generalizing acc with
    | nil => simp
    | cons i indices ih => simp only [List.foldl_cons, ih, UInt8.or_eq_zero_iff, List.forall_mem_cons, and_assoc]
  rw [collect, run]
  simp only [List.mem_range, true_and]

/-- `diff |= a[i] ^ b[i]` -/
def differences (a b : List UInt8) (n : Nat) : UInt8 := collect (fun i => a.getD i 0 ^^^ b.getD i 0) n

theorem differences_eq_zero {a b : List UInt8} {n : Nat} (left : a.length = n) (right : b.length = n) :
    differences a b n = 0 ↔ a = b := by
  rw [differences, collect_eq_zero]
  simp only [UInt8.xor_eq_zero_iff]
  constructor
  · intro same
    apply List.ext_getElem (by rw [left, right])
    intro i bound _
    have equal := same i (by omega)
    simpa [List.getD_eq_getElem?_getD, bound, show i < b.length by omega] using equal
  · rintro rfl _ _
    rfl

theorem collect_bytes_eq_zero {bytes : List UInt8} {n : Nat} (length : bytes.length = n) :
    collect (fun i => bytes.getD i 0) n = 0 ↔ bytes = List.replicate n 0 := by
  have against := differences_eq_zero length (List.length_replicate (n := n) (a := (0 : UInt8)))
  rw [differences, collect_eq_zero] at against
  rw [collect_eq_zero, ← against]
  refine forall₂_congr fun i _ => ?_
  have zero : (List.replicate n (0 : UInt8)).getD i 0 = 0 := by
    rw [List.getD_eq_getElem?_getD, List.getElem?_replicate]
    split <;> rfl
  rw [zero, UInt8.xor_zero]

end Coalesce.Library.Collect
