import Mathlib.Data.BitVec

/-! Unsigned arithmetic that refuses to wrap: each operation gives the machine's result
where that is the exact one, and nothing where it is not. -/

namespace Coalesce.Library.CheckedWord

variable {w : Nat}

def checkedAdd (x y : BitVec w) : Option (BitVec w) := if x.toNat + y.toNat < 2 ^ w then some (x + y) else none

def checkedSub (x y : BitVec w) : Option (BitVec w) := if y.toNat ≤ x.toNat then some (x - y) else none

def checkedMul (x y : BitVec w) : Option (BitVec w) := if x.toNat * y.toNat < 2 ^ w then some (x * y) else none

/-- A conversion to a narrower type. -/
def checkedNarrow (v : Nat) (x : BitVec w) : Option (BitVec v) := if x.toNat < 2 ^ v then some (x.setWidth v) else none

/-- `for (i ...) t += x[i] * y[i];` -/
def checkedSum (t : BitVec w) (pairs : List (BitVec w × BitVec w)) : Option (BitVec w) :=
  pairs.foldlM (fun t pair => (checkedMul pair.1 pair.2).bind (checkedAdd t)) t

theorem checkedAdd_eq {x y : BitVec w} (fits : x.toNat + y.toNat < 2 ^ w) : checkedAdd x y = some (x + y) := if_pos fits

theorem checkedSub_eq {x y : BitVec w} (covered : y.toNat ≤ x.toNat) : checkedSub x y = some (x - y) := if_pos covered

theorem checkedMul_eq {x y : BitVec w} (fits : x.toNat * y.toNat < 2 ^ w) : checkedMul x y = some (x * y) := if_pos fits

theorem checkedNarrow_eq {v : Nat} {x : BitVec w} (fits : x.toNat < 2 ^ v) : checkedNarrow v x = some (x.setWidth v) :=
  if_pos fits

/-- A sum of products below `bound` with room for all of them. -/
theorem checkedSum_eq {bound : Nat} {t : BitVec w} {pairs : List (BitVec w × BitVec w)}
    (small : ∀ pair ∈ pairs, pair.1.toNat * pair.2.toNat < bound) (room : t.toNat + pairs.length * bound < 2 ^ w) :
    checkedSum t pairs = some (pairs.foldl (fun t pair => t + pair.1 * pair.2) t) ∧
      (pairs.foldl (fun t pair => t + pair.1 * pair.2) t).toNat ≤ t.toNat + pairs.length * bound := by
  induction pairs generalizing t with
  | nil => exact ⟨rfl, Nat.le_add_right _ _⟩
  | cons pair pairs ih =>
    have first := small pair List.mem_cons_self
    rw [List.length_cons, Nat.succ_mul] at room
    have product : (pair.1 * pair.2).toNat = pair.1.toNat * pair.2.toNat := by
      rw [BitVec.toNat_mul, Nat.mod_eq_of_lt (by omega)]
    have sum : (t + pair.1 * pair.2).toNat = t.toNat + pair.1.toNat * pair.2.toNat := by
      rw [BitVec.toNat_add, product, Nat.mod_eq_of_lt (by omega)]
    obtain ⟨rest, limit⟩ := @ih (t + pair.1 * pair.2) (fun other member => small other (List.mem_cons_of_mem _ member))
      (by omega)
    constructor
    · rw [checkedSum, List.foldlM_cons, checkedMul_eq (by omega), Option.bind_some, checkedAdd_eq (by omega)]
      exact rest
    · rw [List.foldl_cons, List.length_cons, Nat.succ_mul]
      omega

end Coalesce.Library.CheckedWord
