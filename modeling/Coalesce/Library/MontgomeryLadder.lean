import Coalesce.Library.BitLoop
import Mathlib.Tactic.Ring

/-! The Montgomery ladder on x-coordinates, in exact arithmetic. The points are swapped
lazily: `swap` says whether they are exchanged at the moment. -/

namespace Coalesce.Library.MontgomeryLadder
open BitLoop

variable {R : Type} [CommRing R]

/-- Two points in projective x-coordinates. -/
structure Points (R : Type) where
  x2 : R
  z2 : R
  x3 : R
  z3 : R

def Points.cswap (p : Points R) (swap : ℕ) : Points R := if swap ≠ 0 then ⟨p.x3, p.z3, p.x2, p.z2⟩ else p

omit [CommRing R] in
theorem Points.cswap_xor (p : Points R) {swap bit : ℕ} (swap_small : swap ≤ 1) (bit_small : bit < 2) :
    p.cswap (swap ^^^ bit) = (p.cswap swap).cswap bit := by
  obtain rfl | rfl : swap = 0 ∨ swap = 1 := by omega
  · rw [Nat.zero_xor]
    rfl
  · obtain rfl | rfl : bit = 0 ∨ bit = 1 := by omega
    · rfl
    · rfl

/-- Doubles the first point and adds the two, whose difference has the x-coordinate `u`. -/
def Points.advance (a24 u : R) (p : Points R) : Points R :=
  let A := p.x2 + p.z2
  let AA := A * A
  let B := p.x2 - p.z2
  let BB := B * B
  let E := AA - BB
  let C := p.x3 + p.z3
  let D := p.x3 - p.z3
  let DA := D * A
  let CB := C * B
  { x3 := (DA + CB) * (DA + CB)
    z3 := u * ((DA - CB) * (DA - CB))
    x2 := AA * BB
    z2 := E * (AA + a24 * E) }

section
variable (a24 u : R) (p : Points R)

theorem Points.advance_x2 :
    (p.advance a24 u).x2 = (p.x2 + p.z2) * (p.x2 + p.z2) * ((p.x2 - p.z2) * (p.x2 - p.z2)) := rfl

/-- With `BB` in the place of `AA`. -/
theorem Points.advance_z2 :
    (p.advance a24 u).z2 = ((p.x2 + p.z2) * (p.x2 + p.z2) - (p.x2 - p.z2) * (p.x2 - p.z2)) *
      ((p.x2 - p.z2) * (p.x2 - p.z2) +
        ((p.x2 + p.z2) * (p.x2 + p.z2) - (p.x2 - p.z2) * (p.x2 - p.z2)) * (a24 + 1)) := by
  unfold Points.advance
  ring

theorem Points.advance_x3 :
    (p.advance a24 u).x3 = ((p.x3 - p.z3) * (p.x2 + p.z2) + (p.x3 + p.z3) * (p.x2 - p.z2)) *
      ((p.x3 - p.z3) * (p.x2 + p.z2) + (p.x3 + p.z3) * (p.x2 - p.z2)) := rfl

theorem Points.advance_z3 :
    (p.advance a24 u).z3 = u * (((p.x3 - p.z3) * (p.x2 + p.z2) - (p.x3 + p.z3) * (p.x2 - p.z2)) *
      ((p.x3 - p.z3) * (p.x2 + p.z2) - (p.x3 + p.z3) * (p.x2 - p.z2))) := rfl

end

structure State (R : Type) where
  points : Points R
  swap : ℕ

def step (a24 u : R) (k : ℕ) (s : State R) (t : ℕ) : State R :=
  let kT := k / 2 ^ t % 2
  ⟨(s.points.cswap (s.swap ^^^ kT)).advance a24 u, kT⟩

/-- Infinity and the point itself. -/
def start (u : R) : Points R := ⟨1, 0, u, 1⟩

theorem start_eq (u : R) : (start u).x2 = 1 ∧ (start u).z2 = 0 ∧ (start u).x3 = u ∧ (start u).z3 = 1 :=
  ⟨rfl, rfl, rfl, rfl⟩

/-- The points at the end, put in order. -/
def ladder (a24 : R) (bits k : ℕ) (u : R) : Points R :=
  let s := bitsDown (step a24 u k) bits ⟨start u, 0⟩
  s.points.cswap s.swap

end Coalesce.Library.MontgomeryLadder
