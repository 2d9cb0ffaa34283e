import Coalesce.Library.EdwardsCurve
import Mathlib.FieldTheory.Finite.Basic

/-! A point of a twisted Edwards curve from its y-coordinate: x is a square root of
`(y² - 1) / (d y² + 1)`, and there are at most two. Where the field has 8 m + 5 elements
the power m + 1 gives the root, up to a square root of -1. -/

namespace Coalesce.Library.PointCompression
open EdwardsCurve

variable {F : Type} [Field F] {C : Curve F}

theorem denominator_ne_zero (y : F) : C.d * (y * y) + 1 ≠ 0 := by
  intro zero
  have y_ne : y ≠ 0 := by
    rintro rfl
    simp at zero
  refine C.nonsquare (C.i / y) ?_
  rw [div_mul_div_comm, div_eq_iff (mul_ne_zero y_ne y_ne), C.i_sq]
  linear_combination -zero

/-- The square of x, as y determines it. -/
theorem on_iff {x y : F} : C.On x y ↔ x * x = (y * y - 1) * (C.d * (y * y) + 1)⁻¹ := by
  rw [← div_eq_mul_inv, eq_div_iff (denominator_ne_zero y), Curve.On]
  constructor
  · intro on
    linear_combination -on
  · intro square
    linear_combination -square

theorem eq_or_eq_neg {p q : Point C} (same : p.y = q.y) : p = q ∨ p = -q := by
  have squares : p.x * p.x = q.x * q.x := by rw [on_iff.mp p.on, on_iff.mp q.on, same]
  rcases mul_self_eq_mul_self_iff.mp squares with equal | opposite
  · exact Or.inl (Point.ext equal same)
  · exact Or.inr (Point.ext opposite same)

/-- The candidate's square is the number or its negative. -/
theorem candidate_sq {q m : ℕ} (size : q = 8 * m + 5) (fermat : ∀ s : F, s ^ q = s) {a s : F} (root : s * s = a) :
    a ^ (m + 1) * a ^ (m + 1) = a ∨ a ^ (m + 1) * a ^ (m + 1) = -a := by
  refine mul_self_eq_mul_self_iff.mp ?_
  have power := fermat s
  rw [size] at power
  calc a ^ (m + 1) * a ^ (m + 1) * (a ^ (m + 1) * a ^ (m + 1)) = s ^ (8 * m + 5) * s ^ 3 := by
        rw [← root]
        ring
    _ = s * s ^ 3 := by rw [power]
    _ = a * a := by
        rw [← root]
        ring

end Coalesce.Library.PointCompression
