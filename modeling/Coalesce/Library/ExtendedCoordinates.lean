import Coalesce.Library.EdwardsCurve

/-! Extended coordinates `X : Y : Z : T` with `x = X / Z`, `y = Y / Z`, `x y = T / Z`. -/

namespace Coalesce.Library.ExtendedCoordinates
open EdwardsCurve

structure Extended (F : Type) where
  X : F
  Y : F
  Z : F
  T : F

variable {F : Type} [Field F] {C : Curve F}

/-- The coordinates are those of the point. -/
structure Extended.Of (e : Extended F) (p : Point C) : Prop where
  Z_ne : e.Z ≠ 0
  X : e.X = p.x * e.Z
  Y : e.Y = p.y * e.Z
  T : e.T = p.x * p.y * e.Z

/-- The point with Z = 1. -/
def ofPoint (p : Point C) : Extended F := ⟨p.x, p.y, 1, p.x * p.y⟩

theorem ofPoint_of (p : Point C) : (ofPoint p).Of p :=
  ⟨one_ne_zero, (mul_one _).symm, (mul_one _).symm, (mul_one _).symm⟩

/-- Complete addition; `d2` is twice the `d` of the curve. -/
def Extended.add (d2 : F) (p q : Extended F) : Extended F :=
  let A := (p.Y - p.X) * (q.Y - q.X)
  let B := (p.Y + p.X) * (q.Y + q.X)
  let C := p.T * q.T * d2
  let D := p.Z * q.Z + p.Z * q.Z
  let E := B - A
  let F := D - C
  let G := D + C
  let H := B + A
  ⟨E * F, G * H, F * G, E * H⟩

def Extended.neg (p : Extended F) : Extended F := ⟨-p.X, p.Y, p.Z, -p.T⟩

def Extended.identity : Extended F := ⟨0, 1, 1, 0⟩

theorem of_identity : (Extended.identity : Extended F).Of (0 : Point C) :=
  ⟨one_ne_zero, by simp [Extended.identity], by simp [Extended.identity], by simp [Extended.identity]⟩

theorem Extended.Of.neg {e : Extended F} {p : Point C} (of : e.Of p) : e.neg.Of (-p) := by
  obtain ⟨Z_ne, X, Y, T⟩ := of
  refine ⟨Z_ne, ?_, Y, ?_⟩
  · simp only [Extended.neg, X, neg_x, neg_mul]
  · simp only [Extended.neg, T, neg_x, neg_y, neg_mul]

theorem Extended.Of.add {e f : Extended F} {p q : Point C} (first : e.Of p) (second : f.Of q) :
    (e.add (C.d + C.d) f).Of (p + q) := by
  obtain ⟨Z1_ne, X1, Y1, T1⟩ := first
  obtain ⟨Z2_ne, X2, Y2, T2⟩ := second
  have plus := plus_ne_zero p q
  have minus := minus_ne_zero p q
  have x : (p + q).x * (1 + C.d * p.x * q.x * p.y * q.y) = p.x * q.y + q.x * p.y := by
    rw [add_x, div_mul_cancel₀ _ plus]
  have y : (p + q).y * (1 - C.d * p.x * q.x * p.y * q.y) = p.y * q.y + p.x * q.x := by
    rw [add_y, div_mul_cancel₀ _ minus]
  have Z : (e.add (C.d + C.d) f).Z = 4 * (e.Z * e.Z) * (f.Z * f.Z) * (1 - C.d * p.x * q.x * p.y * q.y) *
      (1 + C.d * p.x * q.x * p.y * q.y) := by
    simp only [Extended.add, T1, T2]
    ring
  refine ⟨?_, ?_, ?_, ?_⟩
  · have four : (4 : F) ≠ 0 := by
      rw [show (4 : F) = 2 * 2 by norm_num]
      exact mul_ne_zero C.two_ne_zero C.two_ne_zero
    rw [Z]
    exact mul_ne_zero (mul_ne_zero (mul_ne_zero (mul_ne_zero four (mul_ne_zero Z1_ne Z1_ne)) (mul_ne_zero Z2_ne Z2_ne)) minus) plus
  · rw [Z]
    simp only [Extended.add, X1, X2, Y1, Y2, T1, T2]
    linear_combination -(4 * (e.Z * e.Z) * (f.Z * f.Z) * (1 - C.d * p.x * q.x * p.y * q.y)) * x
  · rw [Z]
    simp only [Extended.add, X1, X2, Y1, Y2, T1, T2]
    linear_combination -(4 * (e.Z * e.Z) * (f.Z * f.Z) * (1 + C.d * p.x * q.x * p.y * q.y)) * y
  · rw [Z]
    simp only [Extended.add, X1, X2, Y1, Y2]
    linear_combination -(4 * (e.Z * e.Z) * (f.Z * f.Z) * ((p + q).y * (1 - C.d * p.x * q.x * p.y * q.y))) * x -
      (4 * (e.Z * e.Z) * (f.Z * f.Z) * (p.x * q.y + q.x * p.y)) * y

/-- The affine coordinates. -/
theorem Extended.Of.affine {e : Extended F} {p : Point C} (of : e.Of p) : e.X * e.Z⁻¹ = p.x ∧ e.Y * e.Z⁻¹ = p.y := by
  refine ⟨?_, ?_⟩
  · rw [of.X, mul_inv_cancel_right₀ of.Z_ne]
  · rw [of.Y, mul_inv_cancel_right₀ of.Z_ne]

end Coalesce.Library.ExtendedCoordinates
