import Mathlib.Algebra.Field.Basic
import Mathlib.Tactic.FieldSimp
import Mathlib.Tactic.LinearCombination
import Mathlib.Tactic.Ring

/-! The group of a twisted Edwards curve `-x² + y² = 1 + d x² y²` over a field in which
-1 is a square and `d` is not. The addition law then has no exceptional cases. -/

namespace Coalesce.Library.EdwardsCurve

structure Curve (F : Type) [Field F] where
  d : F
  i : F
  i_sq : i * i = -1
  nonsquare : ∀ s, s * s ≠ d
  two_ne_zero : (2 : F) ≠ 0

variable {F : Type} [Field F] (C : Curve F)

def Curve.On (x y : F) : Prop := y * y = 1 + x * x + C.d * (x * x) * (y * y)

@[ext] structure Point where
  x : F
  y : F
  on : C.On x y

variable {C}

/-- The product that the denominators are made of is neither 1 nor -1. -/
theorem product_sq_ne_one {x1 y1 x2 y2 : F} (first : C.On x1 y1) (second : C.On x2 y2) :
    (C.d * x1 * x2 * y1 * y2) * (C.d * x1 * x2 * y1 * y2) ≠ 1 := by
  intro unit
  generalize product : C.d * x1 * x2 * y1 * y2 = e at unit
  have nonzero : e ≠ 0 := by
    rintro rfl
    simp at unit
  rw [← product] at nonzero
  simp only [mul_ne_zero_iff] at nonzero
  obtain ⟨⟨⟨⟨-, x1_ne⟩, x2_ne⟩, y1_ne⟩, y2_ne⟩ := nonzero
  unfold Curve.On at first second
  have root (s : F) (sq : s * s = 1) (other : C.i * x2 + s * y2 ≠ 0) : False := by
    refine C.nonsquare ((C.i * x1 + s * e * y1) / (x1 * y1 * (C.i * x2 + s * y2))) ?_
    rw [div_mul_div_comm, div_eq_iff (by simp [x1_ne, y1_ne, other])]
    linear_combination x1 * x1 * C.i_sq + e * e * y1 * y1 * sq + y1 * y1 * unit + first - unit -
      C.d * x1 * x1 * y1 * y1 * (second + x2 * x2 * C.i_sq + y2 * y2 * sq) -
      (2 * C.i * s * x1 * y1 + e + C.d * x1 * x2 * y1 * y2) * product
  by_cases sum : C.i * x2 + 1 * y2 = 0
  · refine root (-1) (by ring) fun difference => y2_ne ?_
    have double : 2 * y2 = 0 := by linear_combination sum - difference
    exact (mul_eq_zero.mp double).resolve_left C.two_ne_zero
  · exact root 1 (by ring) sum

/-! The addition law. -/

theorem plus_ne_zero (p q : Point C) : 1 + C.d * p.x * q.x * p.y * q.y ≠ 0 := fun zero =>
  product_sq_ne_one p.on q.on (by linear_combination (C.d * p.x * q.x * p.y * q.y - 1) * zero)

theorem minus_ne_zero (p q : Point C) : 1 - C.d * p.x * q.x * p.y * q.y ≠ 0 := fun zero =>
  product_sq_ne_one p.on q.on (by linear_combination -(C.d * p.x * q.x * p.y * q.y + 1) * zero)

/-- The sum with its denominators cleared is on the curve. -/
private theorem sum_on {d x1 y1 x2 y2 : F} (first : y1 * y1 = 1 + x1 * x1 + d * (x1 * x1) * (y1 * y1))
    (second : y2 * y2 = 1 + x2 * x2 + d * (x2 * x2) * (y2 * y2)) :
    (y1 * y2 + x1 * x2) ^ 2 * (1 + d * x1 * x2 * y1 * y2) ^ 2 =
      (1 + d * x1 * x2 * y1 * y2) ^ 2 * (1 - d * x1 * x2 * y1 * y2) ^ 2 +
        (x1 * y2 + x2 * y1) ^ 2 * (1 - d * x1 * x2 * y1 * y2) ^ 2 +
        d * (x1 * y2 + x2 * y1) ^ 2 * (y1 * y2 + x1 * x2) ^ 2 := by
  grind

/-- The curve in projective terms, a denominator for each coordinate. -/
theorem on_div {X Y a b : F} (a_ne : a ≠ 0) (b_ne : b ≠ 0)
    (cleared : Y ^ 2 * a ^ 2 = a ^ 2 * b ^ 2 + X ^ 2 * b ^ 2 + C.d * X ^ 2 * Y ^ 2) : C.On (X / a) (Y / b) := by
  unfold Curve.On
  field_simp
  linear_combination cleared

instance : Add (Point C) where
  add p q :=
    { x := (p.x * q.y + q.x * p.y) / (1 + C.d * p.x * q.x * p.y * q.y)
      y := (p.y * q.y + p.x * q.x) / (1 - C.d * p.x * q.x * p.y * q.y)
      on := on_div (plus_ne_zero p q) (minus_ne_zero p q) (sum_on p.on q.on) }

theorem add_x (p q : Point C) :
    (p + q).x = (p.x * q.y + q.x * p.y) / (1 + C.d * p.x * q.x * p.y * q.y) := rfl

theorem add_y (p q : Point C) :
    (p + q).y = (p.y * q.y + p.x * q.x) / (1 - C.d * p.x * q.x * p.y * q.y) := rfl

instance : Zero (Point C) where
  zero := ⟨0, 1, by simp [Curve.On]⟩

@[simp] theorem zero_x : (0 : Point C).x = 0 := rfl

@[simp] theorem zero_y : (0 : Point C).y = 1 := rfl

instance : Neg (Point C) where
  neg p := ⟨-p.x, p.y, by simpa [Curve.On] using p.on⟩

@[simp] theorem neg_x (p : Point C) : (-p).x = -p.x := rfl

@[simp] theorem neg_y (p : Point C) : (-p).y = p.y := rfl

theorem add_comm' (p q : Point C) : p + q = q + p := by
  ext
  · rw [add_x, add_x]
    congr 1 <;> ring
  · rw [add_y, add_y]
    congr 1 <;> ring

theorem zero_add' (p : Point C) : 0 + p = p := by
  ext
  · simp [add_x]
  · simp [add_y]

theorem neg_add_cancel' (p : Point C) : -p + p = 0 := by
  ext
  · rw [add_x]
    simp only [neg_x, neg_y, zero_x]
    rw [show -p.x * p.y + p.x * p.y = 0 by ring, zero_div]
  · rw [add_y, zero_y]
    refine (div_eq_one_iff_eq (minus_ne_zero (-p) p)).mpr ?_
    have on := p.on
    unfold Curve.On at on
    simp only [neg_x, neg_y]
    linear_combination on

/-! Associativity, with all denominators cleared. -/

private theorem assoc_x {d x1 y1 x2 y2 x3 y3 : F} (first : y1 * y1 = 1 + x1 * x1 + d * (x1 * x1) * (y1 * y1))
    (second : y2 * y2 = 1 + x2 * x2 + d * (x2 * x2) * (y2 * y2))
    (third : y3 * y3 = 1 + x3 * x3 + d * (x3 * x3) * (y3 * y3)) :
    ((x1 * y2 + x2 * y1) * (1 - d * x1 * x2 * y1 * y2) * y3 + x3 * (y1 * y2 + x1 * x2) * (1 + d * x1 * x2 * y1 * y2)) *
        ((1 + d * x2 * x3 * y2 * y3) * (1 - d * x2 * x3 * y2 * y3) +
          d * x1 * (x2 * y3 + x3 * y2) * y1 * (y2 * y3 + x2 * x3)) =
      (x1 * (y2 * y3 + x2 * x3) * (1 + d * x2 * x3 * y2 * y3) + (x2 * y3 + x3 * y2) * (1 - d * x2 * x3 * y2 * y3) * y1) *
        ((1 + d * x1 * x2 * y1 * y2) * (1 - d * x1 * x2 * y1 * y2) +
          d * (x1 * y2 + x2 * y1) * x3 * (y1 * y2 + x1 * x2) * y3) := by
  -- Once each `d * (x * y) ^ 2` is replaced along the curve, both sides are the same polynomial.
  linear_combination
    d * (x2 * y2) * (-(x1 * y2 * y3 + x2 * y1 * y3 + x3 * y1 * y2 + x1 * x2 * x3) * (x2 * y2)
      - (x3 * y1 * y2 + x1 * x2 * x3 - x1 * y2 * y3 - x2 * y1 * y3) * (x2 * y2 * (x3 ^ 2 + y3 ^ 2) + x3 * y3 * (x2 ^ 2 + y2 ^ 2))
      - (x1 * y2 * y3 + x1 * x2 * x3 - x2 * y1 * y3 - x3 * y1 * y2) * (x3 * y3) * (y2 ^ 2 - x2 ^ 2 - 1)) * first
    + d * (x2 * y2) * ((x3 * y1 * y2 + x1 * x2 * x3 - x1 * y2 * y3 - x2 * y1 * y3) * (x1 * y1) * d * (x3 * y3) ^ 2
      - (x1 * y2 * y3 + x1 * x2 * x3 - x2 * y1 * y3 - x3 * y1 * y2) * (x3 * y3) * d * (x1 * y1) ^ 2) * second
    + d * (x2 * y2) * ((x1 * y2 * y3 + x2 * y1 * y3 + x3 * y1 * y2 + x1 * x2 * x3) * (x2 * y2)
      + (x3 * y1 * y2 + x1 * x2 * x3 - x1 * y2 * y3 - x2 * y1 * y3) * (x1 * y1) * (y2 ^ 2 - x2 ^ 2 - 1)
      + (x1 * y2 * y3 + x1 * x2 * x3 - x2 * y1 * y3 - x3 * y1 * y2) * (x1 * y1 * (x2 ^ 2 + y2 ^ 2) + x2 * y2 * (x1 ^ 2 + y1 ^ 2))) * third

private theorem assoc_y {d x1 y1 x2 y2 x3 y3 : F} (first : y1 * y1 = 1 + x1 * x1 + d * (x1 * x1) * (y1 * y1))
    (second : y2 * y2 = 1 + x2 * x2 + d * (x2 * x2) * (y2 * y2))
    (third : y3 * y3 = 1 + x3 * x3 + d * (x3 * x3) * (y3 * y3)) :
    ((y1 * y2 + x1 * x2) * (1 + d * x1 * x2 * y1 * y2) * y3 + (x1 * y2 + x2 * y1) * (1 - d * x1 * x2 * y1 * y2) * x3) *
        ((1 + d * x2 * x3 * y2 * y3) * (1 - d * x2 * x3 * y2 * y3) -
          d * x1 * (x2 * y3 + x3 * y2) * y1 * (y2 * y3 + x2 * x3)) =
      (y1 * (y2 * y3 + x2 * x3) * (1 + d * x2 * x3 * y2 * y3) + x1 * (x2 * y3 + x3 * y2) * (1 - d * x2 * x3 * y2 * y3)) *
        ((1 + d * x1 * x2 * y1 * y2) * (1 - d * x1 * x2 * y1 * y2) -
          d * (x1 * y2 + x2 * y1) * x3 * (y1 * y2 + x1 * x2) * y3) := by
  linear_combination
    d * (x2 * y2) * (-(y1 * y2 * y3 + x1 * x2 * y3 + x1 * y2 * x3 + x2 * y1 * x3) * (x2 * y2)
      + (y1 * y2 * y3 + x1 * x2 * y3 - x1 * y2 * x3 - x2 * y1 * x3) * (x2 * y2 * (x3 ^ 2 + y3 ^ 2) + x3 * y3 * (x2 ^ 2 + y2 ^ 2))
      - (y1 * y2 * y3 + x2 * y1 * x3 - x1 * x2 * y3 - x1 * y2 * x3) * (x3 * y3) * (y2 ^ 2 - x2 ^ 2 - 1)) * first
    + d * (x2 * y2) * ((y1 * y2 * y3 + x1 * x2 * y3 - x1 * y2 * x3 - x2 * y1 * x3) * (x1 * y1) * d * (x3 * y3) ^ 2
      - (y1 * y2 * y3 + x2 * y1 * x3 - x1 * x2 * y3 - x1 * y2 * x3) * (x3 * y3) * d * (x1 * y1) ^ 2) * second
    + d * (x2 * y2) * ((y1 * y2 * y3 + x1 * x2 * y3 + x1 * y2 * x3 + x2 * y1 * x3) * (x2 * y2)
      + (y1 * y2 * y3 + x1 * x2 * y3 - x1 * y2 * x3 - x2 * y1 * x3) * (x1 * y1) * (y2 ^ 2 - x2 ^ 2 - 1)
      - (y1 * y2 * y3 + x2 * y1 * x3 - x1 * x2 * y3 - x1 * y2 * x3) * (x1 * y1 * (x2 ^ 2 + y2 ^ 2) + x2 * y2 * (x1 ^ 2 + y1 ^ 2))) * third

/-- The x-coordinate of a sum when the first point has denominators. -/
private theorem quotient_x {d X Y a b x y : F} (a_ne : a ≠ 0) (b_ne : b ≠ 0) :
    (X / a * y + x * (Y / b)) / (1 + d * (X / a) * x * (Y / b) * y) = (X * b * y + x * Y * a) / (a * b + d * X * x * Y * y) := by
  rw [← mul_div_mul_left _ _ (mul_ne_zero a_ne b_ne)]
  congr 1 <;> field_simp

private theorem quotient_y {d X Y a b x y : F} (a_ne : a ≠ 0) (b_ne : b ≠ 0) :
    (Y / b * y + X / a * x) / (1 - d * (X / a) * x * (Y / b) * y) = (Y * a * y + X * b * x) / (a * b - d * X * x * Y * y) := by
  rw [← mul_div_mul_left _ _ (mul_ne_zero a_ne b_ne)]
  congr 1 <;> field_simp

private theorem cleared_plus {d X Y a b x y : F} (a_ne : a ≠ 0) (b_ne : b ≠ 0)
    (nonzero : 1 + d * (X / a) * x * (Y / b) * y ≠ 0) : a * b + d * X * x * Y * y ≠ 0 := by
  have factored : a * b + d * X * x * Y * y = a * b * (1 + d * (X / a) * x * (Y / b) * y) := by field_simp
  rw [factored]
  exact mul_ne_zero (mul_ne_zero a_ne b_ne) nonzero

private theorem cleared_minus {d X Y a b x y : F} (a_ne : a ≠ 0) (b_ne : b ≠ 0)
    (nonzero : 1 - d * (X / a) * x * (Y / b) * y ≠ 0) : a * b - d * X * x * Y * y ≠ 0 := by
  have factored : a * b - d * X * x * Y * y = a * b * (1 - d * (X / a) * x * (Y / b) * y) := by field_simp
  rw [factored]
  exact mul_ne_zero (mul_ne_zero a_ne b_ne) nonzero

theorem add_assoc' (p q r : Point C) : p + q + r = p + (q + r) := by
  have first := p.on
  have second := q.on
  have third := r.on
  unfold Curve.On at first second third
  have pq_plus := plus_ne_zero p q
  have pq_minus := minus_ne_zero p q
  have qr_plus := plus_ne_zero q r
  have qr_minus := minus_ne_zero q r
  have left_plus := plus_ne_zero (p + q) r
  have right_plus := plus_ne_zero (q + r) p
  have left_minus := minus_ne_zero (p + q) r
  have right_minus := minus_ne_zero (q + r) p
  rw [add_comm' p (q + r)]
  ext
  · rw [add_x, add_y] at left_plus right_plus
    rw [add_x (p + q) r, add_x (q + r) p, add_x p q, add_y p q, add_x q r, add_y q r, quotient_x pq_plus pq_minus,
      quotient_x qr_plus qr_minus,
      div_eq_div_iff (cleared_plus pq_plus pq_minus left_plus) (cleared_plus qr_plus qr_minus right_plus)]
    linear_combination assoc_x first second third
  · rw [add_x, add_y] at left_minus right_minus
    rw [add_y (p + q) r, add_y (q + r) p, add_x p q, add_y p q, add_x q r, add_y q r, quotient_y pq_plus pq_minus,
      quotient_y qr_plus qr_minus,
      div_eq_div_iff (cleared_minus pq_plus pq_minus left_minus) (cleared_minus qr_plus qr_minus right_minus)]
    linear_combination assoc_y first second third

instance : AddCommGroup (Point C) where
  add_assoc := add_assoc'
  zero_add := zero_add'
  add_zero p := by rw [add_comm', zero_add']
  neg_add_cancel := neg_add_cancel'
  add_comm := add_comm'
  nsmul := nsmulRec
  zsmul := zsmulRec

end Coalesce.Library.EdwardsCurve
