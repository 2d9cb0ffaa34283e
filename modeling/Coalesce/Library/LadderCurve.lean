import Coalesce.Library.EdwardsCurve
import Coalesce.Library.MontgomeryLadder

/-! The Montgomery ladder computes multiples of points of the Edwards curve, through
`u = (1 + y) / (1 - y)`. The point of order two and the neutral element both have
`u = 0`, from which the ladder gets 0. -/

namespace Coalesce.Library.LadderCurve
open BitLoop EdwardsCurve MontgomeryLadder

variable {F : Type} [Field F] {C : Curve F}

/-- 0 for the neutral element. -/
def uCoordinate (p : Point C) : F := (1 + p.y) / (1 - p.y)

/-- Projective coordinates of `u`. -/
def Represents (x z : F) (p : Point C) : Prop := ∃ c, c ≠ 0 ∧ x = c * (1 + p.y) ∧ z = c * (1 - p.y)

theorem Represents.quotient {x z : F} {p : Point C} (represents : Represents x z p) : x * z⁻¹ = uCoordinate p := by
  obtain ⟨c, nonzero, rfl, rfl⟩ := represents
  rw [← div_eq_mul_inv, mul_div_mul_left _ _ nonzero, uCoordinate]

theorem Represents.neg {x z : F} {p : Point C} (represents : Represents x z p) : Represents x z (-p) := represents

theorem d_succ_ne_zero (C : Curve F) : 1 + C.d ≠ 0 := fun zero => C.nonsquare C.i (by linear_combination C.i_sq - zero)

theorem eight_ne_zero (C : Curve F) : (8 : F) ≠ 0 := by
  rw [show (8 : F) = 2 * 2 * 2 by norm_num]
  exact mul_ne_zero (mul_ne_zero C.two_ne_zero C.two_ne_zero) C.two_ne_zero

/-! Doubling. -/

/-- What the doubled coordinates are, up to a factor. -/
private theorem double_factor {d a24 x y : F} (on : y * y = 1 + x * x + d * (x * x) * (y * y))
    (constant : a24 * (1 + d) = -d) (d_ne : 1 + d ≠ 0) : (1 - d * x * x) * (1 + a24 * (1 - y * y)) = 1 := by
  have scaled : (1 + d) * ((1 - d * x * x) * (1 + a24 * (1 - y * y)) - 1) = 0 := by
    linear_combination (1 - d * x * x) * (1 - y * y) * constant + d * on
  exact sub_eq_zero.mp ((mul_eq_zero.mp scaled).resolve_left d_ne)

theorem represents_double {a24 x z : F} {p : Point C} (constant : a24 * (1 + C.d) = -C.d) (represents : Represents x z p) :
    Represents ((x + z) * (x + z) * ((x - z) * (x - z)))
      (((x + z) * (x + z) - (x - z) * (x - z)) *
        ((x + z) * (x + z) + a24 * ((x + z) * (x + z) - (x - z) * (x - z)))) (p + p) := by
  obtain ⟨c, nonzero, rfl, rfl⟩ := represents
  have minus := minus_ne_zero p p
  have on := p.on
  unfold Curve.On at on
  have factor := double_factor on constant (d_succ_ne_zero C)
  have eight := eight_ne_zero C
  refine ⟨8 * c * c * c * c * (1 - C.d * p.x * p.x * p.y * p.y) * (1 + a24 * (1 - p.y * p.y)), ?_, ?_, ?_⟩
  · have right : 1 + a24 * (1 - p.y * p.y) ≠ 0 := right_ne_zero_of_mul_eq_one factor
    simp only [mul_ne_zero_iff]
    exact ⟨⟨⟨⟨⟨⟨eight, nonzero⟩, nonzero⟩, nonzero⟩, nonzero⟩, minus⟩, right⟩
  · have sum : (1 - C.d * p.x * p.x * p.y * p.y) * (1 + (p + p).y) = 2 * (p.y * p.y) * (1 - C.d * p.x * p.x) := by
      rw [add_y, mul_add, mul_div_cancel₀ _ minus]
      linear_combination -on
    linear_combination -(8 * c * c * c * c * (1 + a24 * (1 - p.y * p.y))) * sum -
      16 * c * c * c * c * p.y * p.y * factor
  · have difference : (1 - C.d * p.x * p.x * p.y * p.y) * (1 - (p + p).y) = 2 * (1 - p.y * p.y) := by
      rw [add_y, mul_sub, mul_div_cancel₀ _ minus]
      linear_combination on
    linear_combination -(8 * c * c * c * c * (1 + a24 * (1 - p.y * p.y))) * difference

/-! Adding two points whose difference is known. -/

private theorem add_cross {d x1 y1 x2 y2 : F} (first : y1 * y1 = 1 + x1 * x1 + d * (x1 * x1) * (y1 * y1))
    (second : y2 * y2 = 1 + x2 * x2 + d * (x2 * x2) * (y2 * y2)) :
    (y1 + y2) * (y1 + y2) * (1 + d * x1 * x2 * y1 * y2 - y1 * y2 + x1 * x2) *
        (1 - d * x1 * x2 * y1 * y2 - y1 * y2 - x1 * x2) =
      (y2 - y1) * (y2 - y1) * (1 + d * x1 * x2 * y1 * y2 + y1 * y2 - x1 * x2) *
        (1 - d * x1 * x2 * y1 * y2 + y1 * y2 + x1 * x2) := by
  grind

/-- `(y1 + y2)²` against `u (y2 - y1)²` is `1 + y` against `1 - y` of the sum. -/
private theorem add_ratio {p q : Point C} {u : F} (base : u * (1 - (q + -p).y) = 1 + (q + -p).y) (one : 1 - (q + -p).y ≠ 0) :
    u * ((q.y - p.y) * (q.y - p.y)) * (1 + (p + q).y) = (p.y + q.y) * (p.y + q.y) * (1 - (p + q).y) := by
  have plus := minus_ne_zero q (-p)
  have minus := minus_ne_zero p q
  have cross := add_cross p.on q.on
  simp only [neg_x, neg_y] at plus
  have difference : (1 - C.d * q.x * -p.x * q.y * p.y) * (q + -p).y = q.y * p.y + q.x * -p.x := by
    rw [add_y, neg_x, neg_y, mul_div_cancel₀ _ plus]
  have sum : (1 - C.d * p.x * q.x * p.y * q.y) * (p + q).y = p.y * q.y + p.x * q.x := by
    rw [add_y, mul_div_cancel₀ _ minus]
  generalize (q + -p).y = y0 at *
  generalize (p + q).y = y3 at *
  have scaled : (1 - y0) * (1 - C.d * q.x * -p.x * q.y * p.y) * (1 - C.d * p.x * q.x * p.y * q.y) *
      (u * ((q.y - p.y) * (q.y - p.y)) * (1 + y3) - (p.y + q.y) * (p.y + q.y) * (1 - y3)) = 0 := by
    linear_combination (q.y - p.y) * (q.y - p.y) * (1 + y3) * (1 - C.d * q.x * -p.x * q.y * p.y) *
        (1 - C.d * p.x * q.x * p.y * q.y) * base +
      ((q.y - p.y) * (q.y - p.y) * (1 + y3) + (p.y + q.y) * (p.y + q.y) * (1 - y3)) *
        (1 - C.d * p.x * q.x * p.y * q.y) * difference +
      ((q.y - p.y) * (q.y - p.y) * (1 + C.d * p.x * q.x * p.y * q.y + p.y * q.y - p.x * q.x) +
        (p.y + q.y) * (p.y + q.y) * (1 + C.d * p.x * q.x * p.y * q.y - p.y * q.y + p.x * q.x)) * sum - cross
  exact sub_eq_zero.mp ((mul_eq_zero.mp scaled).resolve_left (mul_ne_zero (mul_ne_zero one plus) minus))

/-- Both vanish only for a difference with `u = 0` or none. -/
private theorem add_nonzero {p q : Point C} (one : 1 - (q + -p).y ≠ 0) (minus_one : 1 + (q + -p).y ≠ 0)
    (p_y : p.y = 0) (q_y : q.y = 0) : False := by
  have p_on := p.on
  have q_on := q.on
  unfold Curve.On at p_on q_on
  rw [p_y] at p_on
  rw [q_y] at q_on
  have y0 : (q + -p).y = -(q.x * p.x) := by
    rw [add_y, neg_x, neg_y, p_y, q_y]
    simp
  rw [y0] at one minus_one
  refine mul_ne_zero one minus_one ?_
  linear_combination q.x * q.x * p_on - q_on

theorem represents_add {x2 z2 x3 z3 u : F} {p q : Point C} (first : Represents x2 z2 p) (second : Represents x3 z3 q)
    (base : uCoordinate (q + -p) = u) (nonzero : u ≠ 0) :
    Represents (((x3 - z3) * (x2 + z2) + (x3 + z3) * (x2 - z2)) * ((x3 - z3) * (x2 + z2) + (x3 + z3) * (x2 - z2)))
      (u * (((x3 - z3) * (x2 + z2) - (x3 + z3) * (x2 - z2)) * ((x3 - z3) * (x2 + z2) - (x3 + z3) * (x2 - z2))))
      (p + q) := by
  obtain ⟨c, c_ne, rfl, rfl⟩ := first
  obtain ⟨c', c'_ne, rfl, rfl⟩ := second
  have one : 1 - (q + -p).y ≠ 0 := fun zero => nonzero (by rw [← base, uCoordinate, zero, div_zero])
  rw [uCoordinate, div_eq_iff one] at base
  have ratio := add_ratio base.symm one
  have minus_one : 1 + (q + -p).y ≠ 0 := by
    rw [base]
    exact mul_ne_zero nonzero one
  have factor : (p.y + q.y) * (p.y + q.y) + u * ((q.y - p.y) * (q.y - p.y)) ≠ 0 := by
    intro zero
    have twice : 2 * ((p.y + q.y) * (p.y + q.y)) = 0 := by linear_combination (1 + (p + q).y) * zero - ratio
    have sum : p.y + q.y = 0 := mul_self_eq_zero.mp ((mul_eq_zero.mp twice).resolve_left C.two_ne_zero)
    have difference : q.y - p.y = 0 := by
      rw [sum, mul_zero, zero_add] at zero
      exact mul_self_eq_zero.mp ((mul_eq_zero.mp zero).resolve_left nonzero)
    have p_double : 2 * p.y = 0 := by linear_combination sum - difference
    have q_double : 2 * q.y = 0 := by linear_combination sum + difference
    exact add_nonzero one minus_one ((mul_eq_zero.mp p_double).resolve_left C.two_ne_zero)
      ((mul_eq_zero.mp q_double).resolve_left C.two_ne_zero)
  have eight := eight_ne_zero C
  refine ⟨8 * (c * c * (c' * c')) * ((p.y + q.y) * (p.y + q.y) + u * ((q.y - p.y) * (q.y - p.y))), ?_, ?_, ?_⟩
  · exact mul_ne_zero (mul_ne_zero eight (mul_ne_zero (mul_ne_zero c_ne c_ne) (mul_ne_zero c'_ne c'_ne))) factor
  · linear_combination -(8 * (c * c * (c' * c'))) * ratio
  · linear_combination (8 * (c * c * (c' * c'))) * ratio

/-! The whole ladder. -/

/-- The two points are consecutive multiples. -/
structure Consecutive (p : Point C) (k : ℕ) (points : Points F) : Prop where
  lower : Represents points.x2 points.z2 (k • p)
  upper : Represents points.x3 points.z3 ((k + 1) • p)

theorem consecutive_start (p : Point C) (nonzero : uCoordinate p ≠ 0) : Consecutive p 0 (start (uCoordinate p)) := by
  obtain ⟨x2, z2, x3, z3⟩ := start_eq (uCoordinate p)
  have one : 1 - p.y ≠ 0 := fun zero => nonzero (by rw [uCoordinate, zero, div_zero])
  refine ⟨⟨2⁻¹, inv_ne_zero C.two_ne_zero, ?_, ?_⟩, ⟨(1 - p.y)⁻¹, inv_ne_zero one, ?_, ?_⟩⟩
  · rw [x2, zero_nsmul, zero_y, one_add_one_eq_two, inv_mul_cancel₀ C.two_ne_zero]
  · rw [z2, zero_nsmul, zero_y, sub_self, mul_zero]
  · rw [x3, zero_add, one_nsmul, uCoordinate, div_eq_mul_inv, mul_comm]
  · rw [z3, zero_add, one_nsmul, inv_mul_cancel₀ one]

/-- One round on points in order, and on points that are exchanged. -/
theorem consecutive_advance {a24 : F} (constant : a24 * (1 + C.d) = -C.d) {p : Point C} (nonzero : uCoordinate p ≠ 0)
    {k : ℕ} {points : Points F} (consecutive : Consecutive p k points) :
    Consecutive p (2 * k) (points.advance a24 (uCoordinate p)) ∧
      Consecutive p (2 * k + 1) (((points.cswap 1).advance a24 (uCoordinate p)).cswap 1) := by
  obtain ⟨lower, upper⟩ := consecutive
  have ahead : uCoordinate ((k + 1) • p + -(k • p)) = uCoordinate p := by
    rw [succ_nsmul, add_comm (k • p) p, add_neg_cancel_right]
  have behind : uCoordinate (k • p + -((k + 1) • p)) = uCoordinate p := by
    rw [succ_nsmul, neg_add, ← add_assoc, add_neg_cancel, zero_add]
    rfl
  have even : (2 * k) • p = k • p + k • p := by rw [two_mul, add_nsmul]
  have odd : (2 * k + 1) • p = k • p + (k + 1) • p := by rw [← add_nsmul, show 2 * k + 1 = k + (k + 1) by omega]
  have next : (2 * k + 1 + 1) • p = (k + 1) • p + (k + 1) • p := by
    rw [← add_nsmul, show 2 * k + 1 + 1 = k + 1 + (k + 1) by omega]
  refine ⟨⟨?_, ?_⟩, ⟨?_, ?_⟩⟩
  · rw [even]
    exact represents_double constant lower
  · rw [odd]
    exact represents_add lower upper ahead nonzero
  · rw [odd, add_comm]
    exact represents_add upper lower behind nonzero
  · rw [next]
    exact represents_double constant upper

theorem ladder_consecutive {a24 : F} (constant : a24 * (1 + C.d) = -C.d) {p : Point C} (nonzero : uCoordinate p ≠ 0)
    (bits k : ℕ) : Consecutive p (k % 2 ^ bits) (ladder a24 bits k (uCoordinate p)) := by
  unfold ladder
  refine (bitsDown_holds (fun sofar (s : State F) => s.swap ≤ 1 ∧ Consecutive p sofar (s.points.cswap s.swap)) k ?_ bits
    (s := ⟨start (uCoordinate p), 0⟩) ⟨Nat.zero_le 1, consecutive_start p nonzero⟩).2
  rintro sofar s bit ⟨small, consecutive⟩
  have two := Nat.mod_lt (k / 2 ^ bit) (show 2 > 0 by decide)
  obtain ⟨plain, exchanged⟩ := consecutive_advance constant nonzero consecutive
  simp only [step, s.points.cswap_xor small two]
  refine ⟨by omega, ?_⟩
  rcases Nat.mod_two_eq_zero_or_one (k / 2 ^ bit) with zero | one
  · rw [zero]
    exact plain
  · rw [one]
    exact exchanged

/-- From `u = 0` the ladder gets 0. -/
theorem ladder_zero (a24 : F) (bits k : ℕ) : (ladder a24 bits k 0).x2 * (ladder a24 bits k 0).z2⁻¹ = 0 := by
  have vanish : (ladder a24 bits k 0).x2 * (ladder a24 bits k 0).z2 = 0 := by
    have swapped (points : Points F) (swap : ℕ) (vanish : points.x2 * points.z2 = 0 ∧ points.x3 * points.z3 = 0) :
        (points.cswap swap).x2 * (points.cswap swap).z2 = 0 ∧ (points.cswap swap).x3 * (points.cswap swap).z3 = 0 := by
      unfold Points.cswap
      split
      · exact vanish.symm
      · exact vanish
    unfold ladder
    refine (swapped _ _ (bitsDown_holds
      (fun _ (s : State F) => s.points.x2 * s.points.z2 = 0 ∧ s.points.x3 * s.points.z3 = 0) k ?_ bits ?_)).1
    · rintro _ s bit vanish
      obtain ⟨second, -⟩ := swapped s.points (s.swap ^^^ k / 2 ^ bit % 2) vanish
      simp only [step, Points.advance_z3, Points.advance_z2, zero_mul, mul_zero, and_true]
      generalize s.points.cswap (s.swap ^^^ k / 2 ^ bit % 2) = points at *
      have doubled : (points.x2 + points.z2) * (points.x2 + points.z2) -
          (points.x2 - points.z2) * (points.x2 - points.z2) = 0 := by linear_combination 4 * second
      rw [doubled, zero_mul, mul_zero]
    · obtain ⟨x2, z2, x3, z3⟩ := start_eq (0 : F)
      exact ⟨by rw [z2, mul_zero], by rw [x3, zero_mul]⟩
  rcases mul_eq_zero.mp vanish with x2 | z2
  · rw [x2, zero_mul]
  · rw [z2, inv_zero, mul_zero]

theorem double_eq_zero {p : Point C} (x : p.x = 0) : p + p = 0 := by
  have on := p.on
  unfold Curve.On at on
  rw [x] at on
  ext
  · rw [add_x, x]
    simp
  · rw [add_y, x, zero_y]
    simp only [mul_zero, zero_mul, sub_zero, add_zero, div_one]
    linear_combination on

/-- `u = 0` for the neutral element and the point of order two. -/
theorem uCoordinate_eq_zero {p : Point C} (zero : uCoordinate p = 0) : p + p = 0 := by
  have on := p.on
  unfold Curve.On at on
  have square : p.y * p.y = 1 := by
    rcases div_eq_zero_iff.mp zero with plus | minus
    · linear_combination (p.y - 1) * plus
    · linear_combination -(p.y + 1) * minus
  have x : (1 + C.d) * (p.x * p.x) = 0 := by linear_combination -on + (1 - C.d * (p.x * p.x)) * square
  exact double_eq_zero (mul_self_eq_zero.mp ((mul_eq_zero.mp x).resolve_left (d_succ_ne_zero C)))

/-- Even multiples, for every starting point. -/
theorem ladder_quotient {a24 : F} (constant : a24 * (1 + C.d) = -C.d) (p : Point C) {bits k : ℕ} (fits : k < 2 ^ bits)
    (even : 2 ∣ k) :
    (ladder a24 bits k (uCoordinate p)).x2 * (ladder a24 bits k (uCoordinate p)).z2⁻¹ = uCoordinate (k • p) := by
  by_cases zero : uCoordinate p = 0
  · obtain ⟨half, rfl⟩ := even
    rw [zero, ladder_zero, mul_nsmul, two_nsmul, uCoordinate_eq_zero zero]
    simp [uCoordinate]
  · have consecutive := ladder_consecutive constant zero bits k
    rw [Nat.mod_eq_of_lt fits] at consecutive
    exact consecutive.lower.quotient

end Coalesce.Library.LadderCurve
