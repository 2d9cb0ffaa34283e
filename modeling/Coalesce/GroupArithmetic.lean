import Coalesce.Ed25519
import Coalesce.Library.ExtendedCoordinates
import Coalesce.PointEncoding

/-! The group operations on limbs compute those of the curve. -/

namespace Coalesce.GroupArithmetic
open Library.ByteNumber Library.BitLoop Library.Collect Library.EdwardsCurve Library.ExtendedCoordinates
open Library.PointCompression Field25519 FieldArithmetic FieldBytes Primes25519 Edwards25519 PointEncoding Ed25519

/-- Limbs for four coordinates. -/
structure Limbs (g : GeP3) (e : Extended (ZMod P)) : Prop where
  X : Rep 1 g.X e.X
  Y : Rep 1 g.Y e.Y
  Z : Rep 1 g.Z e.Z
  T : Rep 1 g.T e.T

/-- Some coordinates of the point. -/
def Denotes (g : GeP3) (p : Point edwards) : Prop := ∃ e, Limbs g e ∧ e.Of p

theorem Limbs.denotes {g : GeP3} {p : Point edwards} (limbs : Limbs g (ofPoint p)) : Denotes g p :=
  ⟨ofPoint p, limbs, ofPoint_of p⟩

structure Context (c : EdCtx) : Prop where
  d : Rep 1 c.d edwards.d
  d2 : Rep 2 c.d2 (edwards.d + edwards.d)
  sqrtm1 : Rep 1 c.sqrtm1 edwards.i

theorem rep_feFromU64 {v : BitVec 64} {n : ℕ} (number : v.toNat = n) (small : n ≤ 2 ^ 52 - 38) :
    Rep 1 (feFromU64 v) (n : ZMod P) := by
  subst number
  exact rep_small small

theorem rep_feNeg {a : Fe25519} {x : ZMod P} (rep : Rep 1 a x) : Rep 1 (feNeg a) (-x) := by
  have zero : Rep 0 fe25519SetZero (0 : ZMod P) :=
    ⟨⟨Nat.le_refl 0, Nat.le_refl 0, Nat.le_refl 0, Nat.le_refl 0, Nat.le_refl 0⟩, rep_zero.denotes⟩
  have difference := rep_sub zero rep (by decide)
  rwa [zero_sub] at difference

theorem feEqual_below {a b : Fe25519} {x y : ZMod P} (first : Below (2 ^ 63) a) (x_eq : (value a : ZMod P) = x)
    (second : Below (2 ^ 63) b) (y_eq : (value b : ZMod P) = y) : feEqual a b = decide (x = y) := by
  rw [feEqual, fe25519Tobytes_below first x_eq, fe25519Tobytes_below second y_eq, Bool.eq_iff_iff, beq_iff_eq, decide_eq_true_eq,
    differences_eq_zero (leBytes_length 32 x.val) (leBytes_length 32 y.val)]
  exact ⟨encoding_injective, fun same => by rw [same]⟩

theorem feEqual_eq {a b : Fe25519} {x y : ZMod P} (first : Rep 4 a x) (second : Rep 4 b y) :
    feEqual a b = decide (x = y) :=
  feEqual_below first.within.carries first.denotes second.within.carries second.denotes

theorem P14_root : ((2 : ℕ) : ZMod P) ^ (leNat FE25519_P14_EXP % 2 ^ 256) = edwards.i :=
  cast_pow 256 (by decide) (by decide +kernel)

theorem edInit_context : Context edInit := by
  have num := rep_feNeg (rep_feFromU64 (v := 121665) (n := 121665) rfl (by decide))
  have den := rep_feFromU64 (v := 121666) (n := 121666) rfl (by decide)
  have two := rep_feFromU64 (v := 2) (n := 2) rfl (by decide)
  have quotient := rep_mul (num.mono (by decide)) ((rep_invert (den.mono (by decide))).mono (by decide))
  have d_eq : -((121665 : ℕ) : ZMod P) * ((121666 : ℕ) : ZMod P)⁻¹ = edwards.d := by
    rw [← div_eq_mul_inv, Nat.cast_ofNat, Nat.cast_ofNat]
    rfl
  have root := rep_pow (two.mono (by decide)) FE25519_P14_EXP
  rw [d_eq] at quotient
  rw [P14_root] at root
  unfold edInit
  refine ⟨quotient, rep_add quotient quotient (by decide), ?_⟩
  dsimp only
  exact root

/-! Addition. -/

theorem Denotes.geAdd {c : EdCtx} (context : Context c) {g h : GeP3} {p q : Point edwards} (first : Denotes g p)
    (second : Denotes h q) : Denotes (geAdd g h c) (p + q) := by
  obtain ⟨e, ⟨X1, Y1, Z1, T1⟩, of_p⟩ := first
  obtain ⟨f, ⟨X2, Y2, Z2, T2⟩, of_q⟩ := second
  have a := rep_mul ((rep_sub Y1 X1 (by decide)).mono (by decide)) ((rep_sub Y2 X2 (by decide)).mono (by decide))
  have b := rep_mul ((rep_add Y1 X1 (by decide)).mono (by decide)) ((rep_add Y2 X2 (by decide)).mono (by decide))
  have cc := rep_mul ((rep_mul (T1.mono (by decide)) (T2.mono (by decide))).mono (by decide)) (context.d2.mono (by decide))
  have zz := rep_mul (Z1.mono (by decide)) (Z2.mono (by decide))
  have d := rep_add zz zz (by decide)
  have e' := rep_sub b a (by decide)
  have f' := rep_sub d cc (by decide)
  have g' := rep_add d cc (by decide)
  have h' := rep_add b a (by decide)
  exact ⟨e.add (edwards.d + edwards.d) f, ⟨rep_mul (e'.mono (by decide)) (f'.mono (by decide)),
    rep_mul (g'.mono (by decide)) (h'.mono (by decide)), rep_mul (f'.mono (by decide)) (g'.mono (by decide)),
    rep_mul (e'.mono (by decide)) (h'.mono (by decide))⟩, of_p.add of_q⟩

theorem geIdentity_denotes : Denotes geIdentity 0 :=
  ⟨Extended.identity, ⟨rep_zero, rep_one, rep_one, rep_zero⟩, of_identity⟩

theorem Denotes.geNegate {g : GeP3} {p : Point edwards} (denotes : Denotes g p) : Denotes (geNegate g) (-p) := by
  obtain ⟨e, ⟨X, Y, Z, T⟩, of⟩ := denotes
  unfold Ed25519.geNegate
  exact ⟨e.neg, ⟨rep_feNeg X, Y, Z, rep_feNeg T⟩, of.neg⟩

theorem geCswap_eq (a b : GeP3) (swap : ℕ) : geCswap a b swap = if swap ≠ 0 then (b, a) else (a, b) := by
  simp only [geCswap, fe25519Cswap_eq]
  split <;> rfl

/-! The ladder. -/

/-- The multiple reached, and the next one. -/
structure Reached (p : Point edwards) (sofar : ℕ) (r : GeP3 × GeP3) : Prop where
  this : Denotes r.1 (sofar • p)
  next : Denotes r.2 ((sofar + 1) • p)

theorem geRound_eq (scalar : List UInt8) (c : EdCtx) (r : GeP3 × GeP3) (bit : ℕ) :
    geRound scalar c r bit =
      if bitAt scalar bit ≠ 0 then (geAdd r.2 r.1 c, geAdd r.2 r.2 c) else (geAdd r.1 r.1 c, geAdd r.1 r.2 c) := by
  simp only [geRound, geCswap_eq]
  split <;> rfl

theorem Reached.geRound {c : EdCtx} (context : Context c) {scalar : List UInt8} {p : Point edwards} {sofar : ℕ}
    {r : GeP3 × GeP3} (reached : Reached p sofar r) (bit : ℕ) :
    Reached p (2 * sofar + leNat scalar / 2 ^ bit % 2) (geRound scalar c r bit) := by
  obtain ⟨this, next⟩ := reached
  rw [← bitAt_eq, geRound_eq]
  split
  · next set =>
    rw [show bitAt scalar bit = 1 from (Nat.mod_two_eq_zero_or_one _).resolve_left set]
    have sum := next.geAdd context this
    have double := next.geAdd context next
    rw [← add_nsmul, show sofar + 1 + sofar = 2 * sofar + 1 by omega] at sum
    rw [← add_nsmul, show sofar + 1 + (sofar + 1) = 2 * sofar + 1 + 1 by omega] at double
    exact ⟨sum, double⟩
  · next clear =>
    rw [show bitAt scalar bit = 0 by omega]
    have sum := this.geAdd context next
    have double := this.geAdd context this
    rw [← add_nsmul, show sofar + (sofar + 1) = 2 * sofar + 0 + 1 by omega] at sum
    rw [← add_nsmul, show sofar + sofar = 2 * sofar + 0 by omega] at double
    exact ⟨double, sum⟩

/-- The scalar's low 255 bits times the point. -/
theorem Denotes.geScalarmult {c : EdCtx} (context : Context c) {g : GeP3} {p : Point edwards} (denotes : Denotes g p)
    (scalar : List UInt8) : Denotes (geScalarmult g scalar c) ((leNat scalar % 2 ^ 255) • p) := by
  have start : Reached p 0 (geIdentity, g) := by
    refine ⟨?_, ?_⟩
    · rw [zero_nsmul]
      exact geIdentity_denotes
    · rwa [zero_add, one_nsmul]
  exact (bitsDown_holds (Reached p) (leNat scalar) (fun _ _ bit reached => reached.geRound context bit) 255 start).this

end Coalesce.GroupArithmetic
