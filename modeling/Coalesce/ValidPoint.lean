import Coalesce.GroupBytes

/-! Valid extended points, by their coordinates alone, and what the group operations make of
them: addition in place or not, and every round of the ladder. -/

namespace Coalesce.ValidPoint
open Library.ByteNumber Library.BitLoop Library.EdwardsCurve Library.ExtendedCoordinates Field25519 FieldArithmetic
open Primes25519 Edwards25519 Ed25519 GroupArithmetic GroupBytes

/-- The field element that limbs stand for. -/
def residue (a : Fe25519) : ZMod P := (value a : ZMod P)

def affineX (g : GeP3) : ZMod P := residue g.X / residue g.Z

def affineY (g : GeP3) : ZMod P := residue g.Y / residue g.Z

/-- Limbs that `fe25519_sub` takes, `Z ≠ 0`, `T Z = X Y` and the equation of the curve. -/
structure Valid (g : GeP3) : Prop where
  X : Within 1 g.X
  Y : Within 1 g.Y
  Z : Within 1 g.Z
  T : Within 1 g.T
  nonzero : residue g.Z ≠ 0
  product : residue g.T * residue g.Z = residue g.X * residue g.Y
  curve : -affineX g ^ 2 + affineY g ^ 2 = 1 + d * affineX g ^ 2 * affineY g ^ 2

theorem on_of_equation {x y : ZMod P} (equation : -x ^ 2 + y ^ 2 = 1 + d * x ^ 2 * y ^ 2) : edwards.On x y := by
  change y * y = 1 + x * x + d * (x * x) * (y * y)
  linear_combination equation

theorem equation_of_on {x y : ZMod P} (on : edwards.On x y) : -x ^ 2 + y ^ 2 = 1 + d * x ^ 2 * y ^ 2 := by
  change y * y = 1 + x * x + d * (x * x) * (y * y) at on
  linear_combination on

/-- The point itself. -/
def Valid.point {g : GeP3} (valid : Valid g) : Point edwards := ⟨affineX g, affineY g, on_of_equation valid.curve⟩

theorem Valid.denotes {g : GeP3} (valid : Valid g) : Denotes g valid.point := by
  have x : residue g.X = affineX g * residue g.Z := (div_mul_cancel₀ _ valid.nonzero).symm
  have y : residue g.Y = affineY g * residue g.Z := (div_mul_cancel₀ _ valid.nonzero).symm
  have t : residue g.T = affineX g * affineY g * residue g.Z := by
    apply mul_right_cancel₀ valid.nonzero
    rw [valid.product, x, y]
    ring
  exact ⟨⟨residue g.X, residue g.Y, residue g.Z, residue g.T⟩,
    ⟨⟨valid.X, rfl⟩, ⟨valid.Y, rfl⟩, ⟨valid.Z, rfl⟩, ⟨valid.T, rfl⟩⟩, ⟨valid.nonzero, x, y, t⟩⟩

theorem valid_of_denotes {g : GeP3} {p : Point edwards} (denotes : Denotes g p) :
    ∃ valid : Valid g, valid.point = p := by
  obtain ⟨e, ⟨X, Y, Z, T⟩, of⟩ := denotes
  have x : affineX g = p.x := by
    rw [affineX, residue, residue, X.denotes, Z.denotes, div_eq_mul_inv]
    exact of.affine.1
  have y : affineY g = p.y := by
    rw [affineY, residue, residue, Y.denotes, Z.denotes, div_eq_mul_inv]
    exact of.affine.2
  have valid : Valid g := by
    refine ⟨X.within, Y.within, Z.within, T.within, ?_, ?_, ?_⟩
    · rw [residue, Z.denotes]
      exact of.Z_ne
    · rw [residue, residue, residue, residue, X.denotes, Y.denotes, Z.denotes, T.denotes, of.X, of.Y, of.T]
      ring
    · rw [x, y]
      exact equation_of_on p.on
  exact ⟨valid, Point.ext x y⟩

theorem base_valid : ∃ base, geFrombytes ED25519_B_COMPRESSED edInit = some base ∧
    ∃ valid : Valid base, valid.point = B := by
  obtain ⟨base, read, denotes⟩ := base_read
  exact ⟨base, read, valid_of_denotes denotes⟩

/-! Addition, with the operands and the result wherever they are. -/

section
variable {α : Type} [DecidableEq α]

/-- `ge_add` on objects in memory: `r` is written coordinate by coordinate. -/
def geAddAt (mem : α → GeP3) (r p q : α) (c : EdCtx) : α → GeP3 :=
  let t := fe25519Sub (mem p).Y (mem p).X
  let u := fe25519Sub (mem q).Y (mem q).X
  let a := fe25519Mul t u
  let t := fe25519Add (mem p).Y (mem p).X
  let u := fe25519Add (mem q).Y (mem q).X
  let b := fe25519Mul t u
  let t := fe25519Mul (mem p).T (mem q).T
  let cc := fe25519Mul t c.d2
  let t := fe25519Mul (mem p).Z (mem q).Z
  let d := fe25519Add t t
  let e := fe25519Sub b a
  let f := fe25519Sub d cc
  let g := fe25519Add d cc
  let h := fe25519Add b a
  let mem := Function.update mem r { mem r with X := fe25519Mul e f }
  let mem := Function.update mem r { mem r with Y := fe25519Mul g h }
  let mem := Function.update mem r { mem r with T := fe25519Mul e h }
  Function.update mem r { mem r with Z := fe25519Mul f g }

theorem geAddAt_eq (mem : α → GeP3) (r p q : α) (c : EdCtx) :
    geAddAt mem r p q c = Function.update mem r (geAdd (mem p) (mem q) c) := by
  simp only [geAddAt, Function.update_idem, Function.update_self]
  rfl

/-- Addition has no exceptional case: the sum of valid points, one of them overwritten or not,
is valid and is the affine sum, whose denominators are never zero. -/
theorem ge_add_complete (mem : α → GeP3) (r p q : α) (first : Valid (mem p)) (second : Valid (mem q)) :
    let x1 := affineX (mem p)
    let y1 := affineY (mem p)
    let x2 := affineX (mem q)
    let y2 := affineY (mem q)
    let after := geAddAt mem r p q edInit
    Valid (after r) ∧ (∀ other, other ≠ r → after other = mem other) ∧
      1 + d * x1 * x2 * y1 * y2 ≠ 0 ∧ 1 - d * x1 * x2 * y1 * y2 ≠ 0 ∧
      affineX (after r) = (x1 * y2 + x2 * y1) / (1 + d * x1 * x2 * y1 * y2) ∧
      affineY (after r) = (y1 * y2 + x1 * x2) / (1 - d * x1 * x2 * y1 * y2) := by
  intro x1 y1 x2 y2 after
  have sum : after = Function.update mem r (geAdd (mem p) (mem q) edInit) := geAddAt_eq mem r p q edInit
  obtain ⟨valid, same⟩ := valid_of_denotes (first.denotes.geAdd edInit_context second.denotes)
  have placed : after r = geAdd (mem p) (mem q) edInit := by rw [sum, Function.update_self]
  rw [placed]
  refine ⟨valid, ?_, plus_ne_zero first.point second.point, minus_ne_zero first.point second.point, ?_, ?_⟩
  · intro other apart
    rw [sum, Function.update_of_ne apart]
  · exact congrArg Point.x same
  · exact congrArg Point.y same

end

/-- The base point doubled in place. -/
theorem ge_add_complete_doubled_base : ∃ base, geFrombytes ED25519_B_COMPRESSED edInit = some base ∧
    let mem : Unit → GeP3 := fun _ => base
    let x := affineX base
    let y := affineY base
    let after := geAddAt mem () () () edInit
    Valid (after ()) ∧ (∀ other, other ≠ () → after other = mem other) ∧
      1 + d * x * x * y * y ≠ 0 ∧ 1 - d * x * x * y * y ≠ 0 ∧
      affineX (after ()) = (x * y + x * y) / (1 + d * x * x * y * y) ∧
      affineY (after ()) = (y * y + x * x) / (1 - d * x * x * y * y) := by
  obtain ⟨base, read, valid, -⟩ := base_valid
  exact ⟨base, read, ge_add_complete (fun _ => base) () () () valid valid⟩

/-! The ladder on its three objects. -/

/-- The locals of `ge_scalarmult`. -/
inductive Local where
  | r0
  | r1
  | t
  deriving DecidableEq, Repr

def geCswapAt (mem : Local → GeP3) (swap : ℕ) : Local → GeP3 :=
  let swapped := geCswap (mem .r0) (mem .r1) swap
  Function.update (Function.update mem .r0 swapped.1) .r1 swapped.2

/-- One round; the doubling overwrites what it reads. -/
def geRoundAt (scalar : List UInt8) (c : EdCtx) (mem : Local → GeP3) (bit : ℕ) : Local → GeP3 :=
  let b := bitAt scalar bit
  let mem := geCswapAt mem b
  let mem := geAddAt mem .t .r0 .r1 c
  let mem := geAddAt mem .r0 .r0 .r0 c
  let mem := Function.update mem .r1 (mem .t)
  geCswapAt mem b

/-- The locals after the first rounds; `t` starts with anything. -/
def ladderAt (g t : GeP3) (scalar : List UInt8) (c : EdCtx) (rounds : ℕ) : Local → GeP3 :=
  (List.range rounds).foldl (fun mem i => geRoundAt scalar c mem (254 - i)) fun
    | .r0 => geIdentity
    | .r1 => g
    | .t => t

theorem geRoundAt_eq (scalar : List UInt8) (c : EdCtx) (mem : Local → GeP3) (bit : ℕ) :
    (geRoundAt scalar c mem bit .r0, geRoundAt scalar c mem bit .r1) = geRound scalar c (mem .r0, mem .r1) bit := by
  simp only [geRoundAt, geCswapAt, geAddAt_eq, geRound, Function.update_apply]
  rfl

/-- The two points, without the third object. -/
theorem ladderAt_pair (g t : GeP3) (scalar : List UInt8) (c : EdCtx) (rounds : ℕ) :
    (ladderAt g t scalar c rounds .r0, ladderAt g t scalar c rounds .r1) =
      (List.range rounds).foldl (fun r i => geRound scalar c r (254 - i)) (geIdentity, g) := by
  induction rounds with
  | zero => rfl
  | succ rounds ih =>
    rw [List.range_succ, List.foldl_append, ← ih, ladderAt, List.range_succ, List.foldl_append]
    exact geRoundAt_eq scalar c (ladderAt g t scalar c rounds) (254 - rounds)

theorem ladderAt_eq (g t : GeP3) (scalar : List UInt8) (c : EdCtx) :
    ladderAt g t scalar c 255 .r0 = geScalarmult g scalar c := by
  rw [geScalarmult, bitsDown_eq_foldl]
  exact congrArg Prod.fst (ladderAt_pair g t scalar c 255)

/-- The bits read so far times the point, and one more. -/
theorem ladderAt_reached {g : GeP3} {p : Point edwards} (denotes : Denotes g p) {scalar : List UInt8}
    (clear : leNat scalar < 2 ^ 255) (t : GeP3) {rounds : ℕ} (few : rounds ≤ 255) :
    Reached p (leNat scalar / 2 ^ (255 - rounds))
      (ladderAt g t scalar edInit rounds .r0, ladderAt g t scalar edInit rounds .r1) := by
  induction rounds with
  | zero =>
    rw [Nat.sub_zero, Nat.div_eq_of_lt clear]
    constructor
    · rw [zero_nsmul]
      exact geIdentity_denotes
    · rw [zero_add, one_nsmul]
      exact denotes
  | succ rounds ih =>
    have next := @Reached.geRound _ edInit_context scalar _ _ _ (ih (by omega)) (254 - rounds)
    have bits : 2 * (leNat scalar / 2 ^ (255 - rounds)) + leNat scalar / 2 ^ (254 - rounds) % 2 =
        leNat scalar / 2 ^ (254 - rounds) := by
      rw [show 255 - rounds = 254 - rounds + 1 by omega, pow_succ, ← Nat.div_div_eq_div_mul]
      exact Nat.div_add_mod _ 2
    rw [bits, ladderAt_pair] at next
    rw [ladderAt_pair, List.range_succ, List.foldl_append, show 255 - (rounds + 1) = 254 - rounds by omega]
    exact next

/-- The ladder computes the `n`-fold sum of any valid point, for `n` of 255 bits. After every
round both of its points are valid, and the second is the first and the point. -/
theorem scalarmult_correct (g : GeP3) (valid : Valid g) (scalar : Vector UInt8 32) (clear : leNat scalar.toList < 2 ^ 255) :
    (∃ result : Valid (geScalarmult g scalar.toList edInit), result.point = leNat scalar.toList • valid.point) ∧
      ∀ t, ladderAt g t scalar.toList edInit 255 .r0 = geScalarmult g scalar.toList edInit ∧
        ∀ rounds ≤ 255,
          ∃ (r0 : Valid (ladderAt g t scalar.toList edInit rounds .r0))
            (r1 : Valid (ladderAt g t scalar.toList edInit rounds .r1)),
            r0.point = (leNat scalar.toList / 2 ^ (255 - rounds)) • valid.point ∧ r1.point = r0.point + valid.point := by
  constructor
  · have product := valid.denotes.geScalarmult edInit_context scalar.toList
    rw [Nat.mod_eq_of_lt clear] at product
    exact valid_of_denotes product
  · intro t
    refine ⟨ladderAt_eq g t scalar.toList edInit, ?_⟩
    intro rounds few
    obtain ⟨this, next⟩ := ladderAt_reached valid.denotes clear t few
    obtain ⟨r0, first⟩ := valid_of_denotes this
    obtain ⟨r1, second⟩ := valid_of_denotes next
    refine ⟨r0, r1, first, ?_⟩
    rw [second, first, succ_nsmul]

/-- Five times the base point. -/
theorem scalarmult_correct_base_five : ∃ base, geFrombytes ED25519_B_COMPRESSED edInit = some base ∧
    (∃ result : Valid (geScalarmult base (5 :: List.replicate 31 0) edInit), result.point = 5 • B) ∧
      ∀ t, ladderAt base t (5 :: List.replicate 31 0) edInit 255 .r0 =
          geScalarmult base (5 :: List.replicate 31 0) edInit ∧
        ∀ rounds ≤ 255,
          ∃ (r0 : Valid (ladderAt base t (5 :: List.replicate 31 0) edInit rounds .r0))
            (r1 : Valid (ladderAt base t (5 :: List.replicate 31 0) edInit rounds .r1)),
            r0.point = (5 / 2 ^ (255 - rounds)) • B ∧ r1.point = r0.point + B := by
  obtain ⟨base, read, valid, point⟩ := base_valid
  have product := scalarmult_correct base valid ⟨(5 :: List.replicate 31 0).toArray, rfl⟩ (by decide)
  rw [point] at product
  exact ⟨base, read, product⟩

end Coalesce.ValidPoint
