import Coalesce.Curve25519
import Coalesce.ExactField

/-! X25519 with every field operation checked. The coordinates of the ladder stay below
2p, so nothing stops, whatever the scalar and the point. -/

namespace Coalesce.ExactX25519
open Library.BitLoop Library.CheckedRun Field25519 FieldArithmetic FieldBytes Curve25519 ExactField

def advanceExact (x1 : Fe25519) (p : LadderPoints) : Option LadderPoints := do
  let A ← fe25519AddExact p.x2 p.z2
  let AA ← fe25519SqExact A
  let B ← fe25519SubExact p.x2 p.z2
  let BB ← fe25519SqExact B
  let E ← fe25519SubExact AA BB
  let C ← fe25519AddExact p.x3 p.z3
  let D ← fe25519SubExact p.x3 p.z3
  let DA ← fe25519MulExact D A
  let CB ← fe25519MulExact C B
  let t1 ← fe25519AddExact DA CB
  let x3 ← fe25519SqExact t1
  let t2 ← fe25519SubExact DA CB
  let t2 ← fe25519SqExact t2
  let z3 ← fe25519MulExact x1 t2
  let x2 ← fe25519MulExact AA BB
  let t1 ← fe25519Mul121666Exact E
  let t1 ← fe25519AddExact BB t1
  let z2 ← fe25519MulExact E t1
  some ⟨x2, z2, x3, z3⟩

def ladderRoundExact (x1 : Fe25519) (e : List UInt8) (s : LadderState) (t : ℕ) : Option LadderState := do
  let kT := bitAt e t
  let points ← advanceExact x1 (s.points.cswap (s.swap ^^^ kT))
  some ⟨points, kT⟩

def curve25519EvalExact (scalar point : List UInt8) : Option (List UInt8) := do
  let e := clamp scalar
  let x1 := fe25519Frombytes point
  let s ← bitsDownChecked (ladderRoundExact x1 e) 255 ⟨⟨fe25519SetOne, fe25519SetZero, x1, fe25519SetOne⟩, 0⟩
  let last := s.points.cswap s.swap
  let zi ← fe25519InvertExact last.z2
  let res ← fe25519MulExact last.x2 zi
  fe25519TobytesExact res

/-- Coordinates with the limbs of products. -/
structure Small (p : LadderPoints) : Prop where
  x2 : Within 1 p.x2
  z2 : Within 1 p.z2
  x3 : Within 1 p.x3
  z3 : Within 1 p.z3

variable {p : LadderPoints}

theorem Small.cswap (small : Small p) (swap : ℕ) : Small (p.cswap swap) := by
  obtain ⟨x2, z2, x3, z3⟩ := small
  unfold LadderPoints.cswap
  simp only [fe25519Cswap_eq]
  split
  · exact ⟨x3, z3, x2, z2⟩
  · exact ⟨x2, z2, x3, z3⟩

/-- No sum or difference is added to before it is multiplied. -/
theorem advance_completes {x1 : Fe25519} (base : Within 1 x1) (small : Small p) :
    Completes (advanceExact x1 p) (p.advance x1) Small := by
  obtain ⟨x2, z2, x3, z3⟩ := small
  have A := completes_add x2 z2 (by decide)
  have AA := completes_sq A.holds (by decide)
  have B := completes_sub x2 z2 (by decide)
  have BB := completes_sq B.holds (by decide)
  have E := completes_sub AA.holds BB.holds (by decide)
  have C := completes_add x3 z3 (by decide)
  have D := completes_sub x3 z3 (by decide)
  have DA := completes_mul D.holds A.holds (by decide) (by decide)
  have CB := completes_mul C.holds B.holds (by decide) (by decide)
  have sum := completes_add DA.holds CB.holds (by decide)
  have x3' := completes_sq sum.holds (by decide)
  have difference := completes_sub DA.holds CB.holds (by decide)
  have square := completes_sq difference.holds (by decide)
  have z3' := completes_mul base square.holds (by decide) (by decide)
  have x2' := completes_mul AA.holds BB.holds (by decide) (by decide)
  have scaled := completes_mul121666 E.holds (by decide)
  have total := completes_add BB.holds scaled.holds (by decide)
  have z2' := completes_mul E.holds total.holds (by decide) (by decide)
  exact A.bind <| AA.bind <| B.bind <| BB.bind <| E.bind <| C.bind <| D.bind <| DA.bind <| CB.bind <| sum.bind <|
    x3'.bind <| difference.bind <| square.bind <| z3'.bind <| x2'.bind <| scaled.bind <| total.bind <| z2'.bind <|
    .pure ⟨x2'.holds, z2'.holds, x3'.holds, z3'.holds⟩

theorem ladderRound_completes {x1 : Fe25519} (base : Within 1 x1) (e : List UInt8) (s : LadderState) (t : ℕ)
    (small : Small s.points) :
    Completes (ladderRoundExact x1 e s t) (ladderRound x1 e s t) fun s => Small s.points := by
  have points := advance_completes base (small.cswap (s.swap ^^^ bitAt e t))
  exact points.bind (.pure points.holds)

theorem curve25519Eval_completes (scalar point : List UInt8) :
    Completes (curve25519EvalExact scalar point) (curve25519Eval scalar point) fun _ => True := by
  have base := within_frombytes point
  have start : Small ⟨fe25519SetOne, fe25519SetZero, fe25519Frombytes point, fe25519SetOne⟩ :=
    ⟨rep_one.within, rep_zero.within, base, rep_one.within⟩
  have loop := bitsDownChecked_completes (fun s : LadderState => Small s.points)
    (fun s t small => ladderRound_completes base (clamp scalar) s t small) 255
    (s := ⟨⟨fe25519SetOne, fe25519SetZero, fe25519Frombytes point, fe25519SetOne⟩, 0⟩) start
  have last := loop.holds.cswap
    (bitsDown (ladderRound (fe25519Frombytes point) (clamp scalar)) 255
      ⟨⟨fe25519SetOne, fe25519SetZero, fe25519Frombytes point, fe25519SetOne⟩, 0⟩).swap
  have zi := completes_invert last.z2 (by decide)
  have res := completes_mul last.x2 zi.holds (by decide) (by decide)
  exact loop.bind <| zi.bind <| res.bind <| completes_tobytes res.holds (by decide)

end Coalesce.ExactX25519
