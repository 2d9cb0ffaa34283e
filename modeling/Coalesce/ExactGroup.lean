import Coalesce.ExactField
import Coalesce.GroupArithmetic

/-! The group of ed25519.c with every field operation checked. The coordinates of points stay
below 2p through sums, the ladder and decompression, so nothing stops. -/

namespace Coalesce.ExactGroup
open Library.BitLoop Library.CheckedRun Library.Collect Field25519 FieldArithmetic FieldBytes Ed25519 ExactField
open GroupArithmetic

def feNegExact (a : Fe25519) : Option Fe25519 := fe25519SubExact fe25519SetZero a

def feEqualExact (a b : Fe25519) : Option Bool := do
  let ba ← fe25519TobytesExact a
  let bb ← fe25519TobytesExact b
  some (differences ba bb 32 == 0)

def geAddExact (p q : GeP3) (c : EdCtx) : Option GeP3 := do
  let t ← fe25519SubExact p.Y p.X
  let u ← fe25519SubExact q.Y q.X
  let a ← fe25519MulExact t u
  let t ← fe25519AddExact p.Y p.X
  let u ← fe25519AddExact q.Y q.X
  let b ← fe25519MulExact t u
  let t ← fe25519MulExact p.T q.T
  let cc ← fe25519MulExact t c.d2
  let t ← fe25519MulExact p.Z q.Z
  let d ← fe25519AddExact t t
  let e ← fe25519SubExact b a
  let f ← fe25519SubExact d cc
  let g ← fe25519AddExact d cc
  let h ← fe25519AddExact b a
  let X ← fe25519MulExact e f
  let Y ← fe25519MulExact g h
  let T ← fe25519MulExact e h
  let Z ← fe25519MulExact f g
  some { X := X, Y := Y, Z := Z, T := T }

def geNegateExact (p : GeP3) : Option GeP3 := do
  let X ← feNegExact p.X
  let T ← feNegExact p.T
  some ⟨X, p.Y, p.Z, T⟩

def geRoundExact (scalar : List UInt8) (c : EdCtx) (r : GeP3 × GeP3) (bit : ℕ) : Option (GeP3 × GeP3) := do
  let b := bitAt scalar bit
  let (r0, r1) := geCswap r.1 r.2 b
  let t ← geAddExact r0 r1 c
  let r0 ← geAddExact r0 r0 c
  some (geCswap r0 t b)

def geScalarmultExact (p : GeP3) (scalar : List UInt8) (c : EdCtx) : Option GeP3 := do
  let r ← bitsDownChecked (geRoundExact scalar c) 255 (geIdentity, p)
  some r.1

def geTobytesExact (p : GeP3) : Option (List UInt8) := do
  let zi ← fe25519InvertExact p.Z
  let x ← fe25519MulExact p.X zi
  let y ← fe25519MulExact p.Y zi
  let out ← fe25519TobytesExact y
  let parity ← fe25519ParityExact x
  some (out.modify 31 (· ||| UInt8.ofNat (parity <<< 7)))

def sqrtCandidateExact (x2 : Fe25519) (c : EdCtx) : Option (Option Fe25519) := do
  let cand ← fe25519PowExact x2 FE25519_P58_EXP
  let cand2 ← fe25519SqExact cand
  if ← feEqualExact cand2 x2 then some (some cand)
  else
    let u ← feNegExact x2
    if ← feEqualExact cand2 u then
      let x ← fe25519MulExact cand c.sqrtm1
      some (some x)
    else some none

def xSquaredExact (y : Fe25519) (c : EdCtx) : Option Fe25519 := do
  let y2 ← fe25519SqExact y
  let u ← fe25519SubExact y2 (feFromU64 1)
  let v ← fe25519MulExact y2 c.d
  let v ← fe25519AddExact v (feFromU64 1)
  let inv_v ← fe25519InvertExact v
  fe25519MulExact u inv_v

def withSignExact (x y : Fe25519) (sign : ℕ) : Option (Option GeP3) := do
  let zero ← fe25519IszeroExact x
  if zero && sign != 0 then some none
  else
    let parity ← fe25519ParityExact x
    let x ← (if parity ≠ sign then feNegExact x else some x)
    let T ← fe25519MulExact x y
    some (some ⟨x, y, fe25519SetOne, T⟩)

/-- -1 is `some none`; a check that failed is `none`. -/
def geFrombytesExact (input : List UInt8) (c : EdCtx) : Option (Option GeP3) := do
  let sign := ((input.getD 31 0).toNat >>> 7) &&& 1
  let yb := input.modify 31 (· &&& 0x7F)
  let y := fe25519Frombytes yb
  let x2 ← xSquaredExact y c
  match ← sqrtCandidateExact x2 c with
  | none => some none
  | some x => withSignExact x y sign

def edInitExact : Option EdCtx := do
  let num ← feNegExact (feFromU64 121665)
  let inv_den ← fe25519InvertExact (feFromU64 121666)
  let d ← fe25519MulExact num inv_den
  let d2 ← fe25519AddExact d d
  let sqrtm1 ← fe25519PowExact (feFromU64 2) FE25519_P14_EXP
  some { d := d, d2 := d2, sqrtm1 := sqrtm1 }

/-! Points. -/

/-- Coordinates with the limbs of products. -/
structure Compact (g : GeP3) : Prop where
  X : Within 1 g.X
  Y : Within 1 g.Y
  Z : Within 1 g.Z
  T : Within 1 g.T

variable {c : EdCtx} {p q : GeP3} {a b : Fe25519}

theorem feNeg_completes (within : Within 1 a) : Completes (feNegExact a) (feNeg a) (Within 1) := by
  have zero : Within 0 fe25519SetZero :=
    ⟨Nat.le_refl 0, Nat.le_refl 0, Nat.le_refl 0, Nat.le_refl 0, Nat.le_refl 0⟩
  exact completes_sub zero within (by decide)

theorem feEqual_completes (first : Within 1 a) (second : Within 1 b) :
    Completes (feEqualExact a b) (feEqual a b) fun _ => True :=
  (completes_tobytes first (by decide)).bind ((completes_tobytes second (by decide)).bind (.pure trivial))

theorem geAdd_completes (context : Context c) (first : Compact p) (second : Compact q) :
    Completes (geAddExact p q c) (geAdd p q c) Compact := by
  obtain ⟨X1, Y1, Z1, T1⟩ := first
  obtain ⟨X2, Y2, Z2, T2⟩ := second
  have difference1 := completes_sub Y1 X1 (by decide)
  have difference2 := completes_sub Y2 X2 (by decide)
  have a := completes_mul difference1.holds difference2.holds (by decide) (by decide)
  have sum1 := completes_add Y1 X1 (by decide)
  have sum2 := completes_add Y2 X2 (by decide)
  have b := completes_mul sum1.holds sum2.holds (by decide) (by decide)
  have tt := completes_mul T1 T2 (by decide) (by decide)
  have cc := completes_mul tt.holds context.d2.within (by decide) (by decide)
  have zz := completes_mul Z1 Z2 (by decide) (by decide)
  have d := completes_add zz.holds zz.holds (by decide)
  have e := completes_sub b.holds a.holds (by decide)
  have f := completes_sub d.holds cc.holds (by decide)
  have g := completes_add d.holds cc.holds (by decide)
  have h := completes_add b.holds a.holds (by decide)
  have X := completes_mul e.holds f.holds (by decide) (by decide)
  have Y := completes_mul g.holds h.holds (by decide) (by decide)
  have T := completes_mul e.holds h.holds (by decide) (by decide)
  have Z := completes_mul f.holds g.holds (by decide) (by decide)
  unfold geAddExact geAdd
  exact difference1.bind <| difference2.bind <| a.bind <| sum1.bind <| sum2.bind <| b.bind <| tt.bind <| cc.bind <|
    zz.bind <| d.bind <| e.bind <| f.bind <| g.bind <| h.bind <| X.bind <| Y.bind <| T.bind <| Z.bind <|
    .pure ⟨X.holds, Y.holds, Z.holds, T.holds⟩

theorem geNegate_completes (compact : Compact p) : Completes (geNegateExact p) (geNegate p) Compact := by
  have X := feNeg_completes compact.X
  have T := feNeg_completes compact.T
  exact X.bind <| T.bind <| .pure ⟨X.holds, compact.Y, compact.Z, T.holds⟩

theorem compact_cswap (first : Compact p) (second : Compact q) (swap : ℕ) :
    Compact (geCswap p q swap).1 ∧ Compact (geCswap p q swap).2 := by
  rw [geCswap_eq]
  split
  · exact ⟨second, first⟩
  · exact ⟨first, second⟩

theorem geRound_completes (context : Context c) (scalar : List UInt8) (r : GeP3 × GeP3) (bit : ℕ)
    (both : Compact r.1 ∧ Compact r.2) :
    Completes (geRoundExact scalar c r bit) (geRound scalar c r bit) fun r => Compact r.1 ∧ Compact r.2 := by
  obtain ⟨first, second⟩ := compact_cswap both.1 both.2 (bitAt scalar bit)
  have sum := geAdd_completes context first second
  have double := geAdd_completes context first first
  unfold geRoundExact geRound
  exact sum.bind <| double.bind <| .pure (compact_cswap double.holds sum.holds _)

theorem geScalarmult_completes (context : Context c) (compact : Compact p) (scalar : List UInt8) :
    Completes (geScalarmultExact p scalar c) (geScalarmult p scalar c) Compact := by
  have start : Compact geIdentity ∧ Compact p :=
    ⟨⟨rep_zero.within, rep_one.within, rep_one.within, rep_zero.within⟩, compact⟩
  have loop := bitsDownChecked_completes (fun r : GeP3 × GeP3 => Compact r.1 ∧ Compact r.2)
    (geRound_completes context scalar) 255 (s := (geIdentity, p)) start
  unfold geScalarmultExact geScalarmult
  exact loop.bind (.pure loop.holds.1)

theorem geTobytes_completes (compact : Compact p) : Completes (geTobytesExact p) (geTobytes p) fun _ => True := by
  have zi := completes_invert compact.Z (by decide)
  have x := completes_mul compact.X zi.holds (by decide) (by decide)
  have y := completes_mul compact.Y zi.holds (by decide) (by decide)
  have out := completes_tobytes y.holds (by decide)
  have parity := completes_parity x.holds
  exact zi.bind <| x.bind <| y.bind <| out.bind <| parity.bind <| .pure trivial

/-! Decompression. -/

theorem xSquared_completes (context : Context c) (within : Within 1 a) :
    Completes (xSquaredExact a c) (xSquared a c) (Within 1) := by
  have one : Within 1 (feFromU64 1) := (rep_feFromU64 (v := 1) (n := 1) rfl (by decide)).within
  have y2 := completes_sq within (by decide)
  have u := completes_sub y2.holds one (by decide)
  have dy2 := completes_mul y2.holds context.d.within (by decide) (by decide)
  have v := completes_add dy2.holds one (by decide)
  have inv_v := completes_invert v.holds (by decide)
  have quotient := completes_mul u.holds inv_v.holds (by decide) (by decide)
  exact y2.bind <| u.bind <| dy2.bind <| v.bind <| inv_v.bind quotient

theorem sqrtCandidate_completes (context : Context c) (within : Within 1 a) :
    Completes (sqrtCandidateExact a c) (sqrtCandidate a c) fun root => ∀ x ∈ root, Within 1 x := by
  have cand := completes_pow within (by decide) FE25519_P58_EXP
  have cand2 := completes_sq cand.holds (by decide)
  have same := feEqual_completes cand2.holds within
  have u := feNeg_completes within
  have opposite := feEqual_completes cand2.holds u.holds
  have x := completes_mul cand.holds context.sqrtm1.within (by decide) (by decide)
  apply cand.bind
  apply cand2.bind
  apply same.bind
  unfold sqrtCandidate
  dsimp only
  split
  · apply Completes.pure
    intro x found
    cases found
    exact cand.holds
  · apply u.bind
    apply opposite.bind
    split
    · apply x.bind
      apply Completes.pure
      intro x found
      cases found
      exact x.holds
    · apply Completes.pure
      intro x found
      cases found

theorem withSign_completes (first : Within 1 a) (second : Within 1 b) (sign : ℕ) :
    Completes (withSignExact a b sign) (withSign a b sign) fun point => ∀ p ∈ point, Compact p := by
  have zero := completes_iszero first
  have parity := completes_parity first
  have negative := feNeg_completes first
  unfold withSignExact withSign
  apply zero.bind
  split
  · apply Completes.pure
    intro x found
    cases found
  · apply parity.bind
    have signed : Completes (if fe25519Parity a ≠ sign then feNegExact a else some a)
        (if fe25519Parity a ≠ sign then feNeg a else a) (Within 1) := by
      split
      · exact negative
      · exact .pure first
    have T := completes_mul signed.holds second (by decide) (by decide)
    apply signed.bind
    apply T.bind
    apply Completes.pure
    intro x found
    cases found
    exact ⟨signed.holds, second, rep_one.within, T.holds⟩

theorem geFrombytes_completes (context : Context c) (input : List UInt8) :
    Completes (geFrombytesExact input c) (geFrombytes input c) fun point => ∀ p ∈ point, Compact p := by
  have y := within_frombytes (input.modify 31 (· &&& 0x7F))
  have x2 := xSquared_completes context y
  have root := sqrtCandidate_completes context x2.holds
  unfold geFrombytesExact geFrombytes
  apply x2.bind
  apply root.bind
  dsimp only
  cases found : sqrtCandidate (xSquared (fe25519Frombytes (input.modify 31 (· &&& 0x7F))) c) c with
  | none =>
    apply Completes.pure
    intro x found
    cases found
  | some x => exact withSign_completes (root.holds x found) y _

theorem edInit_completes : Completes edInitExact edInit Context := by
  have constant (v : BitVec 64) (small : v.toNat ≤ 2 ^ 52 - 38) : Within 1 (feFromU64 v) := (rep_small small).within
  have num := feNeg_completes (constant 121665 (by decide))
  have inv_den := completes_invert (constant 121666 (by decide)) (by decide)
  have d := completes_mul num.holds inv_den.holds (by decide) (by decide)
  have d2 := completes_add d.holds d.holds (by decide)
  have sqrtm1 := completes_pow (constant 2 (by decide)) (by decide) FE25519_P14_EXP
  have context := edInit_context
  unfold edInit at context
  unfold edInitExact edInit
  exact num.bind <| inv_den.bind <| d.bind <| d2.bind <| sqrtm1.bind <| .pure context

end Coalesce.ExactGroup
