import Coalesce.CheckedField
import Coalesce.Library.CheckedRun
import Mathlib.Logic.Function.Basic

/-! Products on memory, limb by limb: the result may lie where an operand is. Every sum,
product and conversion stops the computation if it does not fit its type. -/

namespace Coalesce.FieldInPlace
open Library.BitLoop Library.CheckedRun Library.CheckedWord Field25519 FieldArithmetic CheckedField Primes25519

/-- `x[i]` -/
def limb (x : Fe25519) : ℕ → BitVec 64
  | 0 => x.l0
  | 1 => x.l1
  | 2 => x.l2
  | 3 => x.l3
  | _ => x.l4

def setLimb (x : Fe25519) (i : ℕ) (v : BitVec 64) : Fe25519 :=
  match i with
  | 0 => { x with l0 := v }
  | 1 => { x with l1 := v }
  | 2 => { x with l2 := v }
  | 3 => { x with l3 := v }
  | _ => { x with l4 := v }

section
variable {α : Type} [DecidableEq α]

/-- `out[i] = v;` -/
def store (mem : α → Fe25519) (out : α) (i : ℕ) (v : BitVec 64) : α → Fe25519 :=
  Function.update mem out (setLimb (mem out) i v)

/-- `v = column(i) + c; out[i] = (uint64_t)(v & MASK51); c = v >> 51;`, the rounds from `i` on. -/
def columnsLoop (column : (α → Fe25519) → ℕ → Option (BitVec 128)) (out : α) :
    (rounds i : ℕ) → (α → Fe25519) → BitVec 128 → Option ((α → Fe25519) × BitVec 128)
  | 0, _, mem, c => some (mem, c)
  | rounds + 1, i, mem, c =>
      (column mem i).bind fun t => (checkedAdd t c).bind fun v =>
        columnsLoop column out rounds (i + 1) (store mem out i (lowLimb v)) (v >>> 51)

/-- `c = out[i] >> 51; out[i] &= MASK51; out[i + 1] += (uint64_t)c;` -/
def carryInto (mem : α → Fe25519) (out : α) (i : ℕ) : Option (α → Fe25519) :=
  let c := limb (mem out) i >>> 51
  let mem := store mem out i (limb (mem out) i &&& MASK51)
  (checkedAdd (limb (mem out) (i + 1)) c).map fun next => store mem out (i + 1) next

/-- `out[0] += (uint64_t)(c * 19);` -/
def wrapInto (mem : α → Fe25519) (out : α) (c : BitVec 128) : Option (α → Fe25519) :=
  (narrow19 c).bind fun c => (checkedAdd (limb (mem out) 0) c).map fun first => store mem out 0 first

/-- Behind the loop. -/
def limbCarries (out : α) (s : (α → Fe25519) × BitVec 128) : Option (α → Fe25519) := do
  let mem ← wrapInto s.1 out s.2
  let mem ← carryInto mem out 0
  let mem ← carryInto mem out 1
  let mem ← carryInto mem out 2
  let mem ← carryInto mem out 3
  let c := limb (mem out) 4 >>> 51
  wrapInto (store mem out 4 (limb (mem out) 4 &&& MASK51)) out (c.setWidth 128)

def columnOf (t : Columns) : ℕ → BitVec 128
  | 0 => t.t0
  | 1 => t.t1
  | 2 => t.t2
  | 3 => t.t3
  | _ => t.t4

/-- The operands are read into `t` before `out` is written. -/
def fe25519MulAt (mem : α → Fe25519) (out a b : α) : Option (α → Fe25519) :=
  (productsChecked (mem a) (mem b)).bind fun t =>
    (columnsLoop (fun _ i => some (columnOf t i)) out 5 0 mem 0).bind (limbCarries out)

def fe25519SqAt (mem : α → Fe25519) (out a : α) : Option (α → Fe25519) := fe25519MulAt mem out a a

/-- `a[i]` is read when the limbs of `out` before it have been written. -/
def fe25519Mul121666At (mem : α → Fe25519) (out a : α) : Option (α → Fe25519) :=
  (columnsLoop (fun mem i => scaledChecked (limb (mem a) i)) out 5 0 mem 0).bind (limbCarries out)

/-! Stores. -/

theorem limb_setLimb (x : Fe25519) {i j : ℕ} (before : i < j) (inside : j < 5) (v : BitVec 64) :
    limb (setLimb x i v) j = limb x j := by
  interval_cases j <;> interval_cases i <;> rfl

theorem store_update (mem : α → Fe25519) (out : α) (x : Fe25519) (i : ℕ) (v : BitVec 64) :
    store (Function.update mem out x) out i v = Function.update mem out (setLimb x i v) := by
  rw [store, Function.update_self, Function.update_idem]

/-! The loop. -/

variable {mem : α → Fe25519} {out : α} {column : (α → Fe25519) → ℕ → Option (BitVec 128)}

/-- The limbs from `i` on are those of the start. -/
def AgreeFrom (i : ℕ) (mem start : α → Fe25519) : Prop := ∀ o j, i ≤ j → j < 5 → limb (mem o) j = limb (start o) j

theorem agreeFrom_store {i : ℕ} {start : α → Fe25519} (agree : AgreeFrom i mem start) (out : α) (v : BitVec 64) :
    AgreeFrom (i + 1) (store mem out i v) start := by
  intro o j later inside
  rw [store, Function.update_apply]
  split
  · next same =>
    rw [same, limb_setLimb (mem out) later inside]
    exact agree out j (by omega) inside
  · exact agree o j (by omega) inside

theorem columnsLoop_step {rounds i : ℕ} {c t v : BitVec 128} (read : column mem i = some t) (sum : checkedAdd t c = some v) :
    columnsLoop column out (rounds + 1) i mem c =
      columnsLoop column out rounds (i + 1) (store mem out i (lowLimb v)) (v >>> 51) := by
  rw [columnsLoop, read, Option.bind_some, sum, Option.bind_some]

theorem wrapInto_update (mem : α → Fe25519) (out : α) (x : Fe25519) (c : BitVec 128) :
    wrapInto (Function.update mem out x) out c =
      ((narrow19 c).bind fun c => (checkedAdd x.l0 c).map fun first => { x with l0 := first }).map (Function.update mem out) := by
  simp only [wrapInto, store_update, Function.update_self, limb, setLimb, Option.map_bind, Function.comp_def, Option.map_map]

theorem carryInto_update (mem : α → Fe25519) (out : α) (x : Fe25519) {i : ℕ} (inside : i < 4) :
    carryInto (Function.update mem out x) out i =
      ((checkedAdd (limb x (i + 1)) (limb x i >>> 51)).map fun next =>
        setLimb (setLimb x i (limb x i &&& MASK51)) (i + 1) next).map (Function.update mem out) := by
  have later := limb_setLimb x (Nat.lt_succ_self i) (Nat.succ_lt_succ inside) (limb x i &&& MASK51)
  simp only [carryInto, store_update, Function.update_self, later, Option.map_map, Function.comp_def]

/-- The carries behind the loop are those of the limbs of `out`. -/
theorem limbCarries_eq (mem : α → Fe25519) (out : α) (x : Fe25519) (c : BitVec 128) :
    limbCarries out (Function.update mem out x, c) =
      ((narrow19 c).bind fun c => (checkedAdd x.l0 c).bind fun l0 =>
        carryPassChecked (fun c => narrow19 (c.setWidth 128)) { x with l0 := l0 }).map (Function.update mem out) := by
  have carry (i : ℕ) (inside : i < 4) (x : Fe25519) := carryInto_update mem out x inside
  simp only [limbCarries, wrapInto_update, Option.bind_eq_bind, Option.bind_map, Function.comp_def, carry 0 (by decide),
    carry 1 (by decide), carry 2 (by decide), carry 3 (by decide), store_update, Function.update_self, limb, setLimb,
    carryPassChecked, Option.map_bind, Option.bind_assoc, Option.map_some]
  simp only [Option.map_eq_bind, Option.bind_assoc, Option.bind_some, Function.comp_def]

/-- Whatever `out` is, if no column reads a limb that the loop has written. -/
theorem columnsLoop_eq {t : Columns} (bounded : Bounded t)
    (read : ∀ now i, i < 5 → AgreeFrom i now mem → column now i = some (columnOf t i)) :
    (columnsLoop column out 5 0 mem 0).bind (limbCarries out) = some (Function.update mem out (carryColumns t)) := by
  have carried := carryColumnsChecked_eq bounded
  obtain ⟨s1, s2, s3, s4⟩ := carriesChecked_eq bounded
  obtain ⟨b0, b1, b2, b3, b4⟩ := bounded
  have s0 : checkedAdd t.t0 (0 : BitVec 128) = some t.t0 := by
    rw [checkedAdd_eq (by rw [show (0 : BitVec 128).toNat = 0 from rfl]; omega)]
    exact congrArg some (BitVec.add_zero t.t0)
  have a0 : AgreeFrom 0 mem mem := fun _ _ _ _ => rfl
  have a1 := agreeFrom_store a0 out (lowLimb t.t0)
  have a2 := agreeFrom_store a1 out (lowLimb (t.t1 + t.t0 >>> 51))
  have a3 := agreeFrom_store a2 out (lowLimb (t.t2 + (t.t1 + t.t0 >>> 51) >>> 51))
  have a4 := agreeFrom_store a3 out (lowLimb (t.t3 + (t.t2 + (t.t1 + t.t0 >>> 51) >>> 51) >>> 51))
  rw [columnsLoop_step (read _ 0 (by decide) a0) s0, columnsLoop_step (read _ 1 (by decide) a1) s1,
    columnsLoop_step (read _ 2 (by decide) a2) s2, columnsLoop_step (read _ 3 (by decide) a3) s3,
    columnsLoop_step (read _ 4 (by decide) a4) s4, columnsLoop, Option.bind_some]
  have first : store mem out 0 (lowLimb t.t0) = Function.update mem out (setLimb (mem out) 0 (lowLimb t.t0)) := rfl
  rw [first, store_update, store_update, store_update, store_update, limbCarries_eq]
  rw [carryColumnsChecked] at carried
  simp only [s1, s2, s3, s4, Option.bind_eq_bind, Option.bind_some] at carried
  rw [← Option.map_some, ← carried]
  rfl

/-! Products. -/

/-- `after` differs from `mem` in `out` alone, which holds the residue of `n`. -/
structure Written (mem after : α → Fe25519) (out : α) (n : ℕ) : Prop where
  residue : value (after out) % P = n % P
  normalized : Normalized (after out)
  frame : ∀ other, other ≠ out → after other = mem other

theorem written_update {x : Fe25519} {n : ℕ} (denotes : (value x : ZMod P) = n) (normalized : Normalized x) :
    Written mem (Function.update mem out x) out n := by
  have self : Function.update mem out x out = x := Function.update_self out x mem
  constructor
  · rwa [self, ← ZMod.natCast_eq_natCast_iff']
  · rwa [self]
  · intro other apart
    exact Function.update_of_ne apart x mem

variable {a b : α}

theorem fe25519MulAt_eq (first : Below (2 ^ 54) (mem a)) (second : Below (2 ^ 54) (mem b)) :
    fe25519MulAt mem out a b = some (Function.update mem out (fe25519Mul (mem a) (mem b))) := by
  rw [fe25519MulAt, productsChecked_eq first second, Option.bind_some]
  apply columnsLoop_eq (products_spec first second).2
  intro now i inside agree
  rfl

theorem fe25519Mul121666At_eq (below : Below (2 ^ 54) (mem a)) :
    fe25519Mul121666At mem out a = some (Function.update mem out (fe25519Mul121666 (mem a))) := by
  apply columnsLoop_eq (scaledColumns_bounded below)
  intro now i inside agree
  rw [agree a i le_rfl inside, scaledChecked_eq]
  interval_cases i <;> rfl

theorem written_mul (first : Below (2 ^ 54) (mem a)) (second : Below (2 ^ 54) (mem b)) :
    Written mem (Function.update mem out (fe25519Mul (mem a) (mem b))) out (value (mem a) * value (mem b)) := by
  have normalized : Normalized (fe25519Mul (mem a) (mem b)) := carryColumns_normalized _
  apply written_update _ normalized
  rw [mul_value first second, Nat.cast_mul]

theorem written_mul121666 (below : Below (2 ^ 54) (mem a)) :
    Written mem (Function.update mem out (fe25519Mul121666 (mem a))) out (value (mem a) * 121666) := by
  have normalized : Normalized (fe25519Mul121666 (mem a)) := carryColumns_normalized _
  apply written_update _ normalized
  rw [mul121666_value below, Nat.cast_mul, Nat.cast_ofNat]

/-- Nothing overflows, and neither does it matter whether `out` is an operand. -/
theorem field_product_exact (mem : α → Fe25519) (out a b : α) (first : Below (2 ^ 54) (mem a))
    (second : Below (2 ^ 54) (mem b)) :
    (∃ after, fe25519MulAt mem out a b = some after ∧ Written mem after out (value (mem a) * value (mem b))) ∧
      (∃ after, fe25519SqAt mem out a = some after ∧ Written mem after out (value (mem a) * value (mem a))) ∧
      ∃ after, fe25519Mul121666At mem out a = some after ∧ Written mem after out (value (mem a) * 121666) := by
  constructor
  · exact ⟨_, fe25519MulAt_eq first second, written_mul first second⟩
  constructor
  · exact ⟨_, fe25519MulAt_eq first first, written_mul first first⟩
  · exact ⟨_, fe25519Mul121666At_eq first, written_mul121666 first⟩

/-- The largest limbs, squared where they are. -/
theorem field_product_exact_largest :
    ∃ after, fe25519MulAt (fun _ : Unit => ⟨2 ^ 54 - 1, 2 ^ 54 - 1, 2 ^ 54 - 1, 2 ^ 54 - 1, 2 ^ 54 - 1⟩) () () () = some after ∧
      Normalized (after ()) := by
  have below : Below (2 ^ 54) ⟨2 ^ 54 - 1, 2 ^ 54 - 1, 2 ^ 54 - 1, 2 ^ 54 - 1, 2 ^ 54 - 1⟩ := by
    constructor <;> decide
  obtain ⟨after, result, written⟩ := (field_product_exact (fun _ : Unit => _) () () () below below).1
  exact ⟨after, result, written.normalized⟩

end

end Coalesce.FieldInPlace
