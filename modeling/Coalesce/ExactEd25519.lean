import Coalesce.ExactGroup
import Coalesce.ExactX25519

/-! Ed25519 with every field operation checked, and the result for all that is built on the
field: no limb arithmetic wraps, on any input. -/

namespace Coalesce.ExactEd25519
open Library.CheckedRun Library.Collect Scalar25519 Curve25519 Ed25519
open ExactX25519 ExactGroup GroupArithmetic

def pubkeyBytesExact (B : GeP3) (c : EdCtx) (seed : List UInt8) : Option (List UInt8) := do
  let a := (expandSeed seed).2
  let A ← geScalarmultExact B a c
  geTobytesExact A

def ed25519PubkeyFromSeedExact (seed : List UInt8) : Option (Option (List UInt8)) := do
  let c ← edInitExact
  match ← geFrombytesExact ED25519_B_COMPRESSED c with
  | none => some none
  | some B => (pubkeyBytesExact B c seed).map some

def signatureBytesExact (B : GeP3) (c : EdCtx) (seed msg : List UInt8) : Option (List UInt8) := do
  let az := (expandSeed seed).1
  let a := (expandSeed seed).2
  let r := scReduce (hashParts [az.drop 32, msg])
  let R ← geScalarmultExact B r c
  let R ← geTobytesExact R
  let A ← geScalarmultExact B a c
  let A ← geTobytesExact A
  let k := scReduce (hashParts [R, A, msg])
  let s := scMuladd k a r
  some (R ++ s)

def ed25519SignExact (seed msg : List UInt8) : Option (Option (List UInt8)) := do
  let c ← edInitExact
  match ← geFrombytesExact ED25519_B_COMPRESSED c with
  | none => some none
  | some B => (signatureBytesExact B c seed msg).map some

def checkEquationExact (B A : GeP3) (c : EdCtx) (pub sig msg : List UInt8) : Option ℤ := do
  let k := scReduce (hashParts [sig.take 32, pub, msg])
  let SB ← geScalarmultExact B (sig.drop 32) c
  let kA ← geScalarmultExact A k c
  let negkA ← geNegateExact kA
  let Q ← geAddExact SB negkA c
  let Qb ← geTobytesExact Q
  some (if differences Qb sig 32 == 0 then 0 else -1)

def ed25519VerifyExact (pub sig msg : List UInt8) : Option ℤ :=
  if !scLtL (sig.drop 32) then some (-1)
  else do
    let c ← edInitExact
    match ← geFrombytesExact ED25519_B_COMPRESSED c with
    | none => some (-1)
    | some B =>
      match ← geFrombytesExact pub c with
      | none => some (-1)
      | some A => checkEquationExact B A c pub sig msg

variable {c : EdCtx} {p q : GeP3}

theorem pubkeyBytes_completes (context : Context c) (compact : Compact p) (seed : List UInt8) :
    Completes (pubkeyBytesExact p c seed) (pubkeyBytes p c seed) fun _ => True := by
  have A := geScalarmult_completes context compact (expandSeed seed).2
  unfold pubkeyBytesExact pubkeyBytes
  exact A.bind (geTobytes_completes A.holds)

theorem signatureBytes_completes (context : Context c) (compact : Compact p) (seed msg : List UInt8) :
    Completes (signatureBytesExact p c seed msg) (signatureBytes p c seed msg) fun _ => True := by
  have R := geScalarmult_completes context compact (scReduce (hashParts [(expandSeed seed).1.drop 32, msg]))
  have A := geScalarmult_completes context compact (expandSeed seed).2
  unfold signatureBytesExact signatureBytes
  exact R.bind <| (geTobytes_completes R.holds).bind <| A.bind <| (geTobytes_completes A.holds).bind <| .pure trivial

theorem checkEquation_completes (context : Context c) (base : Compact p) (key : Compact q) (pub sig msg : List UInt8) :
    Completes (checkEquationExact p q c pub sig msg) (checkEquation p q c pub sig msg) fun _ => True := by
  have SB := geScalarmult_completes context base (sig.drop 32)
  have kA := geScalarmult_completes context key (scReduce (hashParts [sig.take 32, pub, msg]))
  have negkA := geNegate_completes kA.holds
  have Q := geAdd_completes context SB.holds negkA.holds
  unfold checkEquationExact checkEquation
  exact SB.bind <| kA.bind <| negkA.bind <| Q.bind <| (geTobytes_completes Q.holds).bind <| .pure trivial

theorem ed25519PubkeyFromSeed_completes (seed : List UInt8) :
    Completes (ed25519PubkeyFromSeedExact seed) (ed25519PubkeyFromSeed seed) fun _ => True := by
  have base := geFrombytes_completes edInit_context ED25519_B_COMPRESSED
  unfold ed25519PubkeyFromSeedExact ed25519PubkeyFromSeed
  apply edInit_completes.bind
  apply base.bind
  cases found : geFrombytes ED25519_B_COMPRESSED edInit with
  | none => exact .pure trivial
  | some B =>
    rw [Option.map_some]
    exact (pubkeyBytes_completes edInit_context (base.holds B found) seed).map some

theorem ed25519Sign_completes (seed msg : List UInt8) :
    Completes (ed25519SignExact seed msg) (ed25519Sign seed msg) fun _ => True := by
  have base := geFrombytes_completes edInit_context ED25519_B_COMPRESSED
  unfold ed25519SignExact ed25519Sign
  apply edInit_completes.bind
  apply base.bind
  cases found : geFrombytes ED25519_B_COMPRESSED edInit with
  | none => exact .pure trivial
  | some B =>
    rw [Option.map_some]
    exact (signatureBytes_completes edInit_context (base.holds B found) seed msg).map some

theorem ed25519Verify_completes (pub sig msg : List UInt8) :
    Completes (ed25519VerifyExact pub sig msg) (ed25519Verify pub sig msg) fun _ => True := by
  have base := geFrombytes_completes edInit_context ED25519_B_COMPRESSED
  have key := geFrombytes_completes edInit_context pub
  unfold ed25519VerifyExact ed25519Verify
  split
  · exact .pure trivial
  · apply edInit_completes.bind
    apply base.bind
    cases found : geFrombytes ED25519_B_COMPRESSED edInit with
    | none => exact .pure trivial
    | some B =>
      rw [Option.bind_some]
      apply key.bind
      cases found_key : geFrombytes pub edInit with
      | none => exact .pure trivial
      | some A =>
        rw [Option.map_some, Option.getD_some]
        exact checkEquation_completes edInit_context (base.holds B found) (key.holds A found_key) pub sig msg

/-- On every input the run that stops at the first field operation with a wrapped word or a
wrong number comes to its end, with the result of the code. -/
theorem no_limb_wraps (scalar point seed pub sig msg : List UInt8) :
    curve25519EvalExact scalar point = some (curve25519Eval scalar point) ∧
      ed25519PubkeyFromSeedExact seed = some (ed25519PubkeyFromSeed seed) ∧
      ed25519SignExact seed msg = some (ed25519Sign seed msg) ∧
      ed25519VerifyExact pub sig msg = some (ed25519Verify pub sig msg) := by
  refine ⟨?_, ?_, ?_, ?_⟩
  · exact (curve25519Eval_completes scalar point).result
  · exact (ed25519PubkeyFromSeed_completes seed).result
  · exact (ed25519Sign_completes seed msg).result
  · exact (ed25519Verify_completes pub sig msg).result

end Coalesce.ExactEd25519
