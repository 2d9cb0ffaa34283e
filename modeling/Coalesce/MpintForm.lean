import Coalesce.Codec
import Coalesce.Library.TwosComplement

/-! The mpint encoding as a normal form: one byte string for each number, and the
shortest that two's complement has for it. -/

namespace Coalesce.MpintForm
open Library.CallResult Library.ByteNumber Library.TwosComplement Buffer BufferBytes BufferReaders BufferWriters Codec

/-- The call puts the bytes behind every contents with room for them. Only the allocator
can make it fail. -/
def Puts (call : BufCall Unit) (bytes : List UInt8) : Prop :=
  ∀ s : BufState, Sound s.buf → s.buf.len + bytes.length < 2 ^ 63 →
    (∃ t, call s = .ok () t ∧ contents t.buf = contents s.buf ++ bytes ∧ t.buf.rpos = s.buf.rpos) ∨
      (¬Plenty s.heap ∧ ∃ t, call s = .error .fail t)

/-- A body of the number, and no shorter one. -/
structure ShortestBody (body : List UInt8) (number : Nat) : Prop where
  value : twosComplement body = number
  shortest : ∀ other, twosComplement other = number → body.length ≤ other.length

theorem signBit_canonical {body : List UInt8} (canonical : Canonical body) : signBit body = false := by
  cases body with
  | nil => rfl
  | cons first rest => exact decide_eq_false (Nat.not_le_of_lt canonical.1)

theorem shortestBody_canonical {body : List UInt8} (canonical : Canonical body) : ShortestBody body (beNat body) := by
  refine ⟨twosComplement_of_clear (signBit_canonical canonical), fun other value => ?_⟩
  cases body with
  | nil => exact Nat.zero_le _
  | cons first rest =>
    have least := (canonical_bounds canonical).1
    have most := two_mul_beNat_lt (signBit_of_natural value)
    rw [beNat_of_natural value] at most
    by_contra shorter
    rw [List.length_cons] at shorter
    have below : 256 ^ other.length ≤ 256 ^ rest.length := Nat.pow_le_pow_right (by decide) (by omega)
    omega

/-- What `buf_put_mpint` puts for a magnitude. -/
def mpintBytes (magnitude : List UInt8) : List UInt8 :=
  be32 (UInt32.ofNat (mpintBody magnitude).length) ++ mpintBody magnitude

theorem puts_mpint (magnitude : List UInt8) : Puts (bufPutMpint (some magnitude) magnitude.length) (mpintBytes magnitude) := by
  intro s sound room
  obtain ⟨chunks, written, bytes⟩ := put_chunks (.mpint magnitude)
  change chunks.flatten = mpintBytes magnitude at bytes
  change bufPutMpint (some magnitude) magnitude.length = putAll chunks at written
  rw [← bytes] at room
  rw [written, ← bytes]
  rcases putAll_cases sound (requestsBelow_of_total sound room) with ⟨t, finished, extended, -⟩ | ⟨scarce, t, -, refused, -⟩
  · exact Or.inl ⟨t, finished, extended.contents, extended.rpos⟩
  · exact Or.inr ⟨scarce, t, refused⟩

theorem mpintBytes_eq_iff (first second : List UInt8) : mpintBytes first = mpintBytes second ↔ beNat first = beNat second := by
  constructor
  · intro same
    have bodies := (List.append_inj same rfl).2
    rw [← mpintBody_number first, bodies, mpintBody_number]
  · intro same
    have bodies : mpintBody first = mpintBody second := by
      apply canonical_unique (mpintBody_canonical first) (mpintBody_canonical second)
      rw [mpintBody_number, mpintBody_number, same]
    rw [mpintBytes, mpintBytes, bodies]

theorem mpintBytes_body (magnitude : List UInt8) : mpintBytes (mpintBody magnitude) = mpintBytes magnitude :=
  (mpintBytes_eq_iff _ _).mpr (mpintBody_number magnitude)

/-- Where the bytes come next, `buf_get_mpint` takes them and returns a body that puts the
same bytes again. -/
def ReadsBack (bytes : List UInt8) : Prop :=
  ∀ (s : BufState) (rest : List UInt8), Sound s.buf → Plenty s.heap → unread s.buf = bytes ++ rest →
    ∃ body t, bufGetMpint s = .ok body t ∧ unread t.buf = rest ∧ Puts (bufPutMpint (some body) body.length) bytes

theorem readsBack {magnitude : List UInt8} (short : magnitude.length < 2 ^ 32 - 1) : ReadsBack (mpintBytes magnitude) := by
  intro s rest sound plenty front
  have length := mpintBody_length magnitude
  have read := bufGetString_reads sound plenty (show (mpintBody magnitude).length < 2 ^ 32 by omega) front
  refine ⟨_, _, read, ?_, ?_⟩
  · rw [unread_skip]
    change (unread s.buf).drop _ = _
    rw [front]
    exact List.drop_left
  · rw [← mpintBytes_body]
    exact puts_mpint (mpintBody magnitude)

/-- What is put for a magnitude is a length and the shortest body of its number, which is
empty for zero. -/
structure CanonicalForm (magnitude body : List UInt8) : Prop where
  puts : Puts (bufPutMpint (some magnitude) magnitude.length) (be32 (UInt32.ofNat body.length) ++ body)
  length : (UInt32.ofNat body.length).toNat = body.length
  shortest : ShortestBody body (beNat magnitude)
  zero : beNat magnitude = 0 ↔ body = []

theorem canonicalForm {magnitude : List UInt8} (short : magnitude.length < 2 ^ 32 - 1) :
    CanonicalForm magnitude (mpintBody magnitude) := by
  have length := mpintBody_length magnitude
  have shortest := shortestBody_canonical (mpintBody_canonical magnitude)
  rw [mpintBody_number] at shortest
  refine ⟨puts_mpint magnitude, UInt32.toNat_ofNat_of_lt' (show _ < 2 ^ 32 by omega), shortest, ?_⟩
  constructor
  · intro zero
    have none_shorter := shortest.shortest [] (by rw [zero]; rfl)
    exact List.length_eq_zero_iff.mp (Nat.le_zero.mp none_shorter)
  · intro empty
    rw [← mpintBody_number, empty]
    rfl

/-- The mpint encoding is canonical and keeps the number. -/
theorem mpint_canonical (magnitude other : List UInt8) (short : magnitude.length < 2 ^ 32 - 1)
    (short' : other.length < 2 ^ 32 - 1) :
    ∃ body body', CanonicalForm magnitude body ∧ CanonicalForm other body' ∧
      ReadsBack (be32 (UInt32.ofNat body.length) ++ body) ∧
      (be32 (UInt32.ofNat body.length) ++ body = be32 (UInt32.ofNat body'.length) ++ body' ↔ beNat magnitude = beNat other) :=
  ⟨mpintBody magnitude, mpintBody other, canonicalForm short, canonicalForm short', readsBack short,
    mpintBytes_eq_iff magnitude other⟩

/-- `80` and `00 80` denote the same number. -/
theorem mpint_canonical_sign :
    ∃ body body', CanonicalForm [0x80] body ∧ CanonicalForm [0x00, 0x80] body' ∧
      ReadsBack (be32 (UInt32.ofNat body.length) ++ body) ∧
      (be32 (UInt32.ofNat body.length) ++ body = be32 (UInt32.ofNat body'.length) ++ body' ↔
        beNat [0x80] = beNat [0x00, 0x80]) :=
  mpint_canonical [0x80] [0x00, 0x80] (by decide) (by decide)

end Coalesce.MpintForm
