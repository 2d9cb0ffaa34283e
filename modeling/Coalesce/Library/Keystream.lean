import Mathlib.Logic.Function.Iterate
import Mathlib.Data.List.Basic

/-! Stream ciphers that XOR one keystream byte into each data byte. The state
moves by itself: `key` reads the next keystream byte, `next` steps past it. -/

namespace Coalesce.Library.Keystream

variable {σ : Type} (key : σ → UInt8) (next : σ → σ)

def crypt (s : σ) : List UInt8 → List UInt8 × σ
  | [] => ([], s)
  | byte :: bytes =>
      let rest := crypt (next s) bytes
      ((byte ^^^ key s) :: rest.1, rest.2)

@[simp] theorem crypt_nil (s : σ) : crypt key next s [] = ([], s) := rfl

@[simp] theorem crypt_length (s : σ) (bytes : List UInt8) :
    (crypt key next s bytes).1.length = bytes.length := by
  induction bytes generalizing s with
  | nil => rfl
  | cons byte bytes ih => simp [crypt, ih]

/-- The state after a text depends on its length alone. -/
theorem crypt_state (s : σ) (bytes : List UInt8) :
    (crypt key next s bytes).2 = next^[bytes.length] s := by
  induction bytes generalizing s with
  | nil => rfl
  | cons byte bytes ih => simp [crypt, ih]

theorem crypt_append (s : σ) (first second : List UInt8) :
    crypt key next s (first ++ second) =
      ((crypt key next s first).1 ++ (crypt key next (crypt key next s first).2 second).1,
        (crypt key next (crypt key next s first).2 second).2) := by
  induction first generalizing s with
  | nil => rfl
  | cons byte first ih => simp [crypt, ih]

/-- The same keystream a second time gives the text back. -/
theorem crypt_crypt (s : σ) (bytes : List UInt8) :
    (crypt key next s (crypt key next s bytes).1).1 = bytes := by
  induction bytes generalizing s with
  | nil => rfl
  | cons byte bytes ih =>
    have cancelled : byte ^^^ key s ^^^ key s = byte := by rw [UInt8.xor_assoc, UInt8.xor_self, UInt8.xor_zero]
    simp only [crypt, ih, cancelled]

/-- The first bytes of the keystream. -/
def stream (s : σ) : Nat → List UInt8
  | 0 => []
  | count + 1 => key s :: stream (next s) count

@[simp] theorem stream_length (s : σ) (count : Nat) : (stream key next s count).length = count := by
  induction count generalizing s with
  | zero => rfl
  | succ count ih => simp [stream, ih]

theorem stream_add (s : σ) (first second : Nat) :
    stream key next s (first + second) = stream key next s first ++ stream key next (next^[first] s) second := by
  induction first generalizing s with
  | zero => simp [stream]
  | succ first ih =>
    rw [Nat.succ_add, stream, ih, stream, List.cons_append, Function.iterate_succ_apply]

theorem crypt_eq_zipWith (s : σ) (bytes : List UInt8) :
    (crypt key next s bytes).1 = List.zipWith (· ^^^ ·) bytes (stream key next s bytes.length) := by
  induction bytes generalizing s with
  | nil => rfl
  | cons byte bytes ih => simp only [crypt, ih, List.length_cons, stream, List.zipWith_cons_cons]

theorem stream_getD (s : σ) {i count : Nat} (inside : i < count) :
    (stream key next s count).getD i 0 = key (next^[i] s) := by
  induction count generalizing s i with
  | zero => exact absurd inside (Nat.not_lt_zero i)
  | succ count ih =>
    cases i with
    | zero => rfl
    | succ i =>
      rw [stream, List.getD_cons_succ, ih (next s) (Nat.lt_of_succ_lt_succ inside), Function.iterate_succ_apply]

/-- Text and ciphertext together give the keystream away. -/
theorem zipWith_crypt (s : σ) (bytes : List UInt8) :
    List.zipWith (· ^^^ ·) bytes (crypt key next s bytes).1 = stream key next s bytes.length := by
  induction bytes generalizing s with
  | nil => rfl
  | cons byte bytes ih =>
    have given : byte ^^^ (byte ^^^ key s) = key s := by rw [← UInt8.xor_assoc, UInt8.xor_self, UInt8.zero_xor]
    rw [crypt, List.zipWith_cons_cons, given, ih, List.length_cons, stream]

/-- A change of the text is the same change of the ciphertext. -/
theorem crypt_xor (s : σ) {bytes mask : List UInt8} (fits : mask.length = bytes.length) :
    (crypt key next s (List.zipWith (· ^^^ ·) bytes mask)).1 = List.zipWith (· ^^^ ·) (crypt key next s bytes).1 mask := by
  induction bytes generalizing s mask with
  | nil => rfl
  | cons byte bytes ih =>
    cases mask with
    | nil => cases fits
    | cons change mask =>
      have swap : byte ^^^ change ^^^ key s = byte ^^^ key s ^^^ change := by
        rw [UInt8.xor_assoc, UInt8.xor_comm change, ← UInt8.xor_assoc]
      rw [List.zipWith_cons_cons, crypt, swap, ih (next s) (Nat.succ.inj fits), crypt, List.zipWith_cons_cons]

end Coalesce.Library.Keystream
