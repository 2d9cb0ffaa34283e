import Mathlib.Data.List.Prime
import Mathlib.NumberTheory.LucasPrimality

/-! Primality from the factors of the predecessor, checked by the kernel: a chain
of entries in which every factor has an entry of its own further up. -/

namespace Coalesce.Library.PrattCertificate

/-- `base ^ exponent % m`, one exponent bit a round. -/
def powMod (m base : ℕ) : ℕ → ℕ → ℕ
  | 0, _ => 1 % m
  | rounds + 1, exponent =>
    let half := powMod m base rounds (exponent / 2)
    if exponent % 2 = 1 then half * half % m * base % m else half * half % m

theorem powMod_eq (m base rounds : ℕ) {exponent : ℕ} (fits : exponent < 2 ^ rounds) :
    powMod m base rounds exponent = base ^ exponent % m := by
  induction rounds generalizing exponent with
  | zero =>
    obtain rfl : exponent = 0 := by omega
    rfl
  | succ rounds ih =>
    rw [Nat.pow_succ] at fits
    have square : base ^ (exponent / 2) % m * (base ^ (exponent / 2) % m) % m = base ^ (2 * (exponent / 2)) % m := by
      rw [← Nat.mul_mod, two_mul, pow_add]
    simp only [powMod, ih (show exponent / 2 < 2 ^ rounds by omega), square]
    split
    · next odd =>
      rw [Nat.mod_mul_mod, ← pow_succ, show 2 * (exponent / 2) + 1 = exponent by omega]
    · rw [show 2 * (exponent / 2) = exponent by omega]

/-- A number, a generator of its units and the prime factors of its predecessor. -/
structure Entry where
  number : ℕ
  base : ℕ
  factors : List ℕ

/-- `base ^ exponent` modulo the number. -/
def Entry.pow (e : Entry) (exponent : ℕ) : ℕ := powMod e.number e.base (e.number.log2 + 1) exponent

structure Entry.Passes (known : List ℕ) (e : Entry) : Prop where
  large : 1 < e.number
  product : e.factors.prod = e.number - 1
  primes : ∀ q ∈ e.factors, q ∈ known
  whole : e.pow (e.number - 1) = 1
  parts : ∀ q ∈ e.factors, e.pow ((e.number - 1) / q) ≠ 1

instance (known : List ℕ) (e : Entry) : Decidable (e.Passes known) :=
  decidable_of_iff (1 < e.number ∧ e.factors.prod = e.number - 1 ∧ (∀ q ∈ e.factors, q ∈ known) ∧
      e.pow (e.number - 1) = 1 ∧ ∀ q ∈ e.factors, e.pow ((e.number - 1) / q) ≠ 1)
    ⟨fun ⟨large, product, primes, whole, parts⟩ => ⟨large, product, primes, whole, parts⟩,
      fun passes => ⟨passes.large, passes.product, passes.primes, passes.whole, passes.parts⟩⟩

theorem Entry.pow_eq_one {e : Entry} (large : 1 < e.number) {exponent : ℕ} (below : exponent ≤ e.number - 1) :
    e.pow exponent = 1 ↔ (e.base : ZMod e.number) ^ exponent = 1 := by
  have fits : exponent < 2 ^ (e.number.log2 + 1) := by
    have size := @Nat.lt_log2_self e.number
    omega
  have cast : (e.base : ZMod e.number) ^ exponent = 1 ↔ ((e.base ^ exponent : ℕ) : ZMod e.number) = (1 : ℕ) := by
    rw [Nat.cast_pow, Nat.cast_one]
  rw [Entry.pow, powMod_eq _ _ _ fits, cast, ZMod.natCast_eq_natCast_iff', Nat.mod_eq_of_lt large]

theorem Entry.Passes.prime {known : List ℕ} {e : Entry} (passes : e.Passes known) (primes : ∀ q ∈ known, q.Prime) :
    e.number.Prime := by
  refine lucas_primality e.number (e.base : ZMod e.number) ?_ fun q prime divides => ?_
  · exact (Entry.pow_eq_one passes.large (Nat.le_refl _)).mp passes.whole
  rw [← passes.product] at divides
  obtain ⟨factor, listed, within⟩ := (Prime.dvd_prod_iff prime.prime).mp divides
  obtain rfl := (Nat.prime_dvd_prime_iff_eq prime (primes factor (passes.primes factor listed))).mp within
  exact fun one => passes.parts q listed ((Entry.pow_eq_one passes.large (Nat.div_le_self _ _)).mpr one)

/-- Every entry passes on the strength of the ones before it. -/
def Chain (known : List ℕ) : List Entry → Prop
  | [] => True
  | e :: rest => e.Passes known ∧ Chain (e.number :: known) rest

instance Chain.decidable (known : List ℕ) : (entries : List Entry) → Decidable (Chain known entries)
  | [] => inferInstanceAs (Decidable True)
  | e :: rest =>
    have := Chain.decidable (e.number :: known) rest
    inferInstanceAs (Decidable (e.Passes known ∧ Chain (e.number :: known) rest))

theorem Chain.prime {known : List ℕ} {entries : List Entry} (chain : Chain known entries)
    (primes : ∀ q ∈ known, q.Prime) : ∀ e ∈ entries, e.number.Prime := by
  induction entries generalizing known with
  | nil => simp
  | cons e rest ih =>
    have first := chain.1.prime primes
    exact List.forall_mem_cons.mpr ⟨first, ih chain.2 (List.forall_mem_cons.mpr ⟨first, primes⟩)⟩

end Coalesce.Library.PrattCertificate
