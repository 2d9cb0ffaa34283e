import Coalesce.Library.CallResult
import Mathlib.Algebra.Group.Nat.Defs
import Mathlib.Algebra.Group.Prod
import Mathlib.Algebra.Order.Monoid.Defs

/-! How much of something a call can use, however it ends. -/

namespace Coalesce.Library.CallCost
open Library.CallResult

/-- At most so much is used between two states. Amounts add up along a run. -/
structure Meter (σ M : Type) [AddMonoid M] [Preorder M] where
  Within : M → σ → σ → Prop
  still : ∀ (m : M) (s : σ), Within m s s
  join : ∀ {m n : M} {s t u : σ}, Within m s t → Within n t u → Within (m + n) s u
  more : ∀ {m n : M} {s t : σ}, Within m s t → m ≤ n → Within n s t

section
variable {σ τ α β M : Type} [AddMonoid M] [Preorder M] {meter : Meter σ M} {m n : M}

/-- The meter of one component of a larger state. -/
def Meter.on (meter : Meter τ M) (view : σ → τ) : Meter σ M where
  Within m s t := meter.Within m (view s) (view t)
  still m s := meter.still m (view s)
  join := meter.join
  more := meter.more

/-- Two meters side by side. -/
def Meter.prod {N : Type} [AddMonoid N] [Preorder N] (first : Meter σ M) (second : Meter τ N) : Meter (σ × τ) (M × N) where
  Within m s t := first.Within m.1 s.1 t.1 ∧ second.Within m.2 s.2 t.2
  still m s := ⟨first.still m.1 s.1, second.still m.2 s.2⟩
  join before behind := ⟨first.join before.1 behind.1, second.join before.2 behind.2⟩
  more within enough := ⟨first.more within.1 enough.1, second.more within.2 enough.2⟩

/-- A list is used up from its front. -/
def drops (α : Type) : Meter (List α) Nat where
  Within most s t := ∃ count ≤ most, t = s.drop count
  still most s := ⟨0, Nat.zero_le most, rfl⟩
  join := by
    rintro m n s t u ⟨count, few, rfl⟩ ⟨more, fewer, rfl⟩
    exact ⟨count + more, Nat.add_le_add few fewer, List.drop_drop⟩
  more := fun ⟨count, few, dropped⟩ enough => ⟨count, few.trans enough, dropped⟩

/-- A list grows at its end. -/
def appends (α : Type) : Meter (List α) Nat where
  Within most s t := ∃ added : List α, added.length ≤ most ∧ t = s ++ added
  still most s := ⟨[], Nat.zero_le most, (List.append_nil s).symm⟩
  join := by
    rintro m n s t u ⟨added, few, rfl⟩ ⟨more, fewer, rfl⟩
    refine ⟨added ++ more, ?_, List.append_assoc _ _ _⟩
    rw [List.length_append]
    exact Nat.add_le_add few fewer
  more := fun ⟨added, few, grown⟩ enough => ⟨added, few.trans enough, grown⟩

/-- The call returns, fails or gets stuck within the amount. -/
def Costs (meter : Meter σ M) (most : M) (call : Call σ α) : Prop := ∀ s, meter.Within most s (stateOf (call s))

theorem Costs.more {call : Call σ α} (costs : Costs meter m call) (enough : m ≤ n) : Costs meter n call :=
  fun s => meter.more (costs s) enough

theorem costs_pure (meter : Meter σ M) (m : M) (value : α) : Costs meter m (pure value : Call σ α) :=
  fun s => meter.still m s

theorem costs_throw (meter : Meter σ M) (m : M) (exit : Exit) : Costs meter m (throw exit : Call σ α) :=
  fun s => meter.still m s

theorem costs_failIf (meter : Meter σ M) (m : M) (bad : Bool) : Costs meter m (failIf bad : Call σ Unit) := by
  cases bad
  · exact costs_pure meter m ()
  · exact costs_throw meter m .fail

/-- An assignment that the meter does not see. -/
theorem costs_unseen {inner : Meter τ M} {view : σ → τ} {f : σ → σ} (unseen : ∀ s, view (f s) = view s) :
    Costs (inner.on view) m (modify f : Call σ PUnit) := by
  intro s
  change inner.Within m (view s) (view (f s))
  rw [unseen s]
  exact inner.still m (view s)

/-- What is known of the value of the first call may be counted on in the second. -/
theorem Costs.bind_when {call : Call σ α} {next : α → Call σ β} {known : α → Prop} (first : Costs meter m call)
    (returns : ∀ s value t, call s = .ok value t → known value) (rest : ∀ value, known value → Costs meter n (next value)) :
    Costs meter (m + n) (call >>= next) := by
  intro s
  have before := first s
  rw [bind_apply]
  cases ended : call s with
  | ok value t =>
    rw [ended] at before
    exact meter.join before (rest value (returns s value t ended) t)
  | error exit t =>
    rw [ended] at before
    exact meter.join before (meter.still n t)

theorem Costs.bind {call : Call σ α} {next : α → Call σ β} (first : Costs meter m call)
    (rest : ∀ value, Costs meter n (next value)) : Costs meter (m + n) (call >>= next) :=
  first.bind_when (fun _ _ _ _ => trivial) fun value _ => rest value

theorem Costs.map {call : Call σ α} (costs : Costs meter m call) (f : α → β) : Costs meter m (f <$> call) := by
  intro s
  have used := costs s
  change meter.Within m s (stateOf (EStateM.map f call s))
  rw [EStateM.map]
  cases ended : call s with
  | ok value t =>
    rw [ended] at used
    exact used
  | error exit t =>
    rw [ended] at used
    exact used

/-- A call that uses nothing comes first. -/
theorem Costs.after {call : Call σ α} {next : α → Call σ β} (first : Costs meter 0 call)
    (rest : ∀ value, Costs meter n (next value)) : Costs meter n (call >>= next) := by
  have both := first.bind rest
  rw [zero_add] at both
  exact both

/-- Only calls that use nothing follow. -/
theorem Costs.before {call : Call σ α} {next : α → Call σ β} (first : Costs meter m call)
    (rest : ∀ value, Costs meter 0 (next value)) : Costs meter m (call >>= next) := by
  have both := first.bind rest
  rw [add_zero] at both
  exact both

/-- What a check has let through may be counted on behind it. -/
theorem Costs.guard {bad : Bool} {next : Unit → Call σ β} (passed : bad = false → Costs meter n (next ())) :
    Costs meter n (failIf bad >>= next) := by
  intro s
  cases bad with
  | true =>
    rw [bind_of_error (failIf_true s)]
    exact meter.still n s
  | false =>
    rw [bind_of_ok (failIf_false s)]
    exact passed rfl s

theorem Costs.read {next : σ → Call σ β} (rest : ∀ s, Costs meter n (next s)) : Costs meter n (get >>= next) :=
  fun s => rest s s

theorem Costs.branch {condition : Prop} [Decidable condition] {yes no : Call σ α} (first : condition → Costs meter n yes)
    (second : ¬condition → Costs meter n no) : Costs meter n (if condition then yes else no) := by
  by_cases holds : condition
  · rw [if_pos holds]
    exact first holds
  · rw [if_neg holds]
    exact second holds

/-- A call on a component, when what it uses there is seen from outside. -/
theorem Costs.zoom {N : Type} [AddMonoid N] [Preorder N] {inner : Meter τ N} {k : N} {view : σ → τ} {put : τ → σ → σ}
    {call : Call τ α} (costs : Costs inner k call)
    (seen : ∀ (s : σ) (t : τ), inner.Within k (view s) t → meter.Within m s (put t s)) :
    Costs meter m (zoom view put call) := by
  intro s
  have inside := seen s (stateOf (call (view s))) (costs (view s))
  cases ended : call (view s) with
  | ok value t =>
    rw [zoom_of_ok ended]
    rw [ended] at inside
    exact inside
  | error exit t =>
    rw [zoom_of_error ended]
    rw [ended] at inside
    exact inside

end

end Coalesce.Library.CallCost
