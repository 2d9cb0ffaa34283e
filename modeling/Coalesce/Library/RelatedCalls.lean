import Coalesce.Library.CallResult

/-! Two runs of one call. A relation on states that a call respects is one whose
related states the call does not tell apart: it ends in the same way, with the same
value, in related states again. -/

namespace Coalesce.Library.RelatedCalls
open CallResult

variable {σ τ α β : Type} {R : σ → σ → Prop}

def SameEnd (R : σ → σ → Prop) : EStateM.Result Exit σ α → EStateM.Result Exit σ α → Prop
  | .ok value s, .ok value' t => value = value' ∧ R s t
  | .error exit s, .error exit' t => exit = exit' ∧ R s t
  | _, _ => False

def Respects (R : σ → σ → Prop) (call : Call σ α) : Prop := ∀ s t, R s t → SameEnd R (call s) (call t)

/-- However they end, the two runs leave related states. -/
theorem SameEnd.state {first second : EStateM.Result Exit σ α} (same : SameEnd R first second) :
    R (stateOf first) (stateOf second) := by
  cases first <;> cases second
  · exact same.2
  · exact same.elim
  · exact same.elim
  · exact same.2

theorem respects_pure (value : α) : Respects R (pure value : Call σ α) := fun _ _ related => ⟨rfl, related⟩

theorem respects_throw (exit : Exit) : Respects R (throw exit : Call σ α) := fun _ _ related => ⟨rfl, related⟩

theorem respects_failIf (bad : Bool) : Respects R (failIf bad : Call σ Unit) := by
  cases bad
  · exact respects_pure ()
  · exact respects_throw .fail

theorem respects_modify {f : σ → σ} (kept : ∀ s t, R s t → R (f s) (f t)) : Respects R (modify f : Call σ PUnit) :=
  fun s t related => ⟨rfl, kept s t related⟩

theorem Respects.bind {call : Call σ α} {next : α → Call σ β} (first : Respects R call)
    (rest : ∀ value, Respects R (next value)) : Respects R (call >>= next) := by
  intro s t related
  have ends := first s t related
  rw [bind_apply, bind_apply]
  cases left : call s with
  | ok value s' =>
    cases right : call t with
    | ok value' t' =>
      rw [left, right] at ends
      obtain ⟨rfl, later⟩ := ends
      exact rest value s' t' later
    | error exit' t' =>
      rw [left, right] at ends
      exact ends.elim
  | error exit s' =>
    cases right : call t with
    | ok value' t' =>
      rw [left, right] at ends
      exact ends.elim
    | error exit' t' =>
      rw [left, right] at ends
      exact ends

theorem Respects.ite {condition : Prop} [Decidable condition] {call call' : Call σ α} (yes : Respects R call)
    (no : Respects R call') : Respects R (if condition then call else call') := by
  split
  · exact yes
  · exact no

/-- A call that looks at the state, where related states look alike. -/
theorem respects_get {next : σ → Call σ α} (alike : ∀ s t, R s t → next s = next t)
    (each : ∀ s, Respects R (next s)) : Respects R (get >>= next) := by
  intro s t related
  rw [bind_of_ok (get_apply s), bind_of_ok (get_apply t), alike s t related]
  exact each t s t related

/-- A call on one component that related states have in common. -/
theorem respects_zoom {view : σ → τ} {put : τ → σ → σ} {call : Call τ α} (same : ∀ s t, R s t → view s = view t)
    (kept : ∀ s t u, R s t → R (put u s) (put u t)) : Respects R (zoom view put call) := by
  intro s t related
  unfold zoom
  rw [same s t related]
  cases call (view t) with
  | ok value u => exact ⟨rfl, kept s t u related⟩
  | error exit u => exact ⟨rfl, kept s t u related⟩

end Coalesce.Library.RelatedCalls
