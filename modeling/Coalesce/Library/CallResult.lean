import Mathlib.Data.List.Basic

/-! Calls in the style of C: a call returns a value, returns its error code, or
sits in a loop that never exits. The state it worked on is kept in every case,
since a C function that fails keeps whatever it had already written. -/

namespace Coalesce.Library.CallResult

/-- How a call ends when it does not return a result. -/
inductive Exit where
  | fail
  | hang
  deriving DecidableEq, Repr

abbrev Call (σ α : Type) := EStateM Exit σ α

variable {σ τ α β : Type}

/-- `if (bad) return -1;` -/
def failIf (bad : Bool) : Call σ Unit := if bad then throw .fail else pure ()

/-- Runs a call on one component of a larger state. -/
def zoom (view : σ → τ) (put : τ → σ → σ) (call : Call τ α) : Call σ α := fun s =>
  match call (view s) with
  | .ok value t => .ok value (put t s)
  | .error exit t => .error exit (put t s)

@[simp] theorem pure_apply (value : α) (s : σ) :
    (pure value : Call σ α) s = .ok value s := rfl

@[simp] theorem throw_apply (exit : Exit) (s : σ) :
    (throw exit : Call σ α) s = .error exit s := rfl

@[simp] theorem get_apply (s : σ) : (get : Call σ σ) s = .ok s s := rfl

@[simp] theorem set_apply (t s : σ) : (set t : Call σ PUnit) s = .ok ⟨⟩ t := rfl

@[simp] theorem modify_apply (f : σ → σ) (s : σ) :
    (modify f : Call σ PUnit) s = .ok ⟨⟩ (f s) := rfl

theorem bind_apply (call : Call σ α) (next : α → Call σ β) (s : σ) :
    (call >>= next) s = match call s with
      | .ok value t => next value t
      | .error exit t => .error exit t := by
  change EStateM.bind call next s = _
  unfold EStateM.bind
  cases call s <;> rfl

theorem bind_of_ok {call : Call σ α} {next : α → Call σ β} {s t : σ} {value : α}
    (returned : call s = .ok value t) : (call >>= next) s = next value t := by
  rw [bind_apply, returned]

theorem bind_of_error {call : Call σ α} {next : α → Call σ β} {s t : σ} {exit : Exit}
    (stopped : call s = .error exit t) : (call >>= next) s = .error exit t := by
  rw [bind_apply, stopped]

theorem bind_eq_ok {call : Call σ α} {next : α → Call σ β} {s t : σ} {value : β} :
    (call >>= next) s = .ok value t ↔
      ∃ first mid, call s = .ok first mid ∧ next first mid = .ok value t := by
  rw [bind_apply]
  cases call s <;> simp

@[simp] theorem failIf_true (s : σ) : failIf true s = .error .fail s := rfl

@[simp] theorem failIf_false (s : σ) : failIf false s = .ok () s := rfl

theorem zoom_of_ok {view : σ → τ} {put : τ → σ → σ} {call : Call τ α} {s : σ} {t : τ} {value : α}
    (returned : call (view s) = .ok value t) : zoom view put call s = .ok value (put t s) := by
  unfold zoom
  rw [returned]

theorem zoom_of_error {view : σ → τ} {put : τ → σ → σ} {call : Call τ α} {s : σ} {t : τ}
    {exit : Exit} (stopped : call (view s) = .error exit t) :
    zoom view put call s = .error exit (put t s) := by
  unfold zoom
  rw [stopped]

/-! Parts of the state that a call leaves alone. -/

def stateOf : EStateM.Result Exit σ α → σ
  | .ok _ t => t
  | .error _ t => t

/-- However the call ends, the viewed part of the state is as before. -/
def Keeps (view : σ → τ) (call : Call σ α) : Prop := ∀ s, view (stateOf (call s)) = view s

theorem keeps_pure (view : σ → τ) (value : α) : Keeps view (pure value : Call σ α) := fun _ => rfl

theorem keeps_throw (view : σ → τ) (exit : Exit) : Keeps view (throw exit : Call σ α) := fun _ => rfl

theorem keeps_failIf (view : σ → τ) (bad : Bool) : Keeps view (failIf bad : Call σ Unit) := by
  cases bad
  · exact keeps_pure view ()
  · exact keeps_throw view .fail

theorem keeps_modify {view : σ → τ} {f : σ → σ} (same : ∀ s, view (f s) = view s) :
    Keeps view (modify f : Call σ PUnit) := same

theorem Keeps.bind {view : σ → τ} {call : Call σ α} {next : α → Call σ β} (first : Keeps view call)
    (rest : ∀ value, Keeps view (next value)) : Keeps view (call >>= next) := by
  intro s
  have before := first s
  rw [bind_apply]
  cases returned : call s with
  | ok value t =>
    rw [returned] at before
    exact (rest value t).trans before
  | error exit t =>
    rw [returned] at before
    exact before

/-! Calls that move the viewed part when they succeed, and leave it alone when they fail. -/

def Moves (view : σ → τ) (f : τ → τ) (call : Call σ α) : Prop := ∀ s,
  (∀ value t, call s = .ok value t → view t = f (view s)) ∧ ∀ exit t, call s = .error exit t → view t = view s

theorem moves_modify {view : σ → τ} {f : τ → τ} {g : σ → σ} (moved : ∀ s, view (g s) = f (view s)) :
    Moves view f (modify g : Call σ PUnit) := by
  refine fun s => ⟨fun value t returned => ?_, fun exit t failed => ?_⟩
  · cases returned
    exact moved s
  · cases failed

theorem moves_throw (view : σ → τ) (f : τ → τ) (exit : Exit) : Moves view f (throw exit : Call σ α) := by
  refine fun s => ⟨fun value t returned => ?_, fun exit t failed => ?_⟩
  · cases returned
  · cases failed
    rfl

theorem Keeps.moves {view : σ → τ} {f : τ → τ} {call : Call σ α} {next : α → Call σ β} (first : Keeps view call)
    (rest : ∀ value, Moves view f (next value)) : Moves view f (call >>= next) := by
  intro s
  have before := first s
  cases ended : call s with
  | ok value t =>
    rw [ended] at before
    rw [bind_of_ok ended, ← show view t = view s from before]
    exact rest value t
  | error exit t =>
    rw [ended] at before
    rw [bind_of_error ended]
    refine ⟨fun value u returned => ?_, fun exit u failed => ?_⟩
    · cases returned
    · cases failed
      exact before

end Coalesce.Library.CallResult
