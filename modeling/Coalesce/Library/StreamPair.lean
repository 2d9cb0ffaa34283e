import Mathlib.Data.List.Basic
import Mathlib.Data.List.Infix

/-! Two programs that write to each other. A program is deterministic and is given by what
it writes and returns once the whole stream that it reads is known. In a joint run the
streams come into being piece by piece, and in any order: by the time a program has seen
some values it can have done only what all streams have in common that may still follow. -/

namespace Coalesce.Library.StreamPair

variable {β ρ : Type}

/-- What a program does in all. A program that does not come back has no result. -/
structure Outcome (β ρ : Type) where
  written : List β
  result : Option ρ
  deriving DecidableEq, Repr

abbrev Program (β ρ : Type) := List β → Outcome β ρ

inductive Side where
  | left
  | right
  deriving DecidableEq, Repr

def Side.other : Side → Side
  | .left => .right
  | .right => .left

@[simp] theorem other_other (side : Side) : side.other.other = side := by cases side <;> rfl

theorem other_ne (side : Side) : side.other ≠ side := by cases side <;> decide

theorem side_cases (side one : Side) : one = side ∨ one = side.other := by cases side <;> cases one <;> decide

/-- What either program has read, written and returned so far. -/
structure Joint (β ρ : Type) where
  seen : Side → List β
  written : Side → List β
  result : Side → Option ρ

def begun : Joint β ρ := { seen := fun _ => [], written := fun _ => [], result := fun _ => none }

def update {α : Type} (f : Side → α) (side : Side) (value : α) : Side → α := fun one => if one = side then value else f one

@[simp] theorem update_self {α : Type} (f : Side → α) (side : Side) (value : α) : update f side value side = value :=
  if_pos rfl

@[simp] theorem update_other {α : Type} (f : Side → α) (side : Side) (value : α) :
    update f side value side.other = f side.other := if_neg (other_ne side)

/-- Streams that a program may still be reading. Once it has read all that its peer wrote
before it returned, it is at the end of its stream. -/
def Possible (s : Joint β ρ) (side : Side) (stream : List β) : Prop :=
  s.seen side <+: stream ∧
    (s.result side.other ≠ none → s.seen side = s.written side.other → stream = s.seen side)

/-- The pieces in which values are read and written may have any size. -/
inductive Step (program : Side → Program β ρ) : Joint β ρ → Joint β ρ → Prop
  | read {s : Joint β ρ} (side : Side) (more : List β) (something : more ≠ [])
      (present : s.seen side ++ more <+: s.written side.other) :
      Step program s { s with seen := update s.seen side (s.seen side ++ more) }
  | write {s : Joint β ρ} (side : Side) (more : List β) (something : more ≠ [])
      (certain : ∀ stream, Possible s side stream → s.written side ++ more <+: (program side stream).written) :
      Step program s { s with written := update s.written side (s.written side ++ more) }
  | finish {s : Joint β ρ} (side : Side) (value : ρ) (running : s.result side = none)
      (certain : ∀ stream, Possible s side stream → program side stream = ⟨s.written side, some value⟩) :
      Step program s { s with result := update s.result side (some value) }

/-- So many steps lead from the beginning to a state. -/
inductive Reached (program : Side → Program β ρ) : Nat → Joint β ρ → Prop
  | begun : Reached program 0 begun
  | step {count : Nat} {s t : Joint β ρ} (reached : Reached program count s) (step : Step program s t) :
      Reached program (count + 1) t

/-- Streams and results that fit together: each program makes its stream of the other one. -/
structure Fits (program : Side → Program β ρ) (stream : Side → List β) (value : Side → ρ) : Prop where
  outcome : ∀ side, program side (stream side.other) = ⟨stream side, some (value side)⟩

/-- No program is ahead of the streams that fit. -/
structure Behind (stream : Side → List β) (value : Side → ρ) (s : Joint β ρ) : Prop where
  seen : ∀ side, s.seen side <+: s.written side.other
  written : ∀ side, s.written side <+: stream side
  result : ∀ side r, s.result side = some r → r = value side ∧ s.written side = stream side

section
variable {program : Side → Program β ρ} {stream : Side → List β} {value : Side → ρ} {s t : Joint β ρ}

theorem both {motive : Side → Prop} (side : Side) (own : motive side) (other : motive side.other) (one : Side) : motive one := by
  rcases side_cases side one with rfl | rfl
  · exact own
  · exact other

/-- The stream that comes about in the end is always possible. -/
theorem Behind.possible (behind : Behind stream value s) (side : Side) : Possible s side (stream side.other) := by
  refine ⟨(behind.seen side).trans (behind.written side.other), fun ended all => ?_⟩
  obtain ⟨r, returned⟩ := Option.ne_none_iff_exists'.mp ended
  rw [all, (behind.result side.other r returned).2]

theorem Behind.step (fits : Fits program stream value) (behind : Behind stream value s) (step : Step program s t) :
    Behind stream value t := by
  cases step with
  | read side more something present =>
    refine ⟨both side ?_ ?_, behind.written, behind.result⟩
    · simpa only [update_self] using present
    · simpa only [update_other] using behind.seen side.other
  | write side more something certain =>
    have within := certain _ (behind.possible side)
    rw [fits.outcome side] at within
    refine ⟨both side ?_ ?_, both side ?_ ?_, both side ?_ ?_⟩
    · simpa only [update_other] using behind.seen side
    · have before := behind.seen side.other
      rw [other_other] at before
      simpa only [other_other, update_self] using before.trans (List.prefix_append _ _)
    · simpa only [update_self] using within
    · simpa only [update_other] using behind.written side.other
    · intro r returned
      rw [(behind.result side r returned).2] at within
      have longer := within.length_le
      have positive := List.length_pos_iff.mpr something
      simp only [List.length_append] at longer
      omega
    · simpa only [update_other] using behind.result side.other
  | finish side r running certain =>
    have same := certain _ (behind.possible side)
    rw [fits.outcome side] at same
    injection same with written result
    refine ⟨behind.seen, behind.written, both side ?_ ?_⟩
    · simp only [update_self]
      intro r' returned
      rw [← Option.some.inj returned, ← written]
      exact ⟨(Option.some.inj result).symm, rfl⟩
    · simpa only [update_other] using behind.result side.other

/-- Whatever the order of the steps, streams and results are those that fit. -/
theorem Reached.behind (fits : Fits program stream value) {count : Nat} (reached : Reached program count s) :
    Behind stream value s := by
  induction reached with
  | begun => exact ⟨fun _ => List.prefix_rfl, fun _ => List.nil_prefix, fun _ _ => nofun⟩
  | step reached step ih => exact ih.step fits step

/-! Progress. -/

/-- Until both streams are complete one of the programs is certain of more to write, and
then one of them returns without waiting for the end of its stream. -/
structure Lively (program : Side → Program β ρ) (stream : Side → List β) (value : Side → ρ) : Prop
    extends Fits program stream value where
  moves : ∀ written : Side → List β, (∀ side, written side <+: stream side) → written ≠ stream →
    ∃ side more, more ≠ [] ∧ ∀ later, written side.other <+: later → written side ++ more <+: (program side later).written
  returns : ∃ side, ∀ later, stream side.other <+: later → program side later = ⟨stream side, some (value side)⟩

/-- A run that cannot go on is over on both sides. -/
theorem Reached.finished (lively : Lively program stream value) {count : Nat} (reached : Reached program count s)
    (still : ∀ t, ¬Step program s t) (side : Side) : s.result side = some (value side) ∧ s.written side = stream side := by
  have behind := reached.behind lively.toFits
  have drained : ∀ side, s.seen side = s.written side.other := by
    intro side
    obtain ⟨more, rest⟩ := behind.seen side
    by_cases something : more = []
    · rw [← rest, something, List.append_nil]
    · exact absurd (.read side more something (by rw [rest])) (still _)
  have complete : s.written = stream := by
    by_contra short
    obtain ⟨side, more, something, certain⟩ := lively.moves s.written behind.written short
    refine still _ (.write side more something fun later possible => certain later ?_)
    rw [← drained side]
    exact possible.1
  have ended : ∀ side, (∀ later, Possible s side later → program side later = ⟨stream side, some (value side)⟩) →
      s.result side = some (value side) := by
    intro side certain
    cases returned : s.result side with
    | none => exact absurd (.finish side (value side) returned (by rw [complete]; exact certain)) (still _)
    | some r => rw [(behind.result side r returned).1]
  obtain ⟨first, certain⟩ := lively.returns
  have firstEnds := ended first fun later possible => certain later (by
    rw [← complete, ← drained first]
    exact possible.1)
  have otherEnds := ended first.other fun later possible => by
    have all := drained first.other
    have whole := possible.2 (by rw [other_other, firstEnds]; exact nofun) all
    rw [whole, all, complete]
    exact lively.outcome first.other
  exact ⟨both (motive := fun one => s.result one = some (value one)) first firstEnds otherEnds side, by rw [complete]⟩

/-- What either program has done, counted. -/
def done (s : Joint β ρ) (side : Side) : Nat :=
  (s.seen side).length + (s.written side).length + (if (s.result side).isSome then 1 else 0)

theorem Step.done (step : Step program s t) :
    done s .left + done s .right + 1 ≤ done t .left + done t .right := by
  cases step with
  | read side more something =>
    have positive := List.length_pos_iff.mpr something
    cases side <;> simp [StreamPair.done, update] <;> omega
  | write side more something =>
    have positive := List.length_pos_iff.mpr something
    cases side <;> simp [StreamPair.done, update] <;> omega
  | finish side r running =>
    cases side with
    | left | right =>
      simp only [StreamPair.done, update, running, reduceCtorEq, if_true, if_false, Option.isSome_some,
        Option.isSome_none, Bool.false_eq_true]
      omega

/-- Every run comes to its end. -/
theorem Reached.bound (fits : Fits program stream value) {count : Nat} (reached : Reached program count s) :
    count ≤ 2 * ((stream .left).length + (stream .right).length) + 2 := by
  have counted : count ≤ done s .left + done s .right := by
    clear fits
    induction reached with
    | begun => exact Nat.zero_le _
    | step reached step ih => exact (Nat.succ_le_succ ih).trans step.done
  have behind := reached.behind fits
  have written := fun side => (behind.written side).length_le
  have seen := fun side => (behind.seen side).length_le
  have result : ∀ side, (if (s.result side).isSome then 1 else 0) ≤ 1 := by
    intro side
    split <;> omega
  have left := seen .left
  have right := seen .right
  simp only [Side.other] at left right
  have writtenLeft := written .left
  have writtenRight := written .right
  have resultLeft := result .left
  have resultRight := result .right
  unfold StreamPair.done at counted
  omega

/-- So there is a run that cannot go on. -/
theorem exists_still (fits : Fits program stream value) :
    ∃ (count : Nat) (s : Joint β ρ), Reached program count s ∧ ∀ t, ¬Step program s t := by
  by_contra endless
  have further : ∀ count, ∃ s : Joint β ρ, Reached program count s := by
    intro count
    induction count with
    | zero => exact ⟨StreamPair.begun, .begun⟩
    | succ count ih =>
      obtain ⟨s, reached⟩ := ih
      by_contra stopped
      refine endless ⟨count, s, reached, fun t step => stopped ⟨t, reached.step step⟩⟩
  obtain ⟨s, reached⟩ := further (2 * ((stream .left).length + (stream .right).length) + 3)
  have bound := reached.bound fits
  omega

end

end Coalesce.Library.StreamPair
