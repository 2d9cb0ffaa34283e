import Coalesce.Library.BitLoop

/-! Computations that stop at the first operation that is not exact, next to the plain
computations they follow. -/

namespace Coalesce.Library.CheckedRun
open BitLoop

variable {α β σ ι : Type}

/-- Nothing stops: the result is the plain one, and `post` holds of it. -/
structure Completes (checked : Option α) (plain : α) (post : α → Prop) : Prop where
  result : checked = some plain
  holds : post plain

theorem Completes.pure {plain : α} {post : α → Prop} (holds : post plain) : Completes (some plain) plain post := ⟨rfl, holds⟩

theorem Completes.bind {checked : Option α} {plain : α} {mid : α → Prop} {rest : α → Option β} {result : β}
    {post : β → Prop} (first : Completes checked plain mid) (next : Completes (rest plain) result post) :
    Completes (checked.bind rest) result post := by
  rw [first.result]
  exact next

theorem Completes.map {checked : Option α} {plain : α} {mid : α → Prop} (first : Completes checked plain mid) (f : α → β) :
    Completes (checked.map f) (f plain) fun _ => True := by
  rw [first.result]
  exact ⟨rfl, trivial⟩

theorem Completes.filter {checked : Option α} {plain : α} {post : α → Prop} {exact : α → Bool}
    (first : Completes checked plain post) (passes : exact plain = true) : Completes (checked.filter exact) plain post := by
  rw [first.result, Option.filter_some, if_pos passes]
  exact ⟨rfl, first.holds⟩

/-- A loop over `items` none of whose rounds stops. -/
theorem foldlM_eq {checked : σ → ι → Option σ} {step : σ → ι → σ} {items : List ι}
    (round : ∀ s, ∀ item ∈ items, checked s item = some (step s item)) (s : σ) :
    items.foldlM checked s = some (items.foldl step s) := by
  induction items generalizing s with
  | nil => rfl
  | cons item items ih =>
    have rest := ih fun s other member => round s other (List.mem_cons_of_mem _ member)
    rw [List.foldlM_cons, List.foldl_cons, round s item List.mem_cons_self, ← rest]
    rfl

/-- `bitsDown` with rounds that may stop. -/
def bitsDownChecked (step : σ → ℕ → Option σ) : ℕ → σ → Option σ
  | 0, s => some s
  | count + 1, s => (step s count).bind (bitsDownChecked step count)

theorem bitsDownChecked_completes {checked : σ → ℕ → Option σ} {step : σ → ℕ → σ} (keeps : σ → Prop)
    (round : ∀ s bit, keeps s → Completes (checked s bit) (step s bit) keeps) (count : ℕ) {s : σ} (start : keeps s) :
    Completes (bitsDownChecked checked count s) (bitsDown step count s) keeps := by
  induction count generalizing s with
  | zero => exact .pure start
  | succ count ih =>
    have first := round s count start
    exact first.bind (ih first.holds)

end Coalesce.Library.CheckedRun
