import Mathlib.Data.List.Basic

/-! Two machines that go through one list of events, each at its own pace. The
first one puts output on a wire with some events; the second one takes the same
output off the wire when it comes to the event. Silent events put out nothing,
and only these may be taken by the second machine before the first. -/

namespace Coalesce.Library.Lockstep

variable {σ ε β : Type} (step : σ → ε → σ) (emit : σ → ε → List β)

def stateAt (start : σ) (events : List ε) (position : Nat) : σ := (events.take position).foldl step start

/-- Output of a list of events. -/
def emitted : σ → List ε → List β
  | _, [] => []
  | s, event :: events => emit s event ++ emitted (step s event) events

def Silent (event : ε) : Prop := ∀ s, emit s event = []

theorem emitted_append (s : σ) (first second : List ε) :
    emitted step emit s (first ++ second) =
      emitted step emit s first ++ emitted step emit (first.foldl step s) second := by
  induction first generalizing s with
  | nil => rfl
  | cons event first ih => simp [emitted, ih]

theorem emitted_silent {events : List ε} (silent : ∀ event ∈ events, Silent emit event) (s : σ) :
    emitted step emit s events = [] := by
  induction events generalizing s with
  | nil => rfl
  | cons event events ih =>
    rw [emitted, silent event (by simp), ih (fun other member => silent other (List.mem_cons_of_mem _ member))]
    rfl

theorem stateAt_succ {start : σ} {events : List ε} {position : Nat} {event : ε}
    (next : events[position]? = some event) :
    stateAt step start events (position + 1) = step (stateAt step start events position) event := by
  rw [stateAt, stateAt, List.take_add_one, next, Option.toList_some, List.foldl_append]
  rfl

/-- The two machines, at positions `out` and `inn`, and the wire between them. -/
structure Linked (start : σ) (events : List ε) (out inn : Nat) (sender receiver : σ) (wire : List β) : Prop where
  sender : sender = stateAt step start events out
  receiver : receiver = stateAt step start events inn
  wire : wire = emitted step emit (stateAt step start events inn) ((events.take out).drop inn)
  length : events.length = max out inn
  ahead : ∀ event ∈ events.drop out, Silent emit event

section
variable {step emit} {start : σ} {events : List ε} {out inn : Nat} {sender receiver : σ} {wire : List β}

theorem linked_start : Linked step emit start [] 0 0 start start [] :=
  ⟨rfl, rfl, rfl, rfl, by simp⟩

theorem stateAt_append (more : List ε) {position : Nat} (within : position ≤ events.length) :
    stateAt step start (events ++ more) position = stateAt step start events position := by
  rw [stateAt, List.take_append_of_le_length within, stateAt]

/-- The sender takes a new event. -/
theorem Linked.send (linked : Linked step emit start events out inn sender receiver wire) (event : ε)
    (current : events.length = out) :
    Linked step emit start (events ++ [event]) (out + 1) inn (step sender event) receiver (wire ++ emit sender event) := by
  have length := linked.length
  have behind : inn ≤ out := by omega
  refine ⟨?_, ?_, ?_, by rw [List.length_append, List.length_singleton]; omega, ?_⟩
  · rw [stateAt_succ step (show _ = some event by simp [← current]), stateAt_append _ (by omega), ← linked.sender]
  · rw [stateAt_append _ (by omega), ← linked.receiver]
  · rw [stateAt_append _ (by omega), List.take_of_length_le (by simp [current]),
      List.drop_append_of_le_length (by omega), emitted_append, linked.wire, List.take_of_length_le (by omega)]
    congr 1
    have joined : (events.drop inn).foldl step (stateAt step start events inn) = sender := by
      rw [linked.sender, stateAt, stateAt, List.take_of_length_le (show events.length ≤ out by omega), ← List.foldl_append,
        List.take_append_drop]
    rw [joined]
    simp [emitted]
  · rw [List.drop_of_length_le (by simp [current])]
    simp

/-- The sender comes to an event that the receiver took before. -/
theorem Linked.follow (linked : Linked step emit start events out inn sender receiver wire) {event : ε}
    (next : events[out]? = some event) :
    Linked step emit start events (out + 1) inn (step sender event) receiver wire := by
  have length := linked.length
  have present := (List.getElem?_eq_some_iff.mp next).1
  refine ⟨?_, linked.receiver, ?_, by omega, fun other member => linked.ahead other ?_⟩
  · rw [stateAt_succ step next, ← linked.sender]
  · rw [linked.wire, List.drop_of_length_le (by rw [List.length_take]; omega),
      List.drop_of_length_le (by rw [List.length_take]; omega)]
  · rw [← List.drop_drop] at member
    exact List.mem_of_mem_drop member

/-- The receiver comes to an event of the sender and finds its output. -/
theorem Linked.take (linked : Linked step emit start events out inn sender receiver wire) {event : ε}
    (next : events[inn]? = some event) :
    ∃ rest, wire = emit receiver event ++ rest ∧
      Linked step emit start events out (inn + 1) sender (step receiver event) rest := by
  have length := linked.length
  have present := (List.getElem?_eq_some_iff.mp next).1
  have front : (events.take out).drop inn = event :: (events.take out).drop (inn + 1) := by
    rw [List.drop_eq_getElem_cons (by rw [List.length_take]; omega), List.getElem_take]
    rw [List.getElem?_eq_getElem present, Option.some.injEq] at next
    rw [next]
  have moved : stateAt step start events (inn + 1) = _ := stateAt_succ step next
  refine ⟨_, ?_, linked.sender, ?_, rfl, by omega, linked.ahead⟩
  · rw [linked.wire, front, emitted, moved, linked.receiver]
  · rw [moved, ← linked.receiver]

/-- The receiver takes a silent event first. -/
theorem Linked.lead (linked : Linked step emit start events out inn sender receiver wire) {event : ε}
    (current : events.length = inn) (silent : Silent emit event) :
    Linked step emit start (events ++ [event]) out (inn + 1) sender (step receiver event) wire := by
  have length := linked.length
  refine ⟨?_, ?_, ?_, by rw [List.length_append, List.length_singleton]; omega, fun other member => ?_⟩
  · rw [stateAt_append _ (by omega), ← linked.sender]
  · rw [stateAt_succ step (show _ = some event by simp [← current]), stateAt_append _ (by omega), ← linked.receiver]
  · rw [linked.wire, List.drop_of_length_le (by rw [List.length_take]; omega),
      List.drop_of_length_le (by rw [List.length_take]; omega)]
    rfl
  · rw [List.drop_append_of_le_length (by omega), List.mem_append, List.mem_singleton] at member
    rcases member with earlier | rfl
    · exact linked.ahead other earlier
    · exact silent

/-- Once only silent events separate the machines, the wire is empty. -/
theorem Linked.quiet (linked : Linked step emit start events out inn sender receiver wire)
    (silent : ∀ event ∈ (events.take out).drop inn, Silent emit event) : wire = [] := by
  rw [linked.wire, emitted_silent step emit silent]

theorem Linked.equal (linked : Linked step emit start events out inn sender receiver wire) (level : out = inn) :
    sender = receiver := by
  rw [linked.sender, linked.receiver, level]

end

end Coalesce.Library.Lockstep
