import Coalesce.KexChoice

/-! Negotiation on an allocator that may refuse any request: the client-first choice is
made, or nothing is chosen, and nothing in between. -/

namespace Coalesce.KexRefusals
open Library.CallResult Buffer Kex KexAgreement KexChoice

def categories : List Category :=
  [.kex, .hostKey, .cipherC2s, .cipherS2c, .macC2s, .macS2c, .compC2s, .compS2c]

/-- The copy of a name, when there is one to copy. -/
def pick (choice : Option (List UInt8)) : Call Heap (Option (List UInt8)) :=
  match choice with
  | none => pure none
  | some name => mallocCopy name

/-- The copies of several names, and what is left of the answers of the allocator. -/
def picked (heap : Heap) : List (Option (List UInt8)) → List (Option (List UInt8)) × Heap
  | [] => ([], heap)
  | none :: choices => (none :: (picked heap choices).1, (picked heap choices).2)
  | some name :: choices =>
      ((if heap.alloc.1 then some name else none) :: (picked heap.alloc.2 choices).1, (picked heap.alloc.2 choices).2)

/-- One request for each category that has a common name. -/
def requests (c s : SshKexInit) : Nat := (categories.map (common c s)).countP Option.isSome

/-! Each field is one pick. -/

theorem matchFrom_pick (p serverList : List UInt8) :
    matchFrom p serverList =
      pick ((p.splitOn COMMA).find? fun name => decide (name ≠ [] ∧ name ∈ names (some serverList))) := by
  fun_induction matchFrom p serverList with
  | case1 => rfl
  | case2 p _ found =>
    rw [listContains_iff] at found
    rw [splitOn_afterComma, List.find?_cons_of_pos (by simpa only [decide_eq_true_eq] using found)]
    rfl
  | case3 p _ absent last =>
    rw [listContains_iff] at absent
    rw [splitOn_none last, List.find?_cons_of_neg (by simpa only [decide_eq_true_eq] using absent)]
    rfl
  | case4 p _ absent rest comma ih =>
    rw [listContains_iff] at absent
    rw [splitOn_some comma, List.find?_cons_of_neg (by simpa only [decide_eq_true_eq] using absent)]
    exact ih

theorem matchList_pick (clientList serverList : Option (List UInt8)) :
    matchList clientList serverList = pick (firstCommon clientList serverList) := by
  cases clientList with
  | none => rfl
  | some clientList =>
    cases serverList with
    | none =>
      rw [firstCommon_none_right]
      rfl
    | some serverList => exact matchFrom_pick (cString clientList) serverList

theorem pick_cons (heap : Heap) (choice : Option (List UInt8)) (choices : List (Option (List UInt8))) :
    ∃ copy left, pick choice heap = .ok copy left ∧ (picked heap (choice :: choices)).1 = copy :: (picked left choices).1 ∧
      (picked heap (choice :: choices)).2 = (picked left choices).2 := by
  cases choice with
  | none => exact ⟨none, heap, rfl, rfl, rfl⟩
  | some name => exact ⟨if heap.alloc.1 then some name else none, heap.alloc.2, rfl, rfl, rfl⟩

/-! What several picks come to. -/

theorem alloc_drop (heap : Heap) : heap.alloc.2 = heap.drop 1 := by
  cases heap <;> rfl

theorem picked_heap (heap : Heap) (choices : List (Option (List UInt8))) :
    (picked heap choices).2 = heap.drop (choices.countP Option.isSome) := by
  induction choices generalizing heap with
  | nil => rfl
  | cons choice choices ih =>
    cases choice with
    | none => exact ih heap
    | some name =>
      rw [picked, ih, alloc_drop, List.drop_drop, List.countP_cons_of_pos rfl, Nat.add_comm]

/-- Every name is copied when each category has one and the allocator refuses none of them. -/
theorem picked_all (heap : Heap) (choices : List (Option (List UInt8))) :
    (∀ copy ∈ (picked heap choices).1, copy.isSome) ↔
      (∀ choice ∈ choices, choice.isSome) ∧ ∀ answer ∈ heap.take choices.length, answer = true := by
  induction choices generalizing heap with
  | nil => simp [picked]
  | cons choice choices ih =>
    cases choice with
    | none => simp [picked]
    | some name =>
      simp only [picked, List.forall_mem_cons, ih, List.length_cons, Option.isSome_some, true_and]
      cases heap with
      | nil => simp [Heap.alloc]
      | cons granted heap => cases granted <;> simp [Heap.alloc]

theorem picked_choices (heap : Heap) (choices : List (Option (List UInt8)))
    (all : ∀ copy ∈ (picked heap choices).1, copy.isSome) : (picked heap choices).1 = choices := by
  induction choices generalizing heap with
  | nil => rfl
  | cons choice choices ih =>
    cases choice with
    | none => simp [picked] at all
    | some name =>
      simp only [picked, List.forall_mem_cons] at all ⊢
      obtain ⟨first, others⟩ := all
      have granted : heap.alloc.1 = true := by
        cases answer : heap.alloc.1 with
        | true => rfl
        | false =>
          rw [answer] at first
          cases first
      rw [granted, ih _ others]
      rfl

/-! The whole negotiation. -/

def fields (chosen : SshKexProposal) : List (Option (List UInt8)) := categories.map (selected chosen)

theorem complete_fields (chosen : SshKexProposal) : chosen.complete = true ↔ ∀ field ∈ fields chosen, field.isSome := by
  simp only [SshKexProposal.complete, fields, categories, List.map_cons, List.map_nil, selected, Bool.and_eq_true,
    List.forall_mem_cons, and_assoc]
  simp

theorem fields_injective {first second : SshKexProposal} (same : fields first = fields second) : first = second := by
  cases first
  cases second
  simp only [fields, categories, List.map_cons, List.map_nil, selected, List.cons.injEq, and_true] at same
  simpa using same

theorem kexNegotiate_picked (c s : SshKexInit) (heap : Heap) :
    ∃ chosen, fields chosen = (picked heap (categories.map (common c s))).1 ∧
      kexNegotiate c s heap = .ok (if chosen.complete then (true, chosen) else (false, zeroProposal))
        (picked heap (categories.map (common c s))).2 := by
  simp only [categories, List.map_cons, List.map_nil]
  obtain ⟨kex, heap₁, first, copies₁, left₁⟩ := pick_cons heap (common c s .kex) _
  obtain ⟨hostKey, heap₂, second, copies₂, left₂⟩ := pick_cons heap₁ (common c s .hostKey) _
  obtain ⟨cipherC2s, heap₃, third, copies₃, left₃⟩ := pick_cons heap₂ (common c s .cipherC2s) _
  obtain ⟨cipherS2c, heap₄, fourth, copies₄, left₄⟩ := pick_cons heap₃ (common c s .cipherS2c) _
  obtain ⟨macC2s, heap₅, fifth, copies₅, left₅⟩ := pick_cons heap₄ (common c s .macC2s) _
  obtain ⟨macS2c, heap₆, sixth, copies₆, left₆⟩ := pick_cons heap₅ (common c s .macS2c) _
  obtain ⟨compC2s, heap₇, seventh, copies₇, left₇⟩ := pick_cons heap₆ (common c s .compC2s) _
  obtain ⟨compS2c, heap₈, eighth, copies₈, left₈⟩ := pick_cons heap₇ (common c s .compS2c) []
  rw [copies₁, copies₂, copies₃, copies₄, copies₅, copies₆, copies₇, copies₈, left₁, left₂, left₃, left₄, left₅, left₆, left₇, left₈]
  refine ⟨⟨kex, hostKey, cipherC2s, cipherS2c, macC2s, macS2c, compC2s, compS2c⟩, rfl, ?_⟩
  simp only [common, offered, ← matchList_pick] at first second third fourth fifth sixth seventh eighth
  unfold kexNegotiate
  rw [bind_of_ok first, bind_of_ok second, bind_of_ok third, bind_of_ok fourth, bind_of_ok fifth, bind_of_ok sixth,
    bind_of_ok seventh, bind_of_ok eighth, ← apply_ite pure]
  rfl

theorem picked_proposal {c s : SshKexInit} {heap : Heap} {chosen : SshKexProposal}
    (same : fields chosen = (picked heap (categories.map (common c s))).1) (complete : chosen.complete) :
    chosen = commonProposal c s := by
  have copied := (complete_fields chosen).mp complete
  rw [same] at copied
  exact fields_injective (same.trans (picked_choices _ _ copied))

/-- A negotiation that succeeds has copied every common name. -/
theorem kexNegotiate_agreed {c s : SshKexInit} {heap left : Heap} {chosen : SshKexProposal}
    (agreed : kexNegotiate c s heap = .ok (true, chosen) left) : chosen.complete ∧ chosen = commonProposal c s := by
  obtain ⟨copied, same, returned⟩ := kexNegotiate_picked c s heap
  rw [returned] at agreed
  by_cases complete : copied.complete
  · rw [if_pos complete] at agreed
    cases agreed
    exact ⟨complete, picked_proposal same complete⟩
  · rw [if_neg complete] at agreed
    cases agreed

/-- Code and choice, in terms of the common names. -/
theorem kexNegotiate_exact (c s : SshKexInit) (heap : Heap) :
    kexNegotiate c s heap =
      .ok (if (commonProposal c s).complete ∧ ∀ answer ∈ heap.take 8, answer = true then (true, commonProposal c s)
          else (false, zeroProposal))
        (heap.drop (requests c s)) := by
  obtain ⟨chosen, same, returned⟩ := kexNegotiate_picked c s heap
  have complete : chosen.complete = true ↔
      (commonProposal c s).complete = true ∧ ∀ answer ∈ heap.take 8, answer = true := by
    rw [complete_fields, same, picked_all, complete_fields]
    rfl
  rw [returned, picked_heap]
  by_cases all : chosen.complete
  · rw [if_pos all, if_pos (complete.mp all), picked_proposal same all]
    rfl
  · rw [if_neg all, if_neg fun both => all (complete.mpr both)]
    rfl

/-- Any two proposals and any answers of the allocator. A common name in all eight categories
and eight granted requests give the client-first choice; everything else gives -1 and an empty
proposal, as if no list had matched. Requests are made for the categories with a common name,
and no others. -/
theorem negotiates_all_or_nothing (c s : SshKexInit) (heap : Heap) :
    ∃ ok chosen, kexNegotiate c s heap = .ok (ok, chosen) (heap.drop (requests c s)) ∧
      (ok = true ↔ (∀ category, ∃ name, common c s category = some name) ∧ ∀ answer ∈ heap.take 8, answer = true) ∧
      (ok = true → ∀ category, selected chosen category = common c s category) ∧
      (ok = false → ∀ category, selected chosen category = none) := by
  have returned := kexNegotiate_exact c s heap
  rw [← complete_iff]
  by_cases all : (commonProposal c s).complete ∧ ∀ answer ∈ heap.take 8, answer = true
  · rw [if_pos all] at returned
    refine ⟨true, commonProposal c s, returned, iff_of_true rfl all, fun _ category => ?_, by simp⟩
    cases category <;> rfl
  · rw [if_neg all] at returned
    refine ⟨false, zeroProposal, returned, iff_of_false Bool.false_ne_true all, by simp, fun _ category => ?_⟩
    cases category <;> rfl

end Coalesce.KexRefusals
