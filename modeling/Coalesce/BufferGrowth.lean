import Coalesce.BufferRun
import Coalesce.Library.CallCost

/-! How often a buffer asks for memory and how much it holds, over whole runs. Every request
that is granted to a writer at least doubles the block, so there are few of them; the others
are those that fail and the strings that readers copy. -/

namespace Coalesce.BufferGrowth
open Library.CallResult Library.CallCost Library.Lockstep Buffer BufferBytes BufferReaders BufferWriters BufferRun

/-- Requests to the allocator: all but so many of them have doubled the block, at least. -/
def doubling : Meter (Heap × Nat) Nat where
  Within extra s t := ∃ moves count, t.1 = s.1.drop count ∧ count ≤ moves + extra ∧ s.2 * 2 ^ moves ≤ t.2
  still extra s := ⟨0, 0, rfl, Nat.zero_le _, by rw [Nat.pow_zero, Nat.mul_one]⟩
  join := by
    rintro m n s t u ⟨moves, count, asked, few, doubled⟩ ⟨moves', count', asked', few', doubled'⟩
    refine ⟨moves + moves', count + count', ?_, by omega, ?_⟩
    · rw [asked', asked, List.drop_drop]
    · calc
        s.2 * 2 ^ (moves + moves') = s.2 * 2 ^ moves * 2 ^ moves' := by rw [Nat.pow_add, Nat.mul_assoc]
        _ ≤ t.2 * 2 ^ moves' := Nat.mul_le_mul_right _ doubled
        _ ≤ u.2 := doubled'
  more := fun ⟨moves, count, asked, few, doubled⟩ enough => ⟨moves, count, asked, few.trans (Nat.add_le_add_left enough moves), doubled⟩

/-- Requests beside a block that stays as it is. -/
def copying : Meter (Heap × Nat) Nat where
  Within extra s t := (drops Bool).Within extra s.1 t.1 ∧ t.2 = s.2
  still extra s := ⟨(drops Bool).still extra s.1, rfl⟩
  join before behind := ⟨(drops Bool).join before.1 behind.1, behind.2.trans before.2⟩
  more within enough := ⟨(drops Bool).more within.1 enough, within.2⟩

theorem doubling_of_copying {extra : Nat} {s t : Heap × Nat} (within : copying.Within extra s t) : doubling.Within extra s t := by
  obtain ⟨⟨count, few, asked⟩, same⟩ := within
  exact ⟨0, count, asked, few.trans (Nat.le_add_left _ _), by rw [Nat.pow_zero, Nat.mul_one, same]⟩

def account (s : BufState) : Heap × Nat := (s.heap, s.buf.cap)

def growth : Meter BufState Nat := doubling.on account

def reading : Meter BufState Nat := copying.on account

/-- A call whose requests have all doubled the block, but for the last one if it fails. -/
def Pays {α : Type} (s : BufState) : EStateM.Result Exit BufState α → Prop
  | .ok _ t => growth.Within 0 s t
  | .error _ t => growth.Within 1 s t

theorem pays_bind {α β : Type} {call : BufCall α} {next : α → BufCall β} {s : BufState} (first : Pays s (call s))
    (rest : ∀ value t, call s = .ok value t → Pays t (next value t)) : Pays s ((call >>= next) s) := by
  rw [bind_apply]
  cases ended : call s with
  | error exit t =>
    rw [ended] at first
    exact first
  | ok value t =>
    rw [ended] at first
    have behind := rest value t ended
    change Pays s (next value t)
    cases last : next value t with
    | ok value' u =>
      rw [last] at behind
      exact growth.join first behind
    | error exit u =>
      rw [last] at behind
      exact growth.join first behind

/-! Writers. -/

/-- The doubling loop only goes up, as long as nothing wraps. -/
theorem doubleCap_le {need newCap fuel cap : Nat} (room : need < 2 ^ 63) (exit : doubleCap need fuel newCap = some cap) :
    newCap ≤ cap := by
  induction fuel generalizing newCap with
  | zero =>
    rw [doubleCap] at exit
    split at exit
    · cases exit
    · exact Nat.le_of_eq (Option.some.inj exit)
  | succ fuel ih =>
    rw [doubleCap] at exit
    split at exit
    · next short =>
      have doubled : newCap * 2 % SIZE_MAX_SUCC = newCap * 2 := Nat.mod_eq_of_lt (by unfold SIZE_MAX_SUCC; omega)
      rw [doubled] at exit
      have further := ih exit
      omega
    · exact Nat.le_of_eq (Option.some.inj exit)

theorem firstCap_doubles {cap : Nat} (small : cap < 2 ^ 63) : cap * 2 ≤ firstCap cap := by
  unfold firstCap SIZE_MAX_SUCC
  split <;> omega

theorem bufReserve_pays {s : BufState} {n : Nat} (room : s.buf.len + n < 2 ^ 63) : Pays s (bufReserve n s) := by
  have need : (s.buf.len + n) % SIZE_MAX_SUCC = s.buf.len + n := Nat.mod_eq_of_lt (by unfold SIZE_MAX_SUCC; omega)
  rw [bufReserve_apply, need]
  by_cases present : s.buf.len + n ≤ s.buf.cap
  · rw [if_pos present]
    exact growth.still 0 s
  · rw [if_neg present]
    cases loop : doubleCap (s.buf.len + n) 64 (firstCap s.buf.cap) with
    | none => exact growth.still 1 s
    | some cap =>
      have doubled := (firstCap_doubles (by omega)).trans (doubleCap_le room loop)
      by_cases granted : s.heap.alloc.1 = true
      · simp only [if_pos granted]
        exact ⟨1, 1, heap_alloc_drop s.heap, Nat.le_refl 1, by rw [Nat.pow_one]; exact doubled⟩
      · simp only [if_neg granted]
        exact ⟨0, 1, heap_alloc_drop s.heap, Nat.le_refl 1, by rw [Nat.pow_zero, Nat.mul_one]; exact Nat.le_refl _⟩

theorem putAll_pays {chunks : List (List UInt8)} {s : BufState} (below : RequestsBelow chunks s) : Pays s (putAll chunks s) := by
  induction chunks generalizing s with
  | nil => exact growth.still 0 s
  | cons chunk chunks ih =>
    obtain ⟨room, later⟩ := below
    have stored : Pays s (putBytes chunk s) := pays_bind (bufReserve_pays room) fun _ t _ => growth.still 0 t
    exact pays_bind stored fun _ t written => ih (later t written)

theorem writes_pays {op : Op} {s : BufState} (below : RequestsBelow (chunks op) s) : Pays s (writes op s) := by
  refine pays_bind (putAll_pays below) fun _ t _ => ?_
  cases refuses op with
  | true => exact growth.still 1 t
  | false => exact growth.still 0 t

/-! Readers. -/

theorem alloc_reads : Costs reading 1 alloc := by
  intro s
  rw [alloc_apply]
  by_cases granted : s.heap.alloc.1 = true
  · rw [if_pos granted]
    exact ⟨⟨1, Nat.le_refl 1, heap_alloc_drop s.heap⟩, rfl⟩
  · rw [if_neg granted]
    exact ⟨⟨1, Nat.le_refl 1, heap_alloc_drop s.heap⟩, rfl⟩

theorem advance_reads (count : Nat) : Costs reading 0 (advance count) := costs_unseen fun _ => rfl

/-- A check that what is wanted is there, and a step over it. -/
theorem guarded_reads {α : Type} (wanted count : Nat) (value : BufState → α) :
    Costs reading 0 (do let s ← get; failIf (decide (bufReadable s.buf < wanted)); advance count; pure (value s)) :=
  Costs.read fun s => Costs.after (costs_failIf reading 0 (decide (bufReadable s.buf < wanted))) fun _ =>
    Costs.after (advance_reads count) fun _ => costs_pure reading 0 (value s)

theorem bufGetU8_reads : Costs reading 0 bufGetU8 := guarded_reads 1 1 _

theorem bufGetU32_reads : Costs reading 0 bufGetU32 := guarded_reads 4 4 _

theorem bufGetU64_reads : Costs reading 0 bufGetU64 := guarded_reads 8 8 _

theorem bufGetRaw_reads (n : Nat) : Costs reading 0 (bufGetRaw n) := guarded_reads n n _

/-- A string is copied into a block of its own. -/
theorem bufGetString_reads : Costs reading 1 bufGetString := by
  refine Costs.after bufGetU32_reads fun len => Costs.read fun s => Costs.after (costs_failIf reading 0 _) fun _ =>
    alloc_reads.before fun _ => ?_
  simp only
  exact Costs.branch (fun _ => Costs.after (advance_reads len.toNat) fun _ => costs_pure reading 0 _) fun _ =>
    costs_pure reading 0 _

theorem bufGetCstring_reads : Costs reading 1 bufGetCstring := by
  intro s
  have copied := bufGetString_reads s
  rw [bufGetCstring]
  cases ended : bufGetString s with
  | ok str t =>
    rw [ended] at copied
    exact copied
  | error exit t =>
    rw [ended] at copied
    cases exit <;> exact copied

theorem bufConsume_reads (n : Nat) : Costs reading 0 (bufConsume n) := by
  intro s
  rw [bufConsume, bind_of_ok (get_apply s)]
  cases decide ((s.buf.rpos + n) % SIZE_MAX_SUCC > s.buf.len) with
  | true => exact reading.still 0 s
  | false => exact reading.still 0 s

/-! One operation. -/

/-- The readers that copy a string. -/
def copies : Op → Bool
  | .getString | .getCstring | .getMpint => true
  | _ => false

def fails (op : Op) (s : BufState) : Bool :=
  match exec op s with
  | .ok _ _ => false
  | .error _ _ => true

/-- What an operation may ask for besides. -/
def extra (op : Op) (s : BufState) : Nat := if copies op || fails op s then 1 else 0

theorem Pays.step {op : Op} {s : BufState} (pays : Pays s (exec op s)) : growth.Within (extra op s) s (step s op) := by
  unfold extra BufferRun.step fails
  cases ended : exec op s with
  | ok value t =>
    rw [ended] at pays
    exact growth.more pays (Nat.zero_le _)
  | error exit t =>
    rw [ended] at pays
    rw [Bool.or_true, if_pos rfl]
    exact pays

theorem exec_reads {op : Op} (reads : writer op = false) (other : ∀ additional, op ≠ .reserve additional) :
    Costs reading (if copies op then 1 else 0) (exec op) := by
  cases op with
  | reset =>
    have cleared : Costs reading 0 (modify fun s => { s with buf := bufReset s.buf } : BufCall PUnit) := costs_unseen fun _ => rfl
    exact cleared.before fun _ => costs_pure reading 0 _
  | reserve additional => exact absurd rfl (other additional)
  | consume n => exact (bufConsume_reads n).before fun _ => costs_pure reading 0 _
  | getU8 => exact bufGetU8_reads.before fun _ => costs_pure reading 0 _
  | getU32 => exact bufGetU32_reads.before fun _ => costs_pure reading 0 _
  | getU64 => exact bufGetU64_reads.before fun _ => costs_pure reading 0 _
  | getBool => exact (bufGetU8_reads.before fun _ => costs_pure reading 0 _).before fun _ => costs_pure reading 0 _
  | getRaw n => exact (bufGetRaw_reads n).before fun _ => costs_pure reading 0 _
  | getString => exact bufGetString_reads.before fun _ => costs_pure reading 0 _
  | getCstring => exact bufGetCstring_reads.before fun _ => costs_pure reading 0 _
  | getMpint => exact bufGetString_reads.before fun _ => costs_pure reading 0 _
  | _ => cases reads

theorem step_growth {op : Op} {s : BufState} (admissible : Admissible op s) : growth.Within (extra op s) s (step s op) := by
  cases written : writer op with
  | true =>
    refine Pays.step ?_
    rw [exec_writer admissible.arguments.sources written]
    exact writes_pays admissible.requests
  | false =>
    by_cases reserving : ∃ additional, op = .reserve additional
    · obtain ⟨additional, rfl⟩ := reserving
      exact Pays.step (pays_bind (bufReserve_pays (admissible.reserve additional rfl)) fun _ t _ => growth.still 0 t)
    · have other : ∀ additional, op ≠ .reserve additional := fun additional same => reserving ⟨additional, same⟩
      refine growth.more (doubling_of_copying (exec_reads written other s)) ?_
      unfold extra
      cases copies op
      · exact Nat.zero_le _
      · exact Nat.le_refl 1

/-- The length that an operation makes room for: the one that it reaches, or asks for. -/
def demanded (op : Op) (s : BufState) : Nat :=
  match op with
  | .reserve additional => s.buf.len + additional
  | _ => (step s op).buf.len

theorem demanded_of_ne {op : Op} (other : ∀ additional, op ≠ .reserve additional) (s : BufState) :
    demanded op s = (step s op).buf.len := by
  cases op with
  | reserve additional => exact absurd rfl (other additional)
  | _ => rfl

theorem writes_extends {op : Op} {s : BufState} (sound : Sound s.buf) (below : RequestsBelow (chunks op) s) :
    ∃ written, Extended s (stateOf (writes op s)) written := by
  unfold writes
  rcases putAll_cases sound below with ⟨t, finished, extended, -⟩ | ⟨-, t, written, stopped, extended, -⟩
  · rw [bind_of_ok finished]
    cases refuses op <;> exact ⟨_, extended⟩
  · rw [bind_of_error stopped]
    exact ⟨written, extended⟩

/-- No operation makes the block larger than twice what it makes room for. -/
theorem step_cap {op : Op} {s : BufState} (good : Good s.buf) (admissible : Admissible op s) :
    (step s op).buf.cap ≤ max s.buf.cap (max BUF_MIN_CAP (2 * demanded op s)) := by
  by_cases reserving : ∃ additional, op = .reserve additional
  · obtain ⟨additional, rfl⟩ := reserving
    unfold BufferRun.step
    rw [exec]
    rcases bufReserve_cases good.sound (admissible.reserve additional rfl) with ⟨t, returned, reserved⟩ | ⟨-, refused⟩
    · rw [bind_of_ok returned]
      exact reserved.bound
    · rw [bind_of_error refused]
      exact Nat.le_max_left _ _
  · have other : ∀ additional, op ≠ .reserve additional := fun additional same => reserving ⟨additional, same⟩
    rw [demanded_of_ne other]
    cases written : writer op with
    | true =>
      unfold BufferRun.step
      rw [exec_writer admissible.arguments.sources written]
      obtain ⟨bytes, extended⟩ := writes_extends good.sound admissible.requests
      rw [extended.len]
      exact extended.bound
    | false =>
      have same : (step s op).buf.cap = s.buf.cap := (exec_reads written other s).2
      rw [same]
      exact Nat.le_max_left _ _

/-! Whole runs. -/

/-- What the first operations of a run may ask for besides. -/
def extras (start : BufState) (ops : List Op) : Nat → Nat
  | 0 => 0
  | k + 1 => extras start ops k + (ops[k]?.elim 0 fun op => extra op (stateAt step start ops k))

theorem bufInit_cap {initialCap : Nat} {before start : BufState} (started : bufInit initialCap before = .ok () start) :
    start.buf.cap = max initialCap BUF_MIN_CAP := by
  obtain ⟨-, mid, -, rest⟩ := bind_eq_ok.mp started
  obtain ⟨-, mid', -, last⟩ := bind_eq_ok.mp rest
  cases last
  change (if initialCap < 64 then 64 else initialCap) = max initialCap 64
  split <;> omega

/-- Whole runs from `buf_init`, with any answers of the allocator. The block never gets larger
than it was at first or than twice the largest length that was asked for; and of the requests
to the allocator all but one for each call that fails or copies a string have at least doubled
it, so that their number is logarithmic in its size. -/
theorem growth_bounded (initialCap : Nat) (before start : BufState) (size : initialCap < 2 ^ 63)
    (started : bufInit initialCap before = .ok () start) (ops : List Op)
    (admissible : ∀ k op, ops[k]? = some op → Admissible op (stateAt step start ops k)) (most : Nat)
    (limit : ∀ k op, ops[k]? = some op → demanded op (stateAt step start ops k) ≤ most) (k : Nat) (within : k ≤ ops.length) :
    (stateAt step start ops k).buf.cap ≤ max (max initialCap BUF_MIN_CAP) (2 * most) ∧
      ∃ moves count, (stateAt step start ops k).heap = start.heap.drop count ∧ count ≤ moves + extras start ops k ∧
        max initialCap BUF_MIN_CAP * 2 ^ moves ≤ (stateAt step start ops k).buf.cap := by
  have good := bufInit_good size started
  have first := bufInit_cap started
  rw [← first]
  induction k with
  | zero => exact ⟨Nat.le_max_left _ _, growth.still 0 start⟩
  | succ k ih =>
    have present : ops[k]? = some ops[k] := List.getElem?_eq_getElem within
    obtain ⟨bound, grown⟩ := ih (by omega)
    have here := good_at good admissible (Nat.le_of_lt within)
    have capacity := step_cap here (admissible k _ present)
    have room := limit k _ present
    rw [stateAt_succ step present, extras, present, Option.elim_some]
    refine ⟨?_, growth.join grown (step_growth (admissible k _ present))⟩
    unfold BUF_MIN_CAP at first capacity
    omega

/-- A byte, and a reservation that moves the block to twice its size. -/
theorem growth_bounded_one_move :
    let start : BufState := stateOf (bufInit 0 ⟨[true, true], { data := [], rpos := 0, len := 0, cap := 0 }⟩)
    let ops : List Op := [.putU8 7, .reserve 100, .getU8]
    (stateAt step start ops 3).buf.cap = 128 ∧ (stateAt step start ops 3).buf.cap ≤ max (max 0 BUF_MIN_CAP) (2 * 101) ∧
      ∃ moves count, (stateAt step start ops 3).heap = start.heap.drop count ∧ count ≤ moves + extras start ops 3 ∧
        max 0 BUF_MIN_CAP * 2 ^ moves ≤ (stateAt step start ops 3).buf.cap := by
  refine ⟨by decide, ?_⟩
  refine growth_bounded 0 ⟨[true, true], { data := [], rpos := 0, len := 0, cap := 0 }⟩ _ (by decide) rfl _
    (fun k op present => ?_) 101 (fun k op present => ?_) 3 (by decide)
  · match k, present with
    | 0, present =>
      cases present
      exact ⟨trivial, ⟨by decide, fun _ _ => trivial⟩, fun _ other => nomatch other⟩
    | 1, present =>
      cases present
      exact ⟨(by decide : 100 < 2 ^ 63), trivial, fun additional same => by cases same; decide⟩
    | 2, present =>
      cases present
      exact ⟨trivial, trivial, fun _ other => nomatch other⟩
  · match k, present with
    | 0, present =>
      cases present
      decide
    | 1, present =>
      cases present
      decide
    | 2, present =>
      cases present
      decide

end Coalesce.BufferGrowth
