import Coalesce.BufferLimits
import Coalesce.BufferRun

/-! What a failed writer leaves of a buffer. A writer that reserves once leaves it as it
was. One that puts its parts one after the other may fail between them, and what it has
put by then stays. -/

namespace Coalesce.FailedWrites
open Library.CallResult Buffer BufferBytes BufferReaders BufferWriters BufferRun BufferLimits

/-! The writers, going by sizes alone. -/

/-- The sizes of a buffer, and the answers that wait for its reallocations. -/
structure Space where
  len : Nat
  cap : Nat
  heap : Heap
  deriving DecidableEq, Repr

def spaceOf (s : BufState) : Space := ⟨s.buf.len, s.buf.cap, s.heap⟩

inductive Answer where
  | granted (left : Space)
  | refused
  | stuck
  deriving DecidableEq, Repr

/-- What a request for `n` bytes behind the contents comes to. -/
def Space.put (space : Space) (n : Nat) : Answer :=
  let need := (space.len + n) % SIZE_MAX_SUCC
  if need ≤ space.cap then .granted { space with len := need }
  else
    match doubleCap need 64 (firstCap space.cap) with
    | none => .stuck
    | some newCap => if space.heap.alloc.1 then .granted ⟨need, newCap, space.heap.alloc.2⟩ else .refused

/-- The requests come to one that the allocator refuses. -/
def RefusedIn : List Nat → Space → Prop
  | [], _ => False
  | n :: sizes, space =>
    match space.put n with
    | .granted left => RefusedIn sizes left
    | .refused => True
    | .stuck => False

theorem bufReserve_answer (s : BufState) (n : Nat) :
    (∃ mid, bufReserve n s = .ok () mid ∧ mid.buf.len = s.buf.len ∧
        (spaceOf s).put n = .granted ⟨(s.buf.len + n) % SIZE_MAX_SUCC, mid.buf.cap, mid.heap⟩) ∨
      ((spaceOf s).put n = .refused ∧ ∃ t, bufReserve n s = .error .fail t) ∨
      ((spaceOf s).put n = .stuck ∧ bufReserve n s = .error .hang s) := by
  rw [bufReserve_apply]
  unfold Space.put spaceOf
  dsimp only
  by_cases present : (s.buf.len + n) % SIZE_MAX_SUCC ≤ s.buf.cap
  · rw [if_pos present, if_pos present]
    exact Or.inl ⟨s, rfl, rfl, rfl⟩
  · rw [if_neg present, if_neg present]
    cases doubleCap ((s.buf.len + n) % SIZE_MAX_SUCC) 64 (firstCap s.buf.cap) with
    | none => exact Or.inr (Or.inr ⟨rfl, rfl⟩)
    | some newCap =>
      by_cases granted : s.heap.alloc.1 = true
      · exact Or.inl ⟨_, if_pos granted, rfl, if_pos granted⟩
      · exact Or.inr (Or.inl ⟨if_neg granted, _, if_neg granted⟩)

theorem putBytes_answer (bytes : List UInt8) (s : BufState) :
    (∃ t, (spaceOf s).put bytes.length = .granted (spaceOf t) ∧ putBytes bytes s = .ok () t ∧
        t.buf.len = (s.buf.len + bytes.length) % SIZE_MAX_SUCC) ∨
      ((spaceOf s).put bytes.length = .refused ∧ ∃ t, putBytes bytes s = .error .fail t ∧ t.buf = s.buf) ∨
      ((spaceOf s).put bytes.length = .stuck ∧ putBytes bytes s = .error .hang s) := by
  rcases bufReserve_answer s bytes.length with ⟨mid, returned, len, answer⟩ | ⟨answer, t, refused⟩ | ⟨answer, stuck⟩
  · apply Or.inl
    refine ⟨{ mid with buf := { mid.buf with
      data := blit mid.buf.data s.buf.len bytes, len := (s.buf.len + bytes.length) % SIZE_MAX_SUCC } }, answer, ?_, rfl⟩
    rw [putBytes, bind_of_ok returned, store, modify_apply, len]
  · exact Or.inr (Or.inl ⟨answer, t, bind_of_error refused, bufReserve_error refused⟩)
  · exact Or.inr (Or.inr ⟨answer, bind_of_error stuck⟩)

/-- The sizes know where a run of chunks is refused. -/
theorem putAll_refused (chunks : List (List UInt8)) (s : BufState) :
    RefusedIn (chunks.map List.length) (spaceOf s) ↔ ∃ t, putAll chunks s = .error .fail t := by
  induction chunks generalizing s with
  | nil =>
    constructor
    · exact False.elim
    · rintro ⟨t, stopped⟩
      cases stopped
  | cons chunk chunks ih =>
    rw [List.map_cons, RefusedIn, putAll]
    rcases putBytes_answer chunk s with ⟨mid, answer, written, -⟩ | ⟨answer, t, refused, -⟩ | ⟨answer, stuck⟩
    · rw [answer, bind_of_ok written]
      exact ih mid
    · rw [answer, bind_of_error refused]
      exact iff_of_true trivial ⟨t, rfl⟩
    · rw [answer, bind_of_error stuck]
      constructor
      · exact False.elim
      · rintro ⟨t, stopped⟩
        injection stopped with exit
        cases exit

/-- A run that stops has put the chunks in front of one of its chunks. -/
theorem putAll_stopped {chunks : List (List UInt8)} {s t : BufState} {exit : Exit} (word : s.buf.len < SIZE_MAX_SUCC)
    (stopped : putAll chunks s = .error exit t) :
    ∃ i < chunks.length, t.buf.len = (s.buf.len + (chunks.take i).flatten.length) % SIZE_MAX_SUCC := by
  induction chunks generalizing s with
  | nil => cases stopped
  | cons chunk chunks ih =>
    rw [putAll] at stopped
    rcases putBytes_answer chunk s with ⟨mid, -, written, len⟩ | ⟨-, u, refused, same⟩ | ⟨-, stuck⟩
    · rw [bind_of_ok written] at stopped
      obtain ⟨i, inside, reached⟩ := ih (by rw [len]; exact Nat.mod_lt _ (by decide)) stopped
      refine ⟨i + 1, Nat.succ_lt_succ inside, ?_⟩
      rw [reached, len, Nat.mod_add_mod, List.take_succ_cons, List.flatten_cons, List.length_append, Nat.add_assoc]
    · rw [bind_of_error refused] at stopped
      injection stopped with _ state
      exact ⟨0, Nat.succ_pos _, by rw [← state, same]; exact (Nat.mod_eq_of_lt word).symm⟩
    · rw [bind_of_error stuck] at stopped
      injection stopped with _ state
      exact ⟨0, Nat.succ_pos _, by rw [← state]; exact (Nat.mod_eq_of_lt word).symm⟩

/-- The first chunk is not empty, and the chunks in front of the last are five bytes at most. -/
structure ShortStart (op : Op) (first : List UInt8) (rest : List (List UInt8)) : Prop where
  positive : 0 < first.length
  short : ∀ i < rest.length, first.length + (rest.take i).flatten.length ≤ 5
  alone : refuses op = true → rest = [] ∧ first.length ≤ 5

theorem shortStart_single {op : Op} {first chunk : List UInt8} {rest : List (List UInt8)} (kept : refuses op = false)
    (size : 0 < chunk.length) (split : [chunk] = first :: rest) : ShortStart op first rest := by
  obtain ⟨rfl, rfl⟩ := List.cons.inj split
  refine ⟨size, by simp, fun refused => ?_⟩
  rw [kept] at refused
  contradiction

theorem rawChunks_length (src : Option (List UInt8)) (n : Nat) : (rawChunks src n).length ≤ 1 := by
  unfold rawChunks
  split
  · exact Nat.zero_le _
  · split <;> simp

theorem shortStart_string {op : Op} {str : Option (List UInt8)} {len : Nat} {first : List UInt8}
    {rest : List (List UInt8)} (null : refuses op = true → str = none) (split : stringChunks str len = first :: rest) :
    ShortStart op first rest := by
  obtain ⟨rfl, rfl⟩ := List.cons.inj split
  refine ⟨by simp, ?_, ?_⟩
  · intro i inside
    have start : i = 0 := by
      have few := rawChunks_length str len
      omega
    simp [start]
  · intro refused
    rw [null refused]
    exact ⟨rfl, by simp⟩

theorem signPad_flatten_length (magnitude : List UInt8) : (signPad magnitude).flatten.length ≤ 1 := by
  unfold signPad
  split <;> simp

theorem shortStart_mpint {op : Op} {bignum : Option (List UInt8)} {len : Nat} {first : List UInt8}
    {rest : List (List UInt8)} (kept : refuses op = false) (split : mpintChunks bignum len = first :: rest) :
    ShortStart op first rest := by
  unfold mpintChunks at split
  by_cases zero : significant bignum len = []
  · rw [if_pos zero] at split
    exact shortStart_single kept (by simp) split
  · rw [if_neg zero] at split
    obtain ⟨rfl, rfl⟩ := List.cons.inj split
    refine ⟨by simp, ?_, fun refused => ?_⟩
    · intro i inside
      rw [List.length_append, List.length_singleton] at inside
      have pad := signPad_flatten_length (significant bignum len)
      have part : (((signPad (significant bignum len)) ++ [significant bignum len]).take i).flatten.length ≤
          (signPad (significant bignum len)).flatten.length := by
        rw [List.take_append_of_le_length (by omega)]
        have initial := List.take_prefix i (signPad (significant bignum len))
        exact initial.flatten.length_le
      rw [be32_length]
      omega
    · rw [kept] at refused
      contradiction

theorem shortStart {op : Op} {first : List UInt8} {rest : List (List UInt8)} (sources : Sources op)
    (split : chunks op = first :: rest) : ShortStart op first rest := by
  cases op with
  | putU8 val => exact shortStart_single rfl (by simp) split
  | putU32 val => exact shortStart_single rfl (by simp) split
  | putU64 val => exact shortStart_single rfl (by simp) split
  | putBool val => exact shortStart_single rfl (by simp) split
  | putRaw src n =>
    rw [chunks] at split
    cases src with
    | none => cases split
    | some src =>
      by_cases empty : n = 0
      · rw [rawChunks, if_pos empty] at split
        cases split
      · have present : n ≤ src.length := sources src rfl
        rw [rawChunks, if_neg empty] at split
        exact shortStart_single rfl (by rw [List.length_take]; omega) split
  | putString str len =>
    refine shortStart_string (fun refused => ?_) split
    have null : str.isNone = true := (Bool.and_eq_true_iff.mp refused).1
    exact Option.isNone_iff_eq_none.mp null
  | putCstring str => exact shortStart_string (fun refused => by cases refused) split
  | putMpint bignum len => exact shortStart_mpint rfl split
  | _ => cases split

/-! A failed write. -/

/-- If the writer fails, the contents and both positions are as before. -/
def AppendsNothing (op : Op) (s : BufState) : Prop :=
  ∀ t, exec op s = .error .fail t →
    t.buf.len = s.buf.len ∧ t.buf.rpos = s.buf.rpos ∧ contents t.buf = contents s.buf

/-- There is room for the first part, or the allocator makes it, and then it refuses room for
a later part, or the source of the body is NULL. -/
def Torn (op : Op) (s : BufState) : Prop :=
  ∃ first rest space, (chunks op).map List.length = first :: rest ∧ (spaceOf s).put first = .granted space ∧
    (RefusedIn rest space ∨ refuses op = true)

theorem appendsNothing_of_whole {op : Op} {s : BufState} (written : exec op = writes op) (whole : ¬Torn op s) :
    AppendsNothing op s := by
  intro t failed
  rw [written, writes] at failed
  cases split : chunks op with
  | nil =>
    rw [split, putAll, bind_of_ok (pure_apply _ _)] at failed
    cases refused : refuses op with
    | true =>
      rw [refused, bind_of_error (failIf_true s)] at failed
      injection failed with _ state
      rw [← state]
      exact ⟨rfl, rfl, rfl⟩
    | false =>
      rw [refused, bind_of_ok (failIf_false s)] at failed
      contradiction
  | cons first rest =>
    have torn {space : Space} (answer : (spaceOf s).put first.length = .granted space)
        (later : RefusedIn (rest.map List.length) space ∨ refuses op = true) : Torn op s :=
      ⟨first.length, rest.map List.length, space, by rw [split, List.map_cons], answer, later⟩
    rw [split, putAll, bind_assoc] at failed
    rcases putBytes_answer first s with ⟨mid, answer, put, -⟩ | ⟨-, u, refused, same⟩ | ⟨-, stuck⟩
    · rw [bind_of_ok put] at failed
      cases later : putAll rest mid with
      | ok value u =>
        rw [bind_of_ok later] at failed
        cases refused : refuses op with
        | true => exact absurd (torn answer (Or.inr refused)) whole
        | false =>
          rw [refused, bind_of_ok (failIf_false u)] at failed
          contradiction
      | error exit u =>
        rw [bind_of_error later] at failed
        injection failed with same _
        rw [same] at later
        exact absurd (torn answer (Or.inl ((putAll_refused rest mid).mpr ⟨u, later⟩))) whole
    · rw [bind_of_error refused] at failed
      injection failed with _ state
      rw [← state, same]
      exact ⟨rfl, rfl, rfl⟩
    · rw [bind_of_error stuck] at failed
      injection failed with exit
      contradiction

theorem not_appendsNothing_of_torn {op : Op} {s : BufState} (sources : Sources op) (written : exec op = writes op)
    (torn : Torn op s) : ¬AppendsNothing op s := by
  intro kept
  obtain ⟨size, sizes, space, lengths, answer, later⟩ := torn
  cases split : chunks op with
  | nil =>
    rw [split] at lengths
    cases lengths
  | cons first rest =>
    have start := shortStart sources split
    have positive := start.positive
    rw [split, List.map_cons] at lengths
    obtain ⟨rfl, rfl⟩ := List.cons.inj lengths
    rcases putBytes_answer first s with ⟨mid, answer', put, len⟩ | ⟨answer', -⟩ | ⟨answer', -⟩
    · rw [answer] at answer'
      injection answer' with same
      have moved {t : BufState} {more : Nat} (few : first.length + more ≤ 5)
          (failed : exec op s = .error .fail t) (reached : t.buf.len = (mid.buf.len + more) % SIZE_MAX_SUCC) : False := by
        have stays := (kept t failed).1
        rw [stays, len, Nat.mod_add_mod] at reached
        unfold SIZE_MAX_SUCC at reached
        omega
      have run : exec op s = (putAll rest >>= fun _ => failIf (refuses op) >>= fun _ => pure Output.status) mid := by
        rw [written, writes, split, putAll, bind_assoc, bind_of_ok put]
      rcases later with refused | null
      · rw [same] at refused
        obtain ⟨t, stopped⟩ := (putAll_refused rest mid).mp refused
        obtain ⟨i, inside, reached⟩ := putAll_stopped (by rw [len]; exact Nat.mod_lt _ (by decide)) stopped
        exact moved (start.short i inside) (run.trans (bind_of_error stopped)) reached
      · obtain ⟨nothing, few⟩ := start.alone null
        rw [nothing, null] at run
        exact moved few run (by rw [Nat.add_zero, len, Nat.mod_mod])
    · rw [answer] at answer'
      contradiction
    · rw [answer] at answer'
      contradiction

/-- A failed write appends nothing, unless it is torn between its parts. -/
theorem failed_write_appends_nothing_iff (op : Op) (s : BufState) (written : writer op = true) (sources : Sources op) :
    AppendsNothing op s ↔ ¬Torn op s := by
  have chunked := exec_writer sources written
  constructor
  · intro kept torn
    exact not_appendsNothing_of_torn sources chunked torn kept
  · exact appendsNothing_of_whole chunked

/-- There is room for the length of a string, and no memory for the string. -/
theorem failed_write_appends_nothing_refused_body :
    let s : BufState := ⟨[false], { data := List.replicate 64 0, rpos := 0, len := 60, cap := 64 }⟩
    AppendsNothing (.putString (some [1, 2, 3]) 3) s ↔ ¬Torn (.putString (some [1, 2, 3]) 3) s :=
  failed_write_appends_nothing_iff (.putString (some [1, 2, 3]) 3)
    ⟨[false], { data := List.replicate 64 0, rpos := 0, len := 60, cap := 64 }⟩ rfl (by rintro bytes ⟨⟩; exact Nat.le_refl 3)

/-- Five bytes from NULL: their length stays behind. -/
theorem failed_write_leaves_length :
    ¬∀ op s, writer op = true → Sources op → AppendsNothing op s := by
  intro claimed
  have null : Readable none 5 := fun bytes none => by cases none
  have stays := claimed (.putString none 5) ⟨[], { data := List.replicate 64 0, rpos := 0, len := 0, cap := 64 }⟩ rfl null
    _ rfl
  exact absurd stays.1 (by decide)

end Coalesce.FailedWrites
