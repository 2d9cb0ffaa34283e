import Coalesce.BufferReaders
import Coalesce.BufferWriters
import Coalesce.Library.Lockstep

/-! A buffer over whole runs: any operations, with any answers of the allocator.
Each operation is shown to keep the positions in order, to store within the block and
to move forward over unchanged contents; a run inherits it step by step. -/

namespace Coalesce.BufferRun
open Library.CallResult Library.Lockstep Buffer BufferBytes BufferReaders BufferWriters

/-- The calls of buffer.h on an initialised buffer, with their arguments. -/
inductive Op where
  | reset
  | reserve (additional : Nat)
  | consume (n : Nat)
  | putU8 (val : UInt8)
  | putU32 (val : UInt32)
  | putU64 (val : UInt64)
  | putBool (val : Bool)
  | putRaw (src : Option (List UInt8)) (n : Nat)
  | putString (str : Option (List UInt8)) (len : Nat)
  | putCstring (str : Option (List UInt8))
  | putMpint (bignum : Option (List UInt8)) (len : Nat)
  | getU8
  | getU32
  | getU64
  | getBool
  | getRaw (n : Nat)
  | getString
  | getCstring
  | getMpint
  deriving DecidableEq, Repr

/-- What a call hands out. -/
inductive Output where
  | status
  | u8 (val : UInt8)
  | u32 (val : UInt32)
  | u64 (val : UInt64)
  | bool (val : Bool)
  | bytes (data : List UInt8)
  | pointer (str : Option (List UInt8))
  deriving DecidableEq, Repr

def exec : Op → BufCall Output
  | .reset => do modify fun s => { s with buf := bufReset s.buf }; pure .status
  | .reserve additional => do bufReserve additional; pure .status
  | .consume n => do bufConsume n; pure .status
  | .putU8 val => do bufPutU8 val; pure .status
  | .putU32 val => do bufPutU32 val; pure .status
  | .putU64 val => do bufPutU64 val; pure .status
  | .putBool val => do bufPutBool val; pure .status
  | .putRaw src n => do bufPutRaw src n; pure .status
  | .putString str len => do bufPutString str len; pure .status
  | .putCstring str => do bufPutCstring str; pure .status
  | .putMpint bignum len => do bufPutMpint bignum len; pure .status
  | .getU8 => do pure (.u8 (← bufGetU8))
  | .getU32 => do pure (.u32 (← bufGetU32))
  | .getU64 => do pure (.u64 (← bufGetU64))
  | .getBool => do pure (.bool (← bufGetBool))
  | .getRaw n => do pure (.bytes (← bufGetRaw n))
  | .getString => do pure (.bytes (← bufGetString))
  | .getCstring => do pure (.pointer (← bufGetCstring))
  | .getMpint => do pure (.bytes (← bufGetMpint))

/-- The state behind a call, whether it failed or not. -/
def step (s : BufState) (op : Op) : BufState := stateOf (exec op s)

/-- What a writer stores, in the order of its stores. -/
def chunks : Op → List (List UInt8)
  | .putU8 val => [[val]]
  | .putU32 val => [be32 val]
  | .putU64 val => [be64 val]
  | .putBool val => [[if val then 1 else 0]]
  | .putRaw src n => rawChunks src n
  | .putString str len => stringChunks str len
  | .putCstring str => stringChunks (some (str.getD [])) (cString (str.getD [])).length
  | .putMpint bignum len => mpintChunks bignum len
  | _ => []

/-- A size argument below half of the address space, and a source with that many bytes. -/
def Arguments : Op → Prop
  | .reserve n => n < 2 ^ 63
  | .consume n => n < 2 ^ 63
  | .getRaw n => n < 2 ^ 63
  | .putRaw src n => n < 2 ^ 63 ∧ Readable src n
  | .putString str len => len < 2 ^ 63 ∧ Readable str len
  | .putMpint bignum len => len < 2 ^ 63 ∧ Readable bignum len
  | _ => True

/-- The part of it that is about sources: one that is not NULL has the bytes asked for. -/
def Sources : Op → Prop
  | .putRaw src n => Readable src n
  | .putString str len => Readable str len
  | .putMpint bignum len => Readable bignum len
  | _ => True

theorem Arguments.sources {op : Op} (arguments : Arguments op) : Sources op := by
  cases op with
  | putRaw src n => exact arguments.2
  | putString str len => exact arguments.2
  | putMpint bignum len => exact arguments.2
  | _ => trivial

/-- Sizes that stay below half of the address space, as far as the call gets. -/
structure Admissible (op : Op) (s : BufState) : Prop where
  arguments : Arguments op
  requests : RequestsBelow (chunks op) s
  reserve : ∀ additional, op = .reserve additional → s.buf.len + additional < 2 ^ 63

/-- The invariant: `rpos ≤ len ≤ cap`, a block of `cap` bytes, and sizes in range. -/
structure Good (buf : SshBuf) : Prop where
  sound : Sound buf
  small : buf.len < 2 ^ 63

/-- Forward only: nothing that was within the contents has changed. -/
structure Forward (s t : SshBuf) : Prop where
  len : s.len ≤ t.len
  rpos : s.rpos ≤ t.rpos
  contents : contents s <+: contents t

/-- The bytes below `len` that a call has advanced over. -/
def passed (s t : SshBuf) : List UInt8 := (unread s).take (t.rpos - s.rpos)

/-- A reader's output is the wire form of the bytes it has passed. -/
def ReadFrom : Op → Output → List UInt8 → Prop
  | .getU8, .u8 val, bytes => bytes = [val]
  | .getU32, .u32 val, bytes => bytes = be32 val
  | .getU64, .u64 val, bytes => bytes = be64 val
  | .getBool, .bool val, bytes => ∃ byte, bytes = [byte] ∧ val = decide (byte ≠ 0)
  | .getRaw _, .bytes data, bytes => bytes = data
  | .getString, .bytes data, bytes => bytes = wireString data
  | .getMpint, .bytes data, bytes => bytes = wireString data
  | .getCstring, .pointer str, bytes => ∀ data, str = some data → bytes = wireString data
  | _, .status, _ => True
  | _, _, _ => False

theorem forward_refl (buf : SshBuf) : Forward buf buf := ⟨Nat.le_refl _, Nat.le_refl _, List.prefix_rfl⟩

theorem Forward.trans {s t u : SshBuf} (first : Forward s t) (second : Forward t u) : Forward s u :=
  ⟨first.len.trans second.len, first.rpos.trans second.rpos, first.contents.trans second.contents⟩

/-! How one call ends. -/

/-- A call that comes back, with the invariant kept and nothing lost. -/
inductive Ends (s : BufState) (output : Output → BufState → Prop) : EStateM.Result Exit BufState Output → Prop
  | returned {value : Output} {t : BufState} (good : Good t.buf) (forward : Forward s.buf t.buf) (told : output value t) :
      Ends s output (.ok value t)
  | failed {t : BufState} (good : Good t.buf) (forward : Forward s.buf t.buf) : Ends s output (.error .fail t)

theorem forward_extended {s t : BufState} {bytes : List UInt8} (extended : Extended s t bytes) : Forward s.buf t.buf :=
  ⟨by rw [extended.len]; exact Nat.le_add_right _ _, Nat.le_of_eq extended.rpos.symm, by
    rw [extended.contents]
    exact List.prefix_append _ _⟩

theorem ends_chunks {s : BufState} {all : List (List UInt8)} {refused : Bool} {output : Output → BufState → Prop}
    (good : Good s.buf) (below : RequestsBelow all s) (told : ∀ t, output .status t) :
    Ends s output ((putAll all >>= fun _ => failIf refused >>= fun _ => pure .status) s) := by
  rcases putAll_cases good.sound below with ⟨t, finished, extended, bound⟩ | ⟨-, t, written, stopped, extended, bound⟩
  · rw [bind_of_ok finished]
    cases refused with
    | true => exact .failed ⟨extended.sound, bound good.small⟩ (forward_extended extended)
    | false => exact .returned ⟨extended.sound, bound good.small⟩ (forward_extended extended) (told t)
  · rw [bind_of_error stopped]
    exact .failed ⟨extended.sound, bound good.small⟩ (forward_extended extended)

theorem good_skip {s : BufState} {count : Nat} (good : Good s.buf) (present : count ≤ (unread s.buf).length) :
    Good (skip s count).buf := ⟨sound_skip good.sound present, good.small⟩

theorem forward_skip (s : BufState) (count : Nat) : Forward s.buf (skip s count).buf :=
  ⟨Nat.le_refl _, Nat.le_add_right _ _, List.prefix_rfl⟩

theorem passed_skip (s : BufState) (heap : Heap) (count : Nat) :
    passed s.buf (skip { s with heap := heap } count).buf = (unread s.buf).take count := by
  rw [passed]
  change (unread s.buf).take (s.buf.rpos + count - s.buf.rpos) = _
  rw [Nat.add_sub_cancel_left]

/-- A reader that takes `count` bytes from the front, or fails where it stands. -/
theorem ends_read {s : BufState} (heap : Heap) {count : Nat} {value : Output} {op : Op} (good : Good s.buf)
    (present : count ≤ (unread s.buf).length) (told : ReadFrom op value ((unread s.buf).take count)) :
    Ends s (fun value t => ReadFrom op value (passed s.buf t.buf)) (.ok value (skip { s with heap := heap } count)) := by
  refine .returned (good_skip (s := { s with heap := heap }) good present) (forward_skip { s with heap := heap } count) ?_
  rw [passed_skip]
  exact told

theorem ends_failed {s t : BufState} {output : Output → BufState → Prop} (good : Good s.buf) (buf : t.buf = s.buf) :
    Ends s output (.error .fail t) := by
  refine .failed ?_ ?_
  · rw [buf]
    exact good
  · rw [buf]
    exact forward_refl _

/-- The string at the front of what is unread. -/
theorem passed_string {bytes : List UInt8} (whole : 4 + stringLength bytes ≤ bytes.length) :
    bytes.take (4 + stringLength bytes) = wireString ((bytes.drop 4).take (stringLength bytes)) := by
  have length : ((bytes.drop 4).take (stringLength bytes)).length = stringLength bytes := by
    rw [List.length_take, List.length_drop]
    omega
  have header : be32 (UInt32.ofNat (stringLength bytes)) = bytes.take 4 := be32_ofNat (by rw [List.length_take]; omega)
  rw [wireString, length, header, List.take_add]

theorem ends_string {s : BufState} {op : Op} (good : Good s.buf) (back : List UInt8 → Output)
    (told : ∀ data, ReadFrom op (back data) (wireString data)) :
    Ends s (fun value t => ReadFrom op value (passed s.buf t.buf)) ((bufGetString >>= fun data => pure (back data)) s) := by
  rw [bind_apply, bufGetString_eq good.sound]
  by_cases header : (unread s.buf).length < 4
  · rw [if_pos header]
    exact ends_failed good rfl
  rw [if_neg header]
  by_cases short : (unread s.buf).length < 4 + stringLength (unread s.buf)
  · rw [if_pos short]
    exact .failed (good_skip good (by omega)) (forward_skip s 4)
  rw [if_neg short]
  by_cases granted : s.heap.alloc.1
  · rw [if_pos granted]
    refine ends_read _ good (by omega) ?_
    rw [passed_string (by omega)]
    exact told _
  · rw [if_neg granted]
    exact .failed (good_skip (s := { s with heap := s.heap.alloc.2 }) good (by change 4 ≤ (unread s.buf).length; omega))
      (forward_skip { s with heap := s.heap.alloc.2 } 4)

theorem told_null (bytes : List UInt8) : ReadFrom .getCstring (.pointer none) bytes := by
  intro data absent
  cases absent

theorem ends_cstring {s : BufState} (good : Good s.buf) :
    Ends s (fun value t => ReadFrom .getCstring value (passed s.buf t.buf)) (exec .getCstring s) := by
  rw [exec, bind_apply, bufGetCstring_eq good.sound]
  by_cases header : (unread s.buf).length < 4
  · rw [if_pos header]
    exact .returned good (forward_refl _) (told_null _)
  rw [if_neg header]
  by_cases short : (unread s.buf).length < 4 + stringLength (unread s.buf)
  · rw [if_pos short]
    exact .returned (good_skip good (by omega)) (forward_skip s 4) (told_null _)
  rw [if_neg short]
  by_cases granted : s.heap.alloc.1
  · rw [if_pos granted]
    refine ends_read _ good (by omega) fun data same => ?_
    rw [passed_string (by omega), Option.some.inj same]
  · rw [if_neg granted]
    exact .returned (good_skip (s := { s with heap := s.heap.alloc.2 }) good (by change 4 ≤ (unread s.buf).length; omega))
      (forward_skip { s with heap := s.heap.alloc.2 } 4) (told_null _)

theorem ends_reserve {s : BufState} {additional : Nat} (good : Good s.buf) (room : s.buf.len + additional < 2 ^ 63) :
    Ends s (fun value t => ReadFrom (.reserve additional) value (passed s.buf t.buf)) (exec (.reserve additional) s) := by
  rw [exec]
  rcases bufReserve_cases good.sound room with ⟨t, returned, reserved⟩ | ⟨-, refused⟩
  · rw [bind_of_ok returned]
    refine .returned ⟨reserved.sound, by rw [reserved.len]; exact good.small⟩ ⟨?_, ?_, ?_⟩ trivial
    · exact Nat.le_of_eq reserved.len.symm
    · exact Nat.le_of_eq reserved.rpos.symm
    · rw [reserved.contents]
  · rw [bind_of_error refused]
    exact ends_failed good rfl

theorem ends_consume {s : BufState} {n : Nat} (good : Good s.buf) (argument : n < 2 ^ 63) :
    Ends s (fun value t => ReadFrom (.consume n) value (passed s.buf t.buf)) (exec (.consume n) s) := by
  have read := good.sound.read
  have small := good.small
  have sum : (s.buf.rpos + n) % SIZE_MAX_SUCC = s.buf.rpos + n := Nat.mod_eq_of_lt (by unfold SIZE_MAX_SUCC; omega)
  rw [exec, bufConsume, bind_assoc, bind_of_ok (get_apply s), sum]
  by_cases beyond : s.buf.rpos + n > s.buf.len
  · rw [decide_eq_true beyond]
    exact ends_failed good rfl
  · rw [decide_eq_false beyond]
    have present : n ≤ (unread s.buf).length := by
      rw [good.sound.length_unread]
      omega
    exact ends_read s.heap good present trivial

/-! The writers. -/

def writer : Op → Bool
  | .putU8 _ | .putU32 _ | .putU64 _ | .putBool _ | .putRaw _ _ | .putString _ _ | .putCstring _ | .putMpint _ _ => true
  | _ => false

/-- A length with no source to take it from fails once the rest is written. -/
def refuses : Op → Bool
  | .putRaw src n => src.isNone && n > 0
  | .putString str len => str.isNone && len > 0
  | _ => false

/-- Every writer is a run of its chunks. -/
def writes (op : Op) : BufCall Output := do
  putAll (chunks op)
  failIf (refuses op)
  pure .status

theorem exec_writer {op : Op} (sources : Sources op) (written : writer op = true) : exec op = writes op := by
  cases op with
  | putU8 val =>
    rw [exec, bufPutU8_eq]
    rfl
  | putU32 val =>
    rw [exec, bufPutU32_eq]
    rfl
  | putU64 val =>
    rw [exec, bufPutU64_eq]
    rfl
  | putBool val =>
    rw [exec, bufPutBool, bufPutU8_eq]
    rfl
  | putRaw src n =>
    rw [exec, bufPutRaw_chunks sources, bind_assoc]
    rfl
  | putString str len =>
    rw [exec, bufPutString_chunks sources, bind_assoc]
    rfl
  | putCstring str =>
    rw [exec, bufPutCstring_chunks]
    rfl
  | putMpint bignum len =>
    rw [exec, bufPutMpint_chunks]
    rfl
  | _ => cases written

/-! One step and whole runs. -/

/-- Every call but a reset keeps the invariant and moves forward, however it ends, and it
always comes back. -/
theorem exec_ends {op : Op} {s : BufState} (good : Good s.buf) (admissible : Admissible op s) (kept : op ≠ .reset) :
    Ends s (fun value t => ReadFrom op value (passed s.buf t.buf)) (exec op s) := by
  have below := admissible.requests
  have arguments := admissible.arguments
  cases written : writer op with
  | true =>
    rw [exec_writer arguments.sources written]
    refine ends_chunks good below fun t => ?_
    cases op <;> trivial
  | false =>
    cases op with
    | reset => exact absurd rfl kept
    | reserve additional => exact ends_reserve good (admissible.reserve additional rfl)
    | consume n => exact ends_consume good arguments
    | getU8 =>
      rw [exec, bind_apply, bufGetU8_eq good.sound]
      cases front : unread s.buf with
      | nil => exact ends_failed good rfl
      | cons byte rest => exact ends_read s.heap good (by rw [front]; simp) (by rw [front]; rfl)
    | getU32 =>
      rw [exec, bind_apply, bufGetU32_eq good.sound]
      by_cases present : 4 ≤ (unread s.buf).length
      · rw [if_pos present]
        have four : ((unread s.buf).take 4).length = 4 := by rw [List.length_take, Nat.min_eq_left present]
        exact ends_read s.heap good present (be32_ofNat four).symm
      · rw [if_neg present]
        exact ends_failed good rfl
    | getU64 =>
      rw [exec, bind_apply, bufGetU64_eq good.sound]
      by_cases present : 8 ≤ (unread s.buf).length
      · rw [if_pos present]
        have eight : ((unread s.buf).take 8).length = 8 := by rw [List.length_take, Nat.min_eq_left present]
        exact ends_read s.heap good present (be64_ofNat eight).symm
      · rw [if_neg present]
        exact ends_failed good rfl
    | getBool =>
      rw [exec, bind_apply, bufGetBool_eq good.sound]
      cases front : unread s.buf with
      | nil => exact ends_failed good rfl
      | cons byte rest => exact ends_read s.heap good (by rw [front]; simp) (by rw [front]; exact ⟨byte, rfl, rfl⟩)
    | getRaw n =>
      rw [exec, bind_apply, bufGetRaw_eq good.sound]
      by_cases present : n ≤ (unread s.buf).length
      · rw [if_pos present]
        exact ends_read s.heap good present rfl
      · rw [if_neg present]
        exact ends_failed good rfl
    | getString => exact ends_string good _ fun _ => rfl
    | getCstring => exact ends_cstring good
    | getMpint => exact ends_string good _ fun _ => rfl
    | _ => cases written

theorem Ends.state {s : BufState} {output : Output → BufState → Prop} {result : EStateM.Result Exit BufState Output}
    (ends : Ends s output result) : Good (stateOf result).buf ∧ Forward s.buf (stateOf result).buf := by
  cases ends with
  | returned good forward => exact ⟨good, forward⟩
  | failed good forward => exact ⟨good, forward⟩

theorem step_good {op : Op} {s : BufState} (good : Good s.buf) (admissible : Admissible op s) : Good (step s op).buf := by
  by_cases cleared : op = .reset
  · rw [cleared]
    exact ⟨good.sound.reset, show 0 < 2 ^ 63 by decide⟩
  · exact (exec_ends good admissible cleared).state.1

theorem step_forward {op : Op} {s : BufState} (good : Good s.buf) (admissible : Admissible op s) (kept : op ≠ .reset) :
    Forward s.buf (step s op).buf := (exec_ends good admissible kept).state.2

theorem bufInit_good {initialCap : Nat} {before start : BufState} (size : initialCap < 2 ^ 63)
    (started : bufInit initialCap before = .ok () start) : Good start.buf := by
  obtain ⟨-, mid, -, rest⟩ := bind_eq_ok.mp started
  obtain ⟨-, mid', -, last⟩ := bind_eq_ok.mp rest
  cases last
  refine ⟨⟨List.length_replicate, Nat.zero_le _, Nat.le_refl _, ?_⟩, show 0 < 2 ^ 63 by decide⟩
  change (if initialCap < 64 then 64 else initialCap) < 2 ^ 64
  split <;> omega

section
variable {start : BufState} {ops : List Op}

theorem good_at (good : Good start.buf)
    (admissible : ∀ k op, ops[k]? = some op → Admissible op (stateAt step start ops k)) {k : Nat} (within : k ≤ ops.length) :
    Good (stateAt step start ops k).buf := by
  induction k with
  | zero => exact good
  | succ k ih =>
    have present : ops[k]? = some ops[k] := List.getElem?_eq_getElem within
    rw [stateAt_succ step present]
    exact step_good (ih (by omega)) (admissible k _ present)

theorem forward_between (good : Good start.buf)
    (admissible : ∀ k op, ops[k]? = some op → Admissible op (stateAt step start ops k)) {i j : Nat} (order : i ≤ j)
    (within : j ≤ ops.length) (kept : ∀ k, i ≤ k → k < j → ops[k]? ≠ some .reset) :
    Forward (stateAt step start ops i).buf (stateAt step start ops j).buf := by
  induction j, order using Nat.le_induction with
  | base => exact forward_refl _
  | succ j order ih =>
    have present : ops[j]? = some ops[j] := List.getElem?_eq_getElem within
    have earlier := ih (by omega) fun k low high => kept k low (by omega)
    rw [stateAt_succ step present]
    refine earlier.trans (step_forward (good_at good admissible (by omega)) (admissible j _ present) ?_)
    intro cleared
    exact kept j order (Nat.lt_succ_self j) (by rw [present, cleared])

end

/-- What holds of the call made in a state: it comes back and moves forward, it stores within
the block, and it hands out what it has passed. -/
structure Lawful (op : Op) (s : BufState) : Prop where
  ends : op ≠ .reset → Ends s (fun value t => ReadFrom op value (passed s.buf t.buf)) (exec op s)
  stores : writer op = true → exec op s = writes op s ∧ StoresWithin (chunks op) s

/-- Whole runs from `buf_init`: positions in order at all times, every call lawful, and
contents that only grow between resets. -/
theorem run_invariant (initialCap : Nat) (before start : BufState) (size : initialCap < 2 ^ 63)
    (started : bufInit initialCap before = .ok () start) (ops : List Op)
    (admissible : ∀ k op, ops[k]? = some op → Admissible op (stateAt step start ops k)) :
    (∀ k, k ≤ ops.length → Good (stateAt step start ops k).buf) ∧
      (∀ k op, ops[k]? = some op → Lawful op (stateAt step start ops k)) ∧
      ∀ i j, i ≤ j → j ≤ ops.length → (∀ k, i ≤ k → k < j → ops[k]? ≠ some .reset) →
        Forward (stateAt step start ops i).buf (stateAt step start ops j).buf := by
  have good := bufInit_good size started
  refine ⟨fun k within => good_at good admissible within, fun k op present => ?_, fun i j order within kept =>
    forward_between good admissible order within kept⟩
  have here := good_at good admissible (Nat.le_of_lt (List.getElem?_eq_some_iff.mp present).1)
  have allowed := admissible k op present
  exact ⟨exec_ends here allowed, fun written =>
    ⟨by rw [exec_writer allowed.arguments.sources written], storesWithin here.sound allowed.requests⟩⟩

/-- A byte put and taken again; a second read fails. -/
theorem run_invariant_one_byte :
    let start : BufState := stateOf (bufInit 0 ⟨[], { data := [], rpos := 0, len := 0, cap := 0 }⟩)
    let ops : List Op := [.putU8 7, .getU8, .getU8]
    (∀ k, k ≤ ops.length → Good (stateAt step start ops k).buf) ∧
      (∀ k op, ops[k]? = some op → Lawful op (stateAt step start ops k)) ∧
      ∀ i j, i ≤ j → j ≤ ops.length → (∀ k, i ≤ k → k < j → ops[k]? ≠ some .reset) →
        Forward (stateAt step start ops i).buf (stateAt step start ops j).buf := by
  refine run_invariant 0 ⟨[], { data := [], rpos := 0, len := 0, cap := 0 }⟩ _ (by decide) rfl _ fun k op present => ?_
  match k, present with
  | 0, present =>
    cases present
    exact ⟨trivial, ⟨by decide, fun _ _ => trivial⟩, fun _ other => nomatch other⟩
  | 1, present =>
    cases present
    exact ⟨trivial, trivial, fun _ other => nomatch other⟩
  | 2, present =>
    cases present
    exact ⟨trivial, trivial, fun _ other => nomatch other⟩

end Coalesce.BufferRun
