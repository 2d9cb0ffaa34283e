import Coalesce.BufferReaders
import Coalesce.Kex

/-! What `kex_init_decode` accepts. A string that cannot be read shows only as a
NULL field, and the decoder goes on behind its length word; the exact inputs on
which this matters are worked out here. -/

namespace Coalesce.KexDecode
open Library.CallResult Library.ByteNumber Buffer BufferBytes BufferReaders Kex

/-- The ten name-lists in wire order. -/
def lists (kex : SshKexInit) : List (Option (List UInt8)) :=
  [kex.kexAlgorithms, kex.serverHostKeyAlgorithms, kex.encryptionAlgorithmsClientToServer,
    kex.encryptionAlgorithmsServerToClient, kex.macAlgorithmsClientToServer, kex.macAlgorithmsServerToClient,
    kex.compressionAlgorithmsClientToServer, kex.compressionAlgorithmsServerToClient,
    kex.languagesClientToServer, kex.languagesServerToClient]

/-- A KEXINIT message. -/
structure Message where
  cookie : List UInt8
  strings : List (List UInt8)
  follows : UInt8
  reserved : List UInt8

def Message.wire (m : Message) : List UInt8 :=
  [SSH_MSG_KEXINIT] ++ m.cookie ++ m.strings.flatMap wireString ++ [m.follows] ++ m.reserved

/-- The bytes begin with the message, every string inside of them. -/
structure Begins (bytes : List UInt8) (m : Message) : Prop where
  cookie : m.cookie.length = 16
  count : m.strings.length = 10
  short : ∀ str ∈ m.strings, str.length < 2 ^ 32
  reserved : m.reserved.length = 4
  wire : m.wire <+: bytes

/-- Result of one `buf_get_cstring`: the pointer, the allocator and the bytes used up. -/
structure CstringRead where
  str : Option (List UInt8)
  heap : Heap
  used : Nat

def cstringRead (heap : Heap) (bytes : List UInt8) : CstringRead :=
  if bytes.length < 4 then ⟨none, heap, 0⟩
  else if bytes.length < 4 + stringLength bytes then ⟨none, heap, 4⟩
  else if heap.alloc.1 then ⟨some ((bytes.drop 4).take (stringLength bytes)), heap.alloc.2, 4 + stringLength bytes⟩
  else ⟨none, heap.alloc.2, 4⟩

/-- Several reads in a row, none of which is looked at. -/
structure CstringReads where
  strs : List (Option (List UInt8))
  heap : Heap
  used : Nat

def cstringReads (heap : Heap) (bytes : List UInt8) : Nat → CstringReads
  | 0 => ⟨[], heap, 0⟩
  | count + 1 =>
    let first := cstringRead heap bytes
    let rest := cstringReads first.heap (bytes.drop first.used) count
    ⟨first.str :: rest.strs, rest.heap, first.used + rest.used⟩

theorem bufGetCstring_read {s : BufState} (valid : Valid s.buf) :
    bufGetCstring s = .ok (cstringRead s.heap (unread s.buf)).str
      (skip { s with heap := (cstringRead s.heap (unread s.buf)).heap } (cstringRead s.heap (unread s.buf)).used) := by
  rw [bufGetCstring_eq valid.sound, cstringRead]
  split
  · rfl
  split
  · rfl
  split <;> rfl

theorem cstringRead_used (heap : Heap) (bytes : List UInt8) : (cstringRead heap bytes).used ≤ bytes.length := by
  unfold cstringRead
  split
  · exact Nat.zero_le _
  split
  · exact Nat.le_of_not_lt ‹_›
  split
  · exact Nat.le_of_not_lt ‹_›
  · exact Nat.le_of_not_lt ‹_›

theorem cstringReads_used (heap : Heap) (bytes : List UInt8) (count : Nat) :
    (cstringReads heap bytes count).used ≤ bytes.length := by
  induction count generalizing heap bytes with
  | zero => exact Nat.zero_le _
  | succ count ih =>
    have first := cstringRead_used heap bytes
    have rest := ih (cstringRead heap bytes).heap (bytes.drop (cstringRead heap bytes).used)
    rw [List.length_drop] at rest
    simp only [cstringReads]
    omega

/-! One read after the other. -/

/-- The state after reads that set the fields by `put`. -/
def afterReads (s : DecodeState) (puts : List (Option (List UInt8) → SshKexInit → SshKexInit)) : DecodeState :=
  let reads := cstringReads s.mem.heap (unread s.mem.buf) puts.length
  { mem := skip { s.mem with heap := reads.heap } reads.used
    kex := (List.zip puts reads.strs).foldl (fun kex step => step.1 step.2 kex) s.kex }

theorem onMem_of_ok {α : Type} {call : BufCall α} {s : DecodeState} {t : BufState} {value : α}
    (returned : call s.mem = .ok value t) : onMem call s = .ok value { s with mem := t } := zoom_of_ok returned

theorem onMem_of_error {α : Type} {call : BufCall α} {s : DecodeState} {t : BufState} {exit : Exit}
    (stopped : call s.mem = .error exit t) : onMem call s = .error exit { s with mem := t } := zoom_of_error stopped

theorem readList_then {s : DecodeState} (valid : Valid s.mem.buf) (put : Option (List UInt8) → SshKexInit → SshKexInit)
    (puts : List (Option (List UInt8) → SshKexInit → SshKexInit)) {rest : DecodeCall Unit}
    (later : ∀ t : DecodeState, Valid t.mem.buf → rest t = .ok () (afterReads t puts)) :
    (readList put >>= fun _ => rest) s = .ok () (afterReads s (put :: puts)) := by
  have read := bufGetCstring_read valid
  have used := cstringRead_used s.mem.heap (unread s.mem.buf)
  have once : readList put s = .ok () ⟨skip { s.mem with heap := (cstringRead s.mem.heap (unread s.mem.buf)).heap }
      (cstringRead s.mem.heap (unread s.mem.buf)).used, put (cstringRead s.mem.heap (unread s.mem.buf)).str s.kex⟩ := by
    rw [readList, bind_of_ok (onMem_of_ok read)]
    rfl
  rw [bind_of_ok once, later _ (valid_skip (s := { s.mem with heap := _ }) valid used)]
  simp only [afterReads, List.length_cons, cstringReads, unread_skip, skip_heap]
  simp only [skip, Nat.add_assoc]
  rfl

/-- The setters of `readLists` in order. -/
def setters : List (Option (List UInt8) → SshKexInit → SshKexInit) :=
  [fun str kex => { kex with kexAlgorithms := str },
    fun str kex => { kex with serverHostKeyAlgorithms := str },
    fun str kex => { kex with encryptionAlgorithmsClientToServer := str },
    fun str kex => { kex with encryptionAlgorithmsServerToClient := str },
    fun str kex => { kex with macAlgorithmsClientToServer := str },
    fun str kex => { kex with macAlgorithmsServerToClient := str },
    fun str kex => { kex with compressionAlgorithmsClientToServer := str },
    fun str kex => { kex with compressionAlgorithmsServerToClient := str },
    fun str kex => { kex with languagesClientToServer := str },
    fun str kex => { kex with languagesServerToClient := str }]

theorem cstringReads_length (heap : Heap) (bytes : List UInt8) (count : Nat) :
    (cstringReads heap bytes count).strs.length = count := by
  induction count generalizing heap bytes with
  | zero => rfl
  | succ count ih => simp [cstringReads, ih]

/-- Ten strings set the ten fields. -/
theorem setters_lists (kex : SshKexInit) {strs : List (Option (List UInt8))} (ten : strs.length = 10) :
    lists ((List.zip setters strs).foldl (fun kex step => step.1 step.2 kex) kex) = strs ∧
      ((List.zip setters strs).foldl (fun kex step => step.1 step.2 kex) kex).cookie = kex.cookie := by
  obtain ⟨a, b, c, d, e, f, g, h, i, j, rfl⟩ : ∃ a b c d e f g h i j, strs = [a, b, c, d, e, f, g, h, i, j] := by
    rcases strs with _ | ⟨a, _ | ⟨b, _ | ⟨c, _ | ⟨d, _ | ⟨e, _ | ⟨f, _ | ⟨g, _ | ⟨h, _ | ⟨i, _ | ⟨j, _ | ⟨k, l⟩⟩⟩⟩⟩⟩⟩⟩⟩⟩⟩ <;>
      simp at ten ⊢
  exact ⟨rfl, rfl⟩

def tenReads (heap : Heap) (bytes : List UInt8) : CstringReads := cstringReads heap bytes 10

theorem readLists_ok {s : DecodeState} (valid : Valid s.mem.buf) :
    ∃ t, readLists s = .ok () t ∧
      t.mem = skip { s.mem with heap := (tenReads s.mem.heap (unread s.mem.buf)).heap }
        (tenReads s.mem.heap (unread s.mem.buf)).used ∧
      lists t.kex = (tenReads s.mem.heap (unread s.mem.buf)).strs ∧ t.kex.cookie = s.kex.cookie := by
  have last : ∀ (put : Option (List UInt8) → SshKexInit → SshKexInit) (t : DecodeState), Valid t.mem.buf →
      readList put t = .ok () (afterReads t [put]) := by
    intro put t valid
    have alone := @readList_then t valid put [] (pure ()) (fun t _ => rfl)
    rwa [bind_pure_unit] at alone
  have run : readLists s = .ok () (afterReads s setters) := by
    rw [readLists, setters]
    iterate 9 refine readList_then (by assumption) _ _ fun t _ => ?_
    exact last _ t (by assumption)
  exact ⟨_, run, rfl, setters_lists s.kex (cstringReads_length _ _ _)⟩

theorem skip_realloc (s : BufState) (heap : Heap) (count : Nat) :
    { skip s count with heap := heap } = skip { s with heap := heap } count := rfl

/-- The flag and the reserved word. -/
def readTrailer : DecodeCall Unit := do
  let follows ← onMem bufGetBool
  setKex fun kex => { kex with firstKexPacketFollows := follows }
  let _ ← onMem bufGetU32
  pure ()

theorem readTrailer_cases {s : DecodeState} (valid : Valid s.mem.buf) :
    (5 ≤ (unread s.mem.buf).length ∧ readTrailer s = .ok () { mem := skip s.mem 5, kex := { s.kex with
        firstKexPacketFollows := decide ((unread s.mem.buf).getD 0 0 ≠ 0) } }) ∨
    ((unread s.mem.buf).length < 5 ∧ ∃ t, readTrailer s = .error .fail t) := by
  have flag := bufGetBool_eq valid.sound
  rw [readTrailer]
  rcases front : unread s.mem.buf with _ | ⟨byte, bytes⟩
  · rw [front] at flag
    exact Or.inr ⟨by simp, _, bind_of_error (onMem_of_error flag)⟩
  rw [front] at flag
  rw [bind_of_ok (onMem_of_ok flag)]
  have after := @valid_skip _ 1 valid (by simp [front])
  have reserved := bufGetU32_eq after.sound
  rw [unread_skip, front, List.drop_one, List.tail_cons] at reserved
  have assigned : ∀ follows, setKex (fun kex => { kex with firstKexPacketFollows := follows })
      ⟨skip s.mem 1, s.kex⟩ = .ok () ⟨skip s.mem 1, { s.kex with firstKexPacketFollows := follows }⟩ := fun _ => rfl
  rw [bind_of_ok (assigned _)]
  by_cases long : 4 ≤ bytes.length
  · rw [if_pos long, skip_skip] at reserved
    refine Or.inl ⟨by simpa using long, ?_⟩
    rw [bind_of_ok (onMem_of_ok (s := ⟨skip s.mem 1, _⟩) reserved)]
    rfl
  · rw [if_neg long] at reserved
    refine Or.inr ⟨by rw [List.length_cons]; omega, _, bind_of_error (onMem_of_error (s := ⟨skip s.mem 1, _⟩) reserved)⟩

/-! The whole decoder. -/

/-- The reads of the ten lists, behind message type and cookie. -/
def listReads (s : DecodeState) : CstringReads := tenReads s.mem.heap ((unread s.mem.buf).drop 17)

/-- Message type and cookie are there. -/
def Headed (bytes : List UInt8) : Prop := 17 ≤ bytes.length ∧ bytes.getD 0 0 = SSH_MSG_KEXINIT

/-- The state after a decoding that returned 0. -/
structure Decoded (s t : DecodeState) : Prop where
  mem : t.mem = skip { s.mem with heap := (listReads s).heap } (17 + (listReads s).used + 5)
  cookie : t.kex.cookie.toList = ((unread s.mem.buf).drop 1).take 16
  lists : lists t.kex = (listReads s).strs
  follows : t.kex.firstKexPacketFollows = decide ((unread s.mem.buf).getD (17 + (listReads s).used) 0 ≠ 0)

/-- Sixteen bytes read into the cookie. -/
private theorem cookie_list {bytes : List UInt8} (long : 16 ≤ bytes.length) :
    (Vector.ofFn fun i : Fin 16 => (bytes.take 16).getD i.val 0).toList = bytes.take 16 := by
  apply List.ext_getElem
  · simp [long]
  · intro i _ bound
    rw [Vector.getElem_toList, Vector.getElem_ofFn, List.getD_eq_getElem?_getD, List.getElem?_eq_getElem bound]
    rfl

instance (bytes : List UInt8) : Decidable (Headed bytes) :=
  inferInstanceAs (Decidable (17 ≤ bytes.length ∧ bytes.getD 0 0 = SSH_MSG_KEXINIT))

theorem kexInitDecode_header {s : DecodeState} (valid : Valid s.mem.buf) :
    (Headed (unread s.mem.buf) ∧ ∃ kex : SshKexInit, kex.cookie.toList = ((unread s.mem.buf).drop 1).take 16 ∧
      kexInitDecode s = (readLists >>= fun _ => readTrailer) ⟨skip s.mem 17, kex⟩) ∨
    (¬Headed (unread s.mem.buf) ∧ ∃ t, kexInitDecode s = .error .fail t) := by
  have cleared : (setKex fun _ => zeroKexInit) s = .ok () { s with kex := zeroKexInit } := rfl
  rw [kexInitDecode, bind_of_ok cleared]
  have first := bufGetU8_eq valid.sound
  rcases front : unread s.mem.buf with _ | ⟨byte, bytes⟩
  · rw [front] at first
    exact Or.inr ⟨fun headed => by simp [Headed] at headed, _,
      bind_of_error (onMem_of_error (s := { s with kex := zeroKexInit }) first)⟩
  rw [front] at first
  rw [bind_of_ok (onMem_of_ok (s := { s with kex := zeroKexInit }) first)]
  have one : 1 ≤ (unread s.mem.buf).length := by simp [front]
  have after := valid_skip valid one
  have cookie := bufGetRaw_eq after.sound 16
  rw [unread_skip, front, List.drop_one, List.tail_cons] at cookie
  by_cases type : byte = SSH_MSG_KEXINIT
  swap
  · rw [decide_eq_true type]
    exact Or.inr ⟨fun headed => type headed.2, _, bind_of_error (failIf_true _)⟩
  rw [decide_eq_false (not_not.mpr type), bind_of_ok (failIf_false _)]
  by_cases long : 16 ≤ bytes.length
  · rw [if_pos long] at cookie
    rw [bind_of_ok (onMem_of_ok (s := ⟨skip s.mem 1, zeroKexInit⟩) cookie)]
    refine Or.inl ⟨⟨by simpa using long, by simpa using type⟩,
      { zeroKexInit with cookie := Vector.ofFn fun i => (bytes.take 16).getD i.val 0 }, ?_, ?_⟩
    · rw [List.drop_one, List.tail_cons]
      exact cookie_list long
    · rw [skip_skip]
      rfl
  · rw [if_neg long] at cookie
    refine Or.inr ⟨fun headed => long ?_, _, bind_of_error (onMem_of_error (s := ⟨skip s.mem 1, zeroKexInit⟩) cookie)⟩
    simpa using headed.1

theorem kexInitDecode_cases {s : DecodeState} (valid : Valid s.mem.buf) :
    (Headed (unread s.mem.buf) ∧ (listReads s).used + 5 ≤ (unread s.mem.buf).length - 17 ∧
      ∃ t, kexInitDecode s = .ok () t ∧ Decoded s t) ∨
    (¬(Headed (unread s.mem.buf) ∧ (listReads s).used + 5 ≤ (unread s.mem.buf).length - 17) ∧
      ∃ t, kexInitDecode s = .error .fail t) := by
  rcases kexInitDecode_header valid with ⟨headed, kex, cookies, header⟩ | ⟨headless, t, failed⟩
  swap
  · exact Or.inr ⟨fun both => headless both.1, t, failed⟩
  rw [header]
  obtain ⟨t, read, mem, lists, cookie⟩ := readLists_ok (s := ⟨skip s.mem 17, kex⟩) (valid_skip valid headed.1)
  rw [skip_heap, unread_skip] at mem lists
  rw [← listReads, skip_realloc, skip_skip] at mem
  rw [← listReads] at lists
  have used : (listReads s).used ≤ ((unread s.mem.buf).drop 17).length := cstringReads_used _ _ _
  rw [List.length_drop] at used
  have long := headed.1
  have rest : unread t.mem.buf = (unread s.mem.buf).drop (17 + (listReads s).used) := by
    rw [mem]
    exact unread_skip _ _
  have valid_rest : Valid t.mem.buf := by
    rw [mem]
    exact valid_skip (s := { s.mem with heap := (listReads s).heap }) valid (by
      change 17 + (listReads s).used ≤ (unread s.mem.buf).length
      omega)
  rw [bind_of_ok read]
  rcases readTrailer_cases valid_rest with ⟨enough, done⟩ | ⟨short, u, failed⟩
  · rw [rest, List.length_drop] at enough
    refine Or.inl ⟨headed, by omega, _, done, ?_, ?_, ?_, ?_⟩
    · rw [mem, skip_skip]
    · rw [← cookies, ← cookie]
    · exact lists
    · rw [rest, List.getD_eq_getElem?_getD, List.getD_eq_getElem?_getD, List.getElem?_drop, Nat.add_zero]
  · rw [rest, List.length_drop] at short
    exact Or.inr ⟨fun both => by omega, u, failed⟩

/-! Reads that all succeed are the strings of the message. -/

theorem cstringRead_wireString (heap : Heap) {str : List UInt8} (rest : List UInt8) (short : str.length < 2 ^ 32) :
    cstringRead heap (wireString str ++ rest) =
      if heap.alloc.1 then ⟨some str, heap.alloc.2, (wireString str).length⟩ else ⟨none, heap.alloc.2, 4⟩ := by
  have body : ((wireString str ++ rest).drop 4).take str.length = str := by
    rw [wireString, List.append_assoc, List.drop_append_of_le_length (by simp), List.drop_of_length_le (by simp),
      List.nil_append, List.take_left]
  rw [cstringRead, stringLength_wireString rest short, body]
  simp only [List.length_append, wireString_length]
  rw [if_neg (by omega), if_neg (by omega)]

/-- A read that succeeds has found a whole string. -/
theorem cstringRead_some {heap : Heap} {bytes str : List UInt8} (found : (cstringRead heap bytes).str = some str) :
    str.length < 2 ^ 32 ∧ bytes = wireString str ++ bytes.drop (cstringRead heap bytes).used := by
  unfold cstringRead at found ⊢
  split at found
  · cases found
  split at found
  · cases found
  split at found
  swap
  · cases found
  next long whole granted =>
    have length : str.length = stringLength bytes := by
      rw [← Option.some.inj found, List.length_take, List.length_drop]
      omega
    have header : be32 (UInt32.ofNat str.length) = bytes.take 4 := by
      have digits := beBytes_beNat (bytes.take 4)
      rw [List.length_take, Nat.min_eq_left (by omega)] at digits
      rw [be32_eq, length, UInt32.toNat_ofNat_of_lt' (stringLength_lt bytes), stringLength, digits]
    refine ⟨by rw [length]; exact stringLength_lt bytes, ?_⟩
    rw [if_neg long, if_neg whole, if_pos granted, wireString, header, ← Option.some.inj found, List.append_assoc]
    rw [← List.drop_drop, List.take_append_drop, List.take_append_drop]

theorem cstringReads_strings (heap : Heap) (strs : List (List UInt8)) (rest : List UInt8)
    (short : ∀ str ∈ strs, str.length < 2 ^ 32)
    (all : ∀ str ∈ (cstringReads heap (strs.flatMap wireString ++ rest) strs.length).strs, str.isSome) :
    (cstringReads heap (strs.flatMap wireString ++ rest) strs.length).strs = strs.map some ∧
      (cstringReads heap (strs.flatMap wireString ++ rest) strs.length).used = (strs.flatMap wireString).length := by
  induction strs generalizing heap with
  | nil => exact ⟨rfl, rfl⟩
  | cons str strs ih =>
    have first := cstringRead_wireString heap (strs.flatMap wireString ++ rest) (short str (by simp))
    rw [List.flatMap_cons, List.append_assoc] at all ⊢
    simp only [List.length_cons, cstringReads, first] at all ⊢
    by_cases granted : heap.alloc.1
    · simp only [if_pos granted, List.drop_left, List.forall_mem_cons] at all ⊢
      obtain ⟨strings, used⟩ := ih heap.alloc.2 (fun other member => short other (List.mem_cons_of_mem _ member)) all.2
      exact ⟨by rw [strings, List.map_cons], by rw [used, List.length_append]⟩
    · simp [if_neg granted] at all

theorem strings_of_reads (heap : Heap) (bytes : List UInt8) (count : Nat)
    (all : ∀ str ∈ (cstringReads heap bytes count).strs, str.isSome) :
    ∃ strs : List (List UInt8), (cstringReads heap bytes count).strs = strs.map some ∧ strs.length = count ∧
      (∀ str ∈ strs, str.length < 2 ^ 32) ∧
      bytes = strs.flatMap wireString ++ bytes.drop (cstringReads heap bytes count).used := by
  induction count generalizing heap bytes with
  | zero => exact ⟨[], rfl, rfl, by simp, rfl⟩
  | succ count ih =>
    simp only [cstringReads, List.forall_mem_cons] at all ⊢
    obtain ⟨str, found⟩ := Option.isSome_iff_exists.mp all.1
    obtain ⟨short, front⟩ := cstringRead_some found
    obtain ⟨strs, strings, length, shorts, rest⟩ := ih _ _ all.2
    refine ⟨str :: strs, by rw [strings, found, List.map_cons], by rw [List.length_cons, length], ?_, ?_⟩
    · exact List.forall_mem_cons.mpr ⟨short, shorts⟩
    · rw [List.flatMap_cons, List.append_assoc, ← List.drop_drop, ← rest]
      exact front

section
variable {bytes : List UInt8} {m : Message}

theorem Message.wire_length (cookie : m.cookie.length = 16) (reserved : m.reserved.length = 4) :
    m.wire.length = 17 + (m.strings.flatMap wireString).length + 5 := by
  simp only [Message.wire, List.length_append, List.length_singleton, cookie, reserved]

theorem Begins.headed (begins : Begins bytes m) : Headed bytes := by
  obtain ⟨rest, rfl⟩ := begins.wire
  refine ⟨?_, rfl⟩
  rw [List.length_append, Message.wire_length begins.cookie begins.reserved]
  omega

/-- Behind type and cookie come the strings, the flag and the reserved word. -/
theorem Begins.body (begins : Begins bytes m) :
    ∃ rest, bytes.drop 17 = m.strings.flatMap wireString ++ ([m.follows] ++ m.reserved ++ rest) := by
  obtain ⟨rest, rfl⟩ := begins.wire
  refine ⟨rest, ?_⟩
  have front : ([SSH_MSG_KEXINIT] ++ m.cookie).length = 17 := by rw [List.length_append, begins.cookie, List.length_singleton]
  rw [Message.wire, List.append_assoc, List.append_assoc, List.append_assoc, ← front, List.drop_left]
  simp only [List.append_assoc]

private theorem take_one (some_bytes : 0 < bytes.length) : bytes.take 1 = [bytes.getD 0 0] := by
  cases bytes with
  | nil => cases some_bytes
  | cons byte bytes => rfl

end

theorem begins_of_reads {s : DecodeState} (headed : Headed (unread s.mem.buf))
    (all : ∀ str ∈ (listReads s).strs, str.isSome)
    (enough : (listReads s).used + 5 ≤ (unread s.mem.buf).length - 17) :
    ∃ m, Begins (unread s.mem.buf) m ∧ m.cookie = ((unread s.mem.buf).drop 1).take 16 ∧
      (listReads s).strs = m.strings.map some ∧ m.follows = (unread s.mem.buf).getD (17 + (listReads s).used) 0 ∧
      m.wire.length = 17 + (listReads s).used + 5 := by
  obtain ⟨strs, strings, ten, short, body⟩ := strings_of_reads _ _ _ all
  change (unread s.mem.buf).drop 17 = _ ++ ((unread s.mem.buf).drop 17).drop (listReads s).used at body
  obtain ⟨long, type⟩ := headed
  have size : (strs.flatMap wireString).length = (listReads s).used := by
    have lengths := congrArg List.length body
    simp only [List.length_append, List.length_drop] at lengths
    omega
  rw [List.drop_drop] at body
  change (listReads s).strs = _ at strings
  generalize (listReads s).strs = reads at *
  generalize unread s.mem.buf = bytes at *
  generalize (listReads s).used = used at *
  have flag := @take_one (bytes.drop (17 + used)) (by rw [List.length_drop]; omega)
  have joined : ∀ start count, (bytes.drop start).take count ++ bytes.drop (start + count) = bytes.drop start :=
    fun start count => by rw [← List.drop_drop, List.take_append_drop]
  have cookie : ((bytes.drop 1).take 16).length = 16 := by
    rw [List.length_take, List.length_drop]
    omega
  have reserved : ((bytes.drop (17 + used + 1)).take 4).length = 4 := by
    rw [List.length_take, List.length_drop]
    omega
  refine ⟨⟨(bytes.drop 1).take 16, strs, (bytes.drop (17 + used)).getD 0 0, (bytes.drop (17 + used + 1)).take 4⟩,
    ⟨cookie, ten, short, reserved, bytes.drop (17 + used + 5), ?_⟩, rfl, strings, ?_, ?_⟩
  · rw [Message.wire, ← type, ← take_one (show 0 < bytes.length by omega), ← flag]
    calc
      _ = bytes.take 1 ++ (bytes.drop 1).take 16 ++ (strs.flatMap wireString ++ ((bytes.drop (17 + used)).take 1 ++
          ((bytes.drop (17 + used + 1)).take 4 ++ bytes.drop (17 + used + 1 + 4)))) := by simp only [List.append_assoc]
      _ = bytes.take 1 ++ (bytes.drop 1).take 16 ++ (strs.flatMap wireString ++ bytes.drop (17 + used)) := by
        rw [joined, joined]
      _ = bytes.take 1 ++ ((bytes.drop 1).take 16 ++ bytes.drop (1 + 16)) := by rw [← body, List.append_assoc]
      _ = bytes := by rw [joined, List.take_append_drop]
  · rw [List.getD_eq_getElem?_getD, List.getD_eq_getElem?_getD, List.getElem?_drop, Nat.add_zero]
  · rw [Message.wire_length cookie reserved, size]

/-! Exactness. -/

/-- Accepts the messages and no other bytes, and stores what they say. -/
def DecodesExactly (s : DecodeState) : Prop :=
  match kexInitDecode s with
  | .ok _ t => ∃ m, Begins (unread s.mem.buf) m ∧ t.kex.cookie.toList = m.cookie ∧
      lists t.kex = m.strings.map some ∧ t.kex.firstKexPacketFollows = decide (m.follows ≠ 0) ∧
      t.mem.buf.rpos = s.mem.buf.rpos + m.wire.length
  | .error .fail _ => ¬∃ m, Begins (unread s.mem.buf) m
  | .error .hang _ => False

/-! When it does so can be told from the bytes and from the coming answers of malloc. -/

/-- What stands behind so many strings, if every one of them lies inside. -/
def behind : Nat → List UInt8 → Option (List UInt8)
  | 0, bytes => some bytes
  | count + 1, bytes =>
    if bytes.length < 4 + stringLength bytes then none else behind count (bytes.drop (4 + stringLength bytes))

/-- What is left when so many strings are passed over: a string by the length that it
announces, but by its four length bytes if that length runs over the end or malloc refuses. -/
def passed (heap : Heap) : Nat → List UInt8 → List UInt8
  | 0, bytes => bytes
  | count + 1, bytes =>
    if bytes.length < 4 then bytes
    else if bytes.length < 4 + stringLength bytes then passed heap count (bytes.drop 4)
    else passed heap.alloc.2 count (bytes.drop (if heap.alloc.1 then 4 + stringLength bytes else 4))

/-- Behind type and cookie, ten strings lie inside and there is memory for each; or fewer than
five bytes are left, both behind ten strings and behind what the ten reads pass over. -/
def Safe (s : DecodeState) : Prop :=
  let body := (unread s.mem.buf).drop 17
  ¬Headed (unread s.mem.buf) ∨ ((behind 10 body).isSome ∧ ∀ answer ∈ s.mem.heap.take 10, answer = true) ∨
    ((∀ rest, behind 10 body = some rest → rest.length < 5) ∧ (passed s.mem.heap 10 body).length < 5)

theorem cstringRead_short (heap : Heap) {bytes : List UInt8} (short : bytes.length < 4) :
    cstringRead heap bytes = ⟨none, heap, 0⟩ := if_pos short

theorem cstringReads_short (heap : Heap) {bytes : List UInt8} (short : bytes.length < 4) (count : Nat) :
    (cstringReads heap bytes count).used = 0 := by
  induction count with
  | zero => rfl
  | succ count ih =>
    rw [cstringReads, cstringRead_short heap short, List.drop_zero]
    exact (Nat.zero_add _).trans ih

/-- The reads go the way of `passed`. -/
theorem passed_eq (heap : Heap) (count : Nat) (bytes : List UInt8) :
    passed heap count bytes = bytes.drop (cstringReads heap bytes count).used := by
  induction count generalizing heap bytes with
  | zero => rfl
  | succ count ih =>
    by_cases short : bytes.length < 4
    · rw [passed, if_pos short, cstringReads_short heap short, List.drop_zero]
    · rw [passed, if_neg short, cstringReads, ← List.drop_drop, cstringRead, if_neg short]
      by_cases beyond : bytes.length < 4 + stringLength bytes
      · rw [if_pos beyond, if_pos beyond]
        exact ih _ _
      · rw [if_neg beyond, if_neg beyond]
        split
        · exact ih _ _
        · exact ih _ _

/-- Every read succeeds just when its string lies inside and its memory is granted. -/
theorem reads_succeed_iff (heap : Heap) (count : Nat) (bytes : List UInt8) :
    (∀ str ∈ (cstringReads heap bytes count).strs, str.isSome) ↔
      (behind count bytes).isSome ∧ ∀ answer ∈ heap.take count, answer = true := by
  induction count generalizing heap bytes with
  | zero => simp [cstringReads, behind]
  | succ count ih =>
    rw [cstringReads, List.forall_mem_cons, behind]
    by_cases beyond : bytes.length < 4 + stringLength bytes
    · have unread_string : (cstringRead heap bytes).str = none := by
        rw [cstringRead]
        split <;> rfl
      simp [unread_string, beyond]
    · have long : ¬bytes.length < 4 := by omega
      rw [if_neg beyond, cstringRead, if_neg long, if_neg beyond]
      rcases heap with _ | ⟨granted, heap⟩
      · have rest := ih [] (bytes.drop (4 + stringLength bytes))
        simpa [Heap.alloc] using rest
      · cases granted with
        | true =>
          have rest := ih heap (bytes.drop (4 + stringLength bytes))
          simpa [Heap.alloc] using rest
        | false => simp [Heap.alloc]

theorem behind_strings (strs : List (List UInt8)) (rest : List UInt8) (short : ∀ str ∈ strs, str.length < 2 ^ 32) :
    behind strs.length (strs.flatMap wireString ++ rest) = some rest := by
  induction strs with
  | nil => rfl
  | cons str strs ih =>
    obtain ⟨first, others⟩ := List.forall_mem_cons.mp short
    rw [List.flatMap_cons, List.append_assoc, List.length_cons, behind, stringLength_wireString _ first]
    rw [List.length_append, wireString_length, if_neg (by omega), ← wireString_length, List.drop_left]
    exact ih others

theorem behind_eq {count : Nat} {bytes rest : List UInt8} (inside : behind count bytes = some rest) (heap : Heap)
    (granted : ∀ answer ∈ heap.take count, answer = true) : rest = bytes.drop (cstringReads heap bytes count).used := by
  have all := (reads_succeed_iff heap count bytes).mpr ⟨by rw [inside]; rfl, granted⟩
  obtain ⟨strs, strings, length, short, front⟩ := strings_of_reads heap bytes count all
  have other := behind_strings strs (bytes.drop (cstringReads heap bytes count).used) short
  rw [← front, length, inside] at other
  exact Option.some.inj other

/-- A message is ten strings that lie inside, with room for the flag and the reserved word. -/
theorem begins_iff (bytes : List UInt8) :
    (∃ m, Begins bytes m) ↔ Headed bytes ∧ ∃ rest, behind 10 (bytes.drop 17) = some rest ∧ 5 ≤ rest.length := by
  constructor
  · rintro ⟨m, begins⟩
    obtain ⟨rest, body⟩ := begins.body
    refine ⟨begins.headed, [m.follows] ++ m.reserved ++ rest, ?_, ?_⟩
    · rw [body, ← begins.count]
      exact behind_strings m.strings _ begins.short
    · simp only [List.length_append, List.length_singleton, begins.reserved]
      omega
  · rintro ⟨headed, rest, inside, enough⟩
    -- With memory at hand the reads find the strings.
    let s : DecodeState := ⟨⟨[], { data := bytes, rpos := 0, len := bytes.length, cap := bytes.length }⟩, zeroKexInit⟩
    have whole : unread s.mem.buf = bytes := by
      change (bytes.take bytes.length).drop 0 = bytes
      rw [List.take_length, List.drop_zero]
    have all := (reads_succeed_iff [] 10 (bytes.drop 17)).mpr ⟨by rw [inside]; rfl, by simp⟩
    have left := behind_eq inside [] (by simp)
    have used := cstringReads_used [] (bytes.drop 17) 10
    rw [left, List.length_drop, List.length_drop] at enough
    have reads : listReads s = cstringReads [] (bytes.drop 17) 10 := by rw [listReads, whole]; rfl
    obtain ⟨m, begins, -⟩ := @begins_of_reads s (by rw [whole]; exact headed) (by rw [reads]; exact all) (by
      rw [reads, whole]
      omega)
    rw [whole] at begins
    exact ⟨m, begins⟩

private theorem exact_when_read {s : DecodeState} (valid : Valid s.mem.buf)
    (all : ∀ str ∈ (listReads s).strs, str.isSome) : DecodesExactly s := by
  unfold DecodesExactly
  rcases kexInitDecode_cases valid with ⟨headed, enough, t, returned, decoded⟩ | ⟨lacking, t, failed⟩
  · rw [returned]
    obtain ⟨m, begins, cookie, strings, follows, length⟩ := begins_of_reads headed all enough
    refine ⟨m, begins, by rw [decoded.cookie, cookie], by rw [decoded.lists, strings], by rw [decoded.follows, follows], ?_⟩
    rw [decoded.mem, length]
    rfl
  · rw [failed]
    rintro ⟨m, begins⟩
    refine lacking ⟨begins.headed, ?_⟩
    obtain ⟨rest, body⟩ := begins.body
    have used := (cstringReads_strings s.mem.heap m.strings ([m.follows] ++ m.reserved ++ rest) begins.short (by
      rw [← body, begins.count]
      exact all)).2
    rw [← body, begins.count] at used
    change (listReads s).used = _ at used
    have lengths := congrArg List.length body
    simp only [List.length_append, List.length_drop, List.length_singleton, begins.reserved] at lengths
    omega

/-- A read that fails unnoticed leaves a NULL field behind. -/
private theorem misread {s : DecodeState} (valid : Valid s.mem.buf) (headed : Headed (unread s.mem.buf))
    (unread_string : ¬∀ str ∈ (listReads s).strs, str.isSome)
    (enough : (listReads s).used + 5 ≤ (unread s.mem.buf).length - 17) : ¬DecodesExactly s := by
  unfold DecodesExactly
  rcases kexInitDecode_cases valid with ⟨-, -, t, returned, decoded⟩ | ⟨lacking, -, -⟩
  · rw [returned]
    rintro ⟨m, -, -, strings, -, -⟩
    rw [decoded.lists] at strings
    refine unread_string fun str member => ?_
    rw [strings, List.mem_map] at member
    obtain ⟨bytes, -, rfl⟩ := member
    rfl
  · exact absurd ⟨headed, enough⟩ lacking

/-- In terms of the reads themselves. -/
private theorem exactly_iff_reads {s : DecodeState} (valid : Valid s.mem.buf) : DecodesExactly s ↔
    ¬Headed (unread s.mem.buf) ∨ (∀ str ∈ (listReads s).strs, str.isSome) ∨
      ((unread s.mem.buf).length - 17 < (listReads s).used + 5 ∧ ¬∃ m, Begins (unread s.mem.buf) m) := by
  by_cases headed : Headed (unread s.mem.buf)
  swap
  · refine iff_of_true ?_ (Or.inl headed)
    unfold DecodesExactly
    rcases kexInitDecode_cases valid with ⟨present, -⟩ | ⟨-, t, failed⟩
    · exact absurd present headed
    · rw [failed]
      exact fun ⟨m, begins⟩ => headed begins.headed
  by_cases all : ∀ str ∈ (listReads s).strs, str.isSome
  · exact iff_of_true (exact_when_read valid all) (Or.inr (Or.inl all))
  by_cases enough : (listReads s).used + 5 ≤ (unread s.mem.buf).length - 17
  · refine iff_of_false (misread valid headed all enough) ?_
    rintro (headless | read | ⟨short, -⟩)
    · exact headless headed
    · exact all read
    · omega
  · unfold DecodesExactly
    rcases kexInitDecode_cases valid with ⟨-, present, -⟩ | ⟨-, t, failed⟩
    · exact absurd present enough
    · rw [failed]
      refine ⟨fun malformed => Or.inr (Or.inr ⟨by omega, malformed⟩), ?_⟩
      rintro (headless | read | ⟨-, malformed⟩)
      · exact absurd headed headless
      · exact absurd read all
      · exact malformed

/-- A read that fails stops nothing: the decoder must have too few bytes at the end, and so
must the message. -/
theorem decodes_exactly_iff (s : DecodeState) (valid : Valid s.mem.buf) : DecodesExactly s ↔ Safe s := by
  rw [exactly_iff_reads valid]
  unfold Safe
  by_cases headed : Headed (unread s.mem.buf)
  swap
  · exact iff_of_true (Or.inl headed) (Or.inl headed)
  refine or_congr_right (or_congr (reads_succeed_iff _ _ _) ?_)
  have left := passed_eq s.mem.heap 10 ((unread s.mem.buf).drop 17)
  have used : (listReads s).used ≤ ((unread s.mem.buf).drop 17).length := cstringReads_used _ _ _
  have few : (unread s.mem.buf).length - 17 < (listReads s).used + 5 ↔
      (passed s.mem.heap 10 ((unread s.mem.buf).drop 17)).length < 5 := by
    rw [left, List.length_drop]
    change _ ↔ _ - (listReads s).used < 5
    rw [List.length_drop] at used ⊢
    omega
  have malformed : (¬∃ m, Begins (unread s.mem.buf) m) ↔
      ∀ rest, behind 10 ((unread s.mem.buf).drop 17) = some rest → rest.length < 5 := by
    rw [begins_iff]
    constructor
    · intro lacking rest inside
      by_contra enough
      exact lacking ⟨headed, rest, inside, Nat.le_of_not_lt enough⟩
    · rintro short ⟨-, rest, inside, enough⟩
      exact absurd (short rest inside) (Nat.not_lt.mpr enough)
  rw [few, malformed, and_comm]

/-- A buffer that holds these bytes, all unread. -/
def loaded (bytes : List UInt8) : DecodeState :=
  { mem := ⟨[], { data := bytes, rpos := 0, len := bytes.length, cap := bytes.length }⟩, kex := zeroKexInit }

/-- A message whose first list is one letter, and the same with a letter announced that is not there. -/
theorem decodes_exactly_one_letter :
    let message (announced : UInt8) := loaded (20 :: List.replicate 16 0 ++ [0, 0, 0, announced, 65] ++ List.replicate 41 0)
    (DecodesExactly (message 1) ↔ Safe (message 1)) ∧ (DecodesExactly (message 255) ↔ Safe (message 255)) :=
  ⟨decodes_exactly_iff _ (by decide), decodes_exactly_iff _ (by decide)⟩

/-- The first list announces 2 ^ 32 - 1 bytes; nine empty lists, the flag and the reserved
word follow. The decoder returns 0. -/
theorem decode_overlong_list : ¬∀ s : DecodeState, Valid s.mem.buf → DecodesExactly s := by
  intro claimed
  refine misread (s := loaded (20 :: List.replicate 16 0 ++ List.replicate 4 255 ++ List.replicate 41 0)) (by decide)
    (by decide) (by decide) (by decide) (claimed _ (by decide))

end Coalesce.KexDecode
