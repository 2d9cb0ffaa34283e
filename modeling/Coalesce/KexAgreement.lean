import Coalesce.KexDecode

/-! KEXINIT there and back, and what the two ends make of it: both negotiate with
one list of their own and one from the wire, and still agree. -/

namespace Coalesce.KexAgreement
open Library.CallResult Library.ByteNumber Buffer BufferBytes BufferReaders Kex KexDecode

/-- The characters of a list, NULL counting as empty. -/
def characters (list : Option (List UInt8)) : List UInt8 := list.getD []

/-- Name-lists that fit the wire and hold no NUL. -/
def Encodable (kex : SshKexInit) : Prop :=
  ∀ list ∈ lists kex, 0 ∉ characters list ∧ (characters list).length < 2 ^ 32

instance (kex : SshKexInit) : Decidable (Encodable kex) :=
  inferInstanceAs (Decidable (∀ list ∈ lists kex, 0 ∉ characters list ∧ (characters list).length < 2 ^ 32))

def messageOf (kex : SshKexInit) : Message :=
  { cookie := kex.cookie.toList
    strings := (lists kex).map fun list => cString (characters list)
    follows := if kex.firstKexPacketFollows then 1 else 0
    reserved := be32 0 }

/-- Every NULL list replaced by an empty one. -/
def normal (kex : SshKexInit) : SshKexInit :=
  { cookie := kex.cookie
    kexAlgorithms := some (characters kex.kexAlgorithms)
    serverHostKeyAlgorithms := some (characters kex.serverHostKeyAlgorithms)
    encryptionAlgorithmsClientToServer := some (characters kex.encryptionAlgorithmsClientToServer)
    encryptionAlgorithmsServerToClient := some (characters kex.encryptionAlgorithmsServerToClient)
    macAlgorithmsClientToServer := some (characters kex.macAlgorithmsClientToServer)
    macAlgorithmsServerToClient := some (characters kex.macAlgorithmsServerToClient)
    compressionAlgorithmsClientToServer := some (characters kex.compressionAlgorithmsClientToServer)
    compressionAlgorithmsServerToClient := some (characters kex.compressionAlgorithmsServerToClient)
    languagesClientToServer := some (characters kex.languagesClientToServer)
    languagesServerToClient := some (characters kex.languagesServerToClient)
    firstKexPacketFollows := kex.firstKexPacketFollows }

theorem lists_normal (kex : SshKexInit) : lists (normal kex) = (lists kex).map fun list => some (characters list) := rfl

/-- Cookie, lists and flag are all there is. -/
theorem kexInit_ext {first second : SshKexInit} (cookie : first.cookie = second.cookie)
    (names : lists first = lists second) (follows : first.firstKexPacketFollows = second.firstKexPacketFollows) :
    first = second := by
  cases first
  cases second
  simp only [lists, List.cons.injEq, and_true] at names
  obtain ⟨h0, h1, h2, h3, h4, h5, h6, h7, h8, h9⟩ := names
  simp only at cookie follows
  subst cookie follows h0 h1 h2 h3 h4 h5 h6 h7 h8 h9
  rfl

/-! The round trip. -/

theorem kexInitEncode_appends (kex : SshKexInit) : Appends (kexInitEncode kex) (messageOf kex).wire := by
  have cookie := @appends_raw kex.cookie.toList 16 (by rw [Vector.length_toList])
  rw [List.take_of_length_le (by rw [Vector.length_toList])] at cookie
  have written := (appends_u8 SSH_MSG_KEXINIT).bind <| cookie.bind <|
    (appends_cstring kex.kexAlgorithms).bind <| (appends_cstring kex.serverHostKeyAlgorithms).bind <|
    (appends_cstring kex.encryptionAlgorithmsClientToServer).bind <|
    (appends_cstring kex.encryptionAlgorithmsServerToClient).bind <|
    (appends_cstring kex.macAlgorithmsClientToServer).bind <| (appends_cstring kex.macAlgorithmsServerToClient).bind <|
    (appends_cstring kex.compressionAlgorithmsClientToServer).bind <|
    (appends_cstring kex.compressionAlgorithmsServerToClient).bind <|
    (appends_cstring kex.languagesClientToServer).bind <| (appends_cstring kex.languagesServerToClient).bind <|
    (appends_bool kex.firstKexPacketFollows).bind (appends_u32 0)
  rw [kexInitEncode]
  simpa only [Message.wire, messageOf, lists, characters, List.map_cons, List.map_nil, List.flatMap_cons,
    List.flatMap_nil, List.append_assoc, List.nil_append] using written

theorem cString_eq {str : List UInt8} (clean : 0 ∉ str) : cString str = str := by
  induction str with
  | nil => rfl
  | cons byte str ih =>
    rw [List.mem_cons, not_or] at clean
    have kept : cString (byte :: str) = byte :: cString str :=
      List.takeWhile_cons_of_pos (decide_eq_true (Ne.symm clean.1))
    rw [kept, ih clean.2]

theorem messageOf_strings {kex : SshKexInit} (encodable : Encodable kex) :
    (messageOf kex).strings = (lists kex).map characters :=
  List.map_congr_left fun list member => cString_eq (encodable list member).1

/-- Memory makes every whole string readable. -/
theorem cstringReads_whole {heap : Heap} (plenty : Plenty heap) (strs : List (List UInt8)) (rest : List UInt8)
    (short : ∀ str ∈ strs, str.length < 2 ^ 32) :
    (cstringReads heap (strs.flatMap wireString ++ rest) strs.length).strs = strs.map some ∧
      (cstringReads heap (strs.flatMap wireString ++ rest) strs.length).used = (strs.flatMap wireString).length := by
  refine cstringReads_strings heap strs rest short ?_
  induction strs generalizing heap with
  | nil => simp [cstringReads]
  | cons str strs ih =>
    have first := cstringRead_wireString heap (strs.flatMap wireString ++ rest) (short str (by simp))
    rw [if_pos (plenty_alloc plenty).1] at first
    rw [List.flatMap_cons, List.append_assoc]
    simp only [List.length_cons, cstringReads, first, List.drop_left, List.forall_mem_cons]
    exact ⟨rfl, ih (plenty_alloc plenty).2 fun other member => short other (List.mem_cons_of_mem _ member)⟩

/-- `kex_init_encode`, then `kex_init_decode` from where the message begins. -/
def transfer (kex old : SshKexInit) (s : BufState) : Option (BufState × DecodeState) :=
  match kexInitEncode kex s with
  | .error _ _ => none
  | .ok _ t =>
    match kexInitDecode ⟨{ t with buf := { t.buf with rpos := s.buf.len } }, old⟩ with
    | .error _ _ => none
    | .ok _ u => some (t, u)

/-- What a transfer needs: lists that fit, a sound buffer, memory, and room for the message. -/
structure Transferable (kex : SshKexInit) (s : BufState) : Prop where
  encodable : Encodable kex
  valid : Valid s.buf
  plenty : Plenty s.heap
  room : s.buf.len + (messageOf kex).wire.length < BUF_ROOM

/-- The message is appended, and all of it, no more and no less, is read back. -/
structure Transferred (kex : SshKexInit) (s t : BufState) (u : DecodeState) : Prop where
  contents : contents t.buf = contents s.buf ++ (messageOf kex).wire
  kex : u.kex = normal kex
  rpos : u.mem.buf.rpos = t.buf.len

theorem messageOf_begins {kex : SshKexInit} (encodable : Encodable kex) :
    Begins (messageOf kex).wire (messageOf kex) where
  cookie := Vector.length_toList
  count := rfl
  short str member := by
    rw [messageOf_strings encodable, List.mem_map] at member
    obtain ⟨list, listed, rfl⟩ := member
    exact (encodable list listed).2
  reserved := rfl
  wire := List.prefix_refl _

/-- The reads of a whole message, given memory. -/
theorem listReads_message {kex : SshKexInit} (encodable : Encodable kex) {s : DecodeState} (plenty : Plenty s.mem.heap)
    (front : unread s.mem.buf = (messageOf kex).wire) :
    (listReads s).strs = lists (normal kex) ∧
      (listReads s).used = ((messageOf kex).strings.flatMap wireString).length := by
  have begins := messageOf_begins encodable
  obtain ⟨rest, body⟩ := begins.body
  have names : lists (normal kex) = (messageOf kex).strings.map some := by
    rw [messageOf_strings encodable, List.map_map, lists_normal]
    rfl
  rw [names, listReads, tenReads, front, body, ← begins.count]
  have short := begins.short
  generalize (messageOf kex).strings = strs at short ⊢
  exact cstringReads_whole plenty strs _ short

/-- The cookie and the flag where the decoder looks for them. -/
theorem messageOf_wire (kex : SshKexInit) :
    ((messageOf kex).wire.drop 1).take 16 = kex.cookie.toList ∧
      (messageOf kex).wire.getD (17 + ((messageOf kex).strings.flatMap wireString).length) 0 = (messageOf kex).follows := by
  have cookie : kex.cookie.toList.length = 16 := Vector.length_toList
  generalize front : ([SSH_MSG_KEXINIT] ++ kex.cookie.toList ++ (messageOf kex).strings.flatMap wireString) = bytes
  have size : bytes.length = 17 + ((messageOf kex).strings.flatMap wireString).length := by
    rw [← front, List.length_append, List.length_append, cookie, List.length_singleton]
  constructor
  · rw [Message.wire]
    simp only [List.append_assoc]
    exact List.take_left' cookie
  · have wire : (messageOf kex).wire = bytes ++ ((messageOf kex).follows :: (messageOf kex).reserved) := by
      rw [← front, Message.wire, List.append_assoc _ _ (messageOf kex).reserved, List.singleton_append]
      rfl
    rw [wire, ← size, List.getD_eq_getElem?_getD, List.getElem?_append_right (Nat.le_refl _), Nat.sub_self]
    rfl

/-- A buffer whose unread bytes are a whole message gives the message back and is read to its end. -/
theorem decode_message {kex : SshKexInit} (encodable : Encodable kex) {s : DecodeState} (valid : Valid s.mem.buf)
    (plenty : Plenty s.mem.heap) (front : unread s.mem.buf = (messageOf kex).wire) :
    ∃ u, kexInitDecode s = .ok () u ∧ u.kex = normal kex ∧ u.mem.buf.rpos = s.mem.buf.len := by
  have begins := messageOf_begins encodable
  have size := Message.wire_length begins.cookie begins.reserved
  have length := valid.sound.length_unread
  obtain ⟨strings, used⟩ := listReads_message encodable plenty front
  rcases kexInitDecode_cases valid with ⟨-, -, u, returned, decoded⟩ | ⟨lacking, -⟩
  swap
  · refine absurd ⟨?_, ?_⟩ lacking
    · rw [front]
      exact begins.headed
    · rw [front, used]
      omega
  refine ⟨u, returned, kexInit_ext ?_ ?_ ?_, ?_⟩
  · rw [← Vector.toList_inj, decoded.cookie, front, (messageOf_wire kex).1]
    rfl
  · rw [decoded.lists, strings]
  · rw [decoded.follows, front, used, (messageOf_wire kex).2]
    change decide ((if kex.firstKexPacketFollows then 1 else 0 : UInt8) ≠ 0) = kex.firstKexPacketFollows
    cases kex.firstKexPacketFollows <;> rfl
  · have inside := valid.read
    rw [front] at length
    rw [decoded.mem, used]
    change s.mem.buf.rpos + (17 + _ + 5) = s.mem.buf.len
    omega

theorem transfer_ok {kex : SshKexInit} {s : BufState} (ready : Transferable kex s) (old : SshKexInit) :
    ∃ t u, transfer kex old s = some (t, u) ∧ Transferred kex s t u := by
  obtain ⟨t, written, appended⟩ := (kexInitEncode_appends kex).ok ready.valid ready.plenty ready.room
  have length := appended.len ready.valid
  set received : DecodeState := ⟨{ t with buf := { t.buf with rpos := s.buf.len } }, old⟩
  have positioned : Valid received.mem.buf :=
    ⟨appended.valid.block, appended.valid.fits, by change s.buf.len ≤ t.buf.len; omega, appended.valid.small⟩
  have front : unread received.mem.buf = (messageOf kex).wire := by
    change (contents t.buf).drop s.buf.len = _
    rw [appended.contents, ← ready.valid.sound.length_contents, List.drop_left]
  obtain ⟨u, returned, same, rpos⟩ := decode_message ready.encodable positioned (appended.plenty ready.plenty) front
  refine ⟨t, u, ?_, appended.contents, same, rpos⟩
  rw [transfer, written]
  simp only [received] at returned
  simp only [returned]

/-! Negotiation sees no difference between NULL and an empty list. -/

/-- With memory the call returns this value, and leaves memory. -/
def Settles {α : Type} (call : Call Heap α) (value : α) : Prop :=
  ∀ heap, Plenty heap → ∃ left, call heap = .ok value left ∧ Plenty left

theorem settles_pure {α : Type} (value : α) : Settles (pure value : Call Heap α) value :=
  fun heap plenty => ⟨heap, rfl, plenty⟩

theorem settles_bind {α β : Type} {call : Call Heap α} {rest : α → Call Heap β} {value : α} {result : β}
    (first : Settles call value) (later : Settles (rest value) result) : Settles (call >>= rest) result := by
  intro heap plenty
  obtain ⟨mid, returned, more⟩ := first heap plenty
  rw [bind_of_ok returned]
  exact later mid more

theorem settles_then {α β : Type} {call : Call Heap α} {rest : α → Call Heap β}
    (first : ∃ value, Settles call value) (later : ∀ value, ∃ result, Settles (rest value) result) :
    ∃ result, Settles (call >>= rest) result := by
  obtain ⟨value, settled⟩ := first
  obtain ⟨result, finished⟩ := later value
  exact ⟨result, settles_bind settled finished⟩

theorem settles_mallocCopy (bytes : List UInt8) : Settles (mallocCopy bytes) (some bytes) := by
  intro heap plenty
  refine ⟨heap.alloc.2, ?_, (plenty_alloc plenty).2⟩
  have granted := (plenty_alloc plenty).1
  simp only [mallocCopy, bind_apply, get_apply, set_apply, pure_apply, granted, if_true]

theorem listContains_nil (item : List UInt8) (itemLen : Nat) : listContains (some []) item itemLen = false := by
  have none_left : containsFrom (cString []) item itemLen = false := by
    rw [containsFrom]
    rfl
  simp only [listContains, none_left, ite_self]

theorem matchFrom_nil (p : List UInt8) : matchFrom p [] = pure none := by
  fun_induction matchFrom p [] with
  | case1 => rfl
  | case2 p _ found => simp [listContains_nil] at found
  | case3 => rfl
  | case4 p _ _ rest _ ih => exact ih

theorem matchFrom_settles (p serverList : List UInt8) : ∃ value, Settles (matchFrom p serverList) value := by
  fun_induction matchFrom p serverList with
  | case1 => exact ⟨_, settles_pure none⟩
  | case2 p => exact ⟨_, settles_mallocCopy _⟩
  | case3 => exact ⟨_, settles_pure none⟩
  | case4 p _ _ rest _ ih => exact ih

theorem matchList_settles (clientList serverList : Option (List UInt8)) :
    ∃ value, Settles (matchList clientList serverList) value := by
  unfold matchList
  split
  · exact matchFrom_settles _ _
  · exact ⟨_, settles_pure none⟩

theorem matchList_characters (clientList serverList : Option (List UInt8)) :
    matchList clientList (some (characters serverList)) = matchList (some (characters clientList)) serverList := by
  cases clientList with
  | none =>
    cases serverList with
    | none => rfl
    | some serverList =>
      change pure none = matchFrom [] serverList
      rw [matchFrom]
      rfl
  | some clientList =>
    cases serverList with
    | none => exact matchFrom_nil _
    | some serverList => rfl

theorem kexNegotiate_normal (c s : SshKexInit) : kexNegotiate c (normal s) = kexNegotiate (normal c) s := by
  unfold kexNegotiate
  simp only [normal, matchList_characters]

theorem kexNegotiate_settles (c s : SshKexInit) : ∃ verdict, Settles (kexNegotiate c s) verdict := by
  unfold kexNegotiate
  iterate 8 refine settles_then (matchList_settles _ _) fun _ => ?_
  rw [← apply_ite pure]
  exact ⟨_, settles_pure _⟩

/-- The round trip, and with it the agreement of a client and a server that each know
their own lists as they are and the lists of the peer from the wire. -/
theorem negotiation_agrees (c s : SshKexInit) (atClient atServer : BufState) (client : Transferable c atClient)
    (server : Transferable s atServer) (oldClient oldServer : SshKexInit) :
    ∃ sent toServer sent' toClient, transfer c oldServer atClient = some (sent, toServer) ∧
      transfer s oldClient atServer = some (sent', toClient) ∧ Transferred c atClient sent toServer ∧
      Transferred s atServer sent' toClient ∧
      ∃ verdict, Settles (kexNegotiate c toClient.kex) verdict ∧ Settles (kexNegotiate toServer.kex s) verdict := by
  obtain ⟨sent, toServer, toServer_run, received⟩ := transfer_ok client oldServer
  obtain ⟨sent', toClient, toClient_run, received'⟩ := transfer_ok server oldClient
  refine ⟨sent, toServer, sent', toClient, toServer_run, toClient_run, received, received', ?_⟩
  obtain ⟨verdict, settled⟩ := kexNegotiate_settles c (normal s)
  refine ⟨verdict, ?_, ?_⟩
  · rw [received'.kex]
    exact settled
  · rw [received.kex, ← kexNegotiate_normal]
    exact settled

/-- One end prefers "b" to "a", the other knows only "a". -/
theorem negotiation_agrees_one_name :
    let fresh : BufState := ⟨[], { data := [], rpos := 0, len := 0, cap := 0 }⟩
    let one := { zeroKexInit with kexAlgorithms := some [98, COMMA, 97] }
    let other := { zeroKexInit with kexAlgorithms := some [97] }
    ∃ sent toServer sent' toClient, transfer one zeroKexInit fresh = some (sent, toServer) ∧
      transfer other zeroKexInit fresh = some (sent', toClient) ∧ Transferred one fresh sent toServer ∧
      Transferred other fresh sent' toClient ∧
      ∃ verdict, Settles (kexNegotiate one toClient.kex) verdict ∧ Settles (kexNegotiate toServer.kex other) verdict :=
  negotiation_agrees _ _ _ _ ⟨by decide, by decide, by decide, by decide⟩ ⟨by decide, by decide, by decide, by decide⟩ _ _

end Coalesce.KexAgreement
