import Coalesce.KexDefault
import Coalesce.SessionNetwork

/-! KEXINIT messages as packets of two sessions. Whatever else the parties send, receive and
rekey meanwhile, and in whatever order, the two negotiations come out the same. -/

namespace Coalesce.KexTransport
open Library.CallResult Buffer BufferBytes BufferReaders Kex KexAgreement KexChoice KexDecode KexRefusals KexDefault
open Session SessionExchange SessionNetwork
open Ident (literal)
open SessionSend (Sendable)

/-- The payload is what `kex_init_encode` makes of the proposal, in an empty buffer with memory. -/
structure Announces (kex : SshKexInit) (payload : List UInt8) : Prop where
  encodable : Encodable kex
  encoded : ∃ s t : BufState, Valid s.buf ∧ Plenty s.heap ∧ s.buf.len = 0 ∧ kexInitEncode kex s = .ok () t ∧
    payload = contents t.buf

/-- The receiver decodes from a buffer with this payload in it, wherever the payload comes from. -/
structure Holds (s : DecodeState) (payload : List UInt8) : Prop where
  valid : Valid s.mem.buf
  plenty : Plenty s.mem.heap
  unread : unread s.mem.buf = payload

theorem messageOf_room {kex : SshKexInit} (encodable : Encodable kex) : (messageOf kex).wire.length < BUF_ROOM := by
  have begins := messageOf_begins encodable
  have size := Message.wire_length begins.cookie begins.reserved
  have strings : ∀ strs : List (List UInt8), (∀ str ∈ strs, str.length < 2 ^ 32) →
      (strs.flatMap wireString).length ≤ strs.length * (2 ^ 32 + 4) := by
    intro strs short
    induction strs with
    | nil => exact Nat.zero_le _
    | cons str strs ih =>
      rw [List.forall_mem_cons] at short
      have others := ih short.2
      rw [List.flatMap_cons, List.length_append, wireString_length, List.length_cons]
      omega
  have bound := strings _ begins.short
  rw [begins.count] at bound
  rw [size, BUF_ROOM]
  omega

theorem Announces.wire {kex : SshKexInit} {payload : List UInt8} (announces : Announces kex payload) :
    payload = (messageOf kex).wire := by
  obtain ⟨s, t, valid, plenty, fresh, returned, rfl⟩ := announces.encoded
  have room := messageOf_room announces.encodable
  obtain ⟨t', returned', appended⟩ := (kexInitEncode_appends kex).ok valid plenty (by omega)
  rw [returned] at returned'
  cases returned'
  have empty : contents s.buf = [] := by
    rw [contents, fresh, List.take_zero]
  rw [appended.contents, empty, List.nil_append]

theorem announces_message {kex : SshKexInit} (encodable : Encodable kex) : Announces kex (messageOf kex).wire := by
  have room := messageOf_room encodable
  obtain ⟨t, returned, appended⟩ := (kexInitEncode_appends kex).ok (s := ⟨[], { data := [], rpos := 0, len := 0, cap := 0 }⟩)
    (by decide) (by decide) (by simpa using room)
  refine ⟨encodable, _, t, by decide, by decide, rfl, returned, ?_⟩
  rw [appended.contents]
  rfl

/-! Decoding turns NULL into an empty list, and negotiation does not see it. -/

theorem names_characters (list : Option (List UInt8)) {name : List UInt8} (named : name ≠ []) :
    name ∈ names (some (characters list)) ↔ name ∈ names list := by
  cases list with
  | none => simp [names, characters, cString, List.splitOn_nil, named]
  | some list => rfl

theorem firstCommon_server (clientList serverList : Option (List UInt8)) :
    firstCommon clientList (some (characters serverList)) = firstCommon clientList serverList := by
  unfold firstCommon
  congr 1
  funext name
  rw [decide_eq_decide]
  exact and_congr_right fun named => names_characters serverList named

theorem firstCommon_client (clientList serverList : Option (List UInt8)) :
    firstCommon (some (characters clientList)) serverList = firstCommon clientList serverList := by
  cases clientList with
  | none => simp [firstCommon, names, characters, cString, List.splitOn_nil]
  | some clientList => rfl

theorem kexNegotiate_server_normal (c s : SshKexInit) : kexNegotiate c (normal s) = kexNegotiate c s := by
  unfold kexNegotiate
  simp only [matchList_pick, normal, firstCommon_server]

theorem kexNegotiate_client_normal (c s : SshKexInit) : kexNegotiate (normal c) s = kexNegotiate c s := by
  unfold kexNegotiate
  simp only [matchList_pick, normal, firstCommon_client]

/-- A packet that has arrived is the one that was sent in its place. -/
theorem arrived {start n : Network} (paired : Paired start) (reached : Reachable start n) {who : SshRole} {i : Nat}
    {payload : List UInt8} (sent : (n.sent who)[i]? = some payload) (received : i < (n.got who.peer).length) :
    (n.got who.peer)[i]? = some payload := by
  obtain ⟨later, split⟩ := ((sound_reachable paired reached).channel who).got_initial
  rw [← split, List.getElem?_append_left received] at sent
  exact sent

theorem Holds.decodes {kex : SshKexInit} {payload : List UInt8} {s : DecodeState} (holds : Holds s payload)
    (announces : Announces kex payload) :
    ∃ u, kexInitDecode s = .ok () u ∧ u.kex = normal kex ∧ u.mem.buf.rpos = s.mem.buf.len :=
  decode_message announces.encodable holds.valid holds.plenty (holds.unread.trans announces.wire)

/-- In every run of two sessions: the client has sent a KEXINIT as its packet `i`, the server
one as its packet `j`, and both have arrived. Then each end decodes the proposal of the other
with nothing left over, and negotiates exactly as if it had the proposal itself, on any
allocator; with memory, both come to the client-first choice between the two. -/
theorem kexinit_agrees_in_runs (start n : Network) (paired : Paired start) (reached : Reachable start n)
    (c s : SshKexInit) (fromClient fromServer : List UInt8) (announcesClient : Announces c fromClient)
    (announcesServer : Announces s fromServer) (i j : Nat) (sentClient : (n.sent .client)[i]? = some fromClient)
    (sentServer : (n.sent .server)[j]? = some fromServer) (atServer : i < (n.got .server).length)
    (atClient : j < (n.got .client).length) (serverSide clientSide : DecodeState)
    (holdsServer : Holds serverSide ((n.got .server).getD i [])) (holdsClient : Holds clientSide ((n.got .client).getD j [])) :
    ∃ server client, kexInitDecode serverSide = .ok () server ∧ kexInitDecode clientSide = .ok () client ∧
      server.mem.buf.rpos = serverSide.mem.buf.len ∧ client.mem.buf.rpos = clientSide.mem.buf.len ∧
      kexNegotiate c client.kex = kexNegotiate c s ∧ kexNegotiate server.kex s = kexNegotiate c s ∧
      Settles (kexNegotiate c s)
        (if (commonProposal c s).complete then (true, commonProposal c s) else (false, zeroProposal)) := by
  have gotServer : (n.got .server)[i]? = some fromClient := @arrived _ _ paired reached .client _ _ sentClient atServer
  have gotClient : (n.got .client)[j]? = some fromServer := @arrived _ _ paired reached .server _ _ sentServer atClient
  rw [List.getD_eq_getElem?_getD, gotServer] at holdsServer
  rw [List.getD_eq_getElem?_getD, gotClient] at holdsClient
  obtain ⟨server, serverDecoded, serverKex, serverEnd⟩ := holdsServer.decodes announcesClient
  obtain ⟨client, clientDecoded, clientKex, clientEnd⟩ := holdsClient.decodes announcesServer
  refine ⟨server, client, serverDecoded, clientDecoded, serverEnd, clientEnd, ?_, ?_, kexNegotiate_common c s⟩
  · rw [clientKex, kexNegotiate_server_normal]
  · rw [serverKex, kexNegotiate_client_normal]

def clientOffer : SshKexInit :=
  { zeroKexInit with
    cookie := Vector.replicate 16 1
    kexAlgorithms := some DEFAULT_KEX
    serverHostKeyAlgorithms := some DEFAULT_HOSTKEY
    encryptionAlgorithmsClientToServer := some DEFAULT_CIPHERS
    encryptionAlgorithmsServerToClient := some DEFAULT_CIPHERS
    macAlgorithmsClientToServer := some DEFAULT_MACS
    macAlgorithmsServerToClient := some DEFAULT_MACS
    compressionAlgorithmsClientToServer := some DEFAULT_COMP
    compressionAlgorithmsServerToClient := some DEFAULT_COMP }

/-- Another cookie, and the second cipher of the client alone. -/
def serverOffer : SshKexInit :=
  { clientOffer with
    cookie := Vector.replicate 16 2
    encryptionAlgorithmsClientToServer := some (literal "aes256-ctr")
    encryptionAlgorithmsServerToClient := some (literal "aes256-ctr") }

def offer : SshRole → SshKexInit
  | .client => clientOffer
  | .server => serverOffer

def holding (payload : List UInt8) : DecodeState :=
  ⟨⟨[], { data := payload ++ List.replicate 64 0, rpos := 0, len := payload.length, cap := payload.length + 64 }⟩, zeroKexInit⟩

/-- Each party announces its offer as its first packet. -/
def exchanged : Network := relay (relay freshNetwork .client (messageOf clientOffer).wire) .server (messageOf serverOffer).wire

theorem kexinit_agrees_in_runs_default_lists :
    (commonProposal clientOffer serverOffer).cipherC2s = some (literal "aes256-ctr") ∧
    ∃ server client, kexInitDecode (holding (messageOf clientOffer).wire) = .ok () server ∧
      kexInitDecode (holding (messageOf serverOffer).wire) = .ok () client ∧
      server.mem.buf.rpos = (holding (messageOf clientOffer).wire).mem.buf.len ∧
      client.mem.buf.rpos = (holding (messageOf serverOffer).wire).mem.buf.len ∧
      kexNegotiate clientOffer client.kex = kexNegotiate clientOffer serverOffer ∧
      kexNegotiate server.kex serverOffer = kexNegotiate clientOffer serverOffer ∧
      Settles (kexNegotiate clientOffer serverOffer) (true, commonProposal clientOffer serverOffer) := by
  have level : Level freshNetwork := fun _ => ⟨rfl, rfl⟩
  obtain ⟨reached, level, sent, got⟩ :=
    level.relay freshNetwork_paired .start .client (by decide +kernel : Sendable (messageOf clientOffer).wire)
  obtain ⟨reached, -, sent', got'⟩ :=
    level.relay freshNetwork_paired reached .server (by decide +kernel : Sendable (messageOf serverOffer).wire)
  rw [sent] at sent'
  rw [got] at got'
  have sends (who : SshRole) : exchanged.sent who = [(messageOf (offer who)).wire] := by
    rw [exchanged, sent']
    cases who <;> rfl
  have gets (who : SshRole) : exchanged.got who = [(messageOf (offer who.peer)).wire] := by
    rw [exchanged, got']
    cases who <;> rfl
  have complete : (commonProposal clientOffer serverOffer).complete = true := by decide +kernel
  have agreed := kexinit_agrees_in_runs freshNetwork exchanged freshNetwork_paired reached clientOffer serverOffer
    (messageOf clientOffer).wire (messageOf serverOffer).wire (announces_message (by decide +kernel))
    (announces_message (by decide +kernel)) 0 0 (by rw [sends]; rfl) (by rw [sends]; rfl)
    (by rw [gets]; exact Nat.one_pos) (by rw [gets]; exact Nat.one_pos) (holding (messageOf clientOffer).wire)
    (holding (messageOf serverOffer).wire) (by rw [gets]; exact ⟨by decide +kernel, by decide, by decide +kernel⟩)
    (by rw [gets]; exact ⟨by decide +kernel, by decide, by decide +kernel⟩)
  rw [if_pos complete] at agreed
  exact ⟨by decide +kernel, agreed⟩

end Coalesce.KexTransport
