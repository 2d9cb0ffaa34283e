import Coalesce.PacketSend

/-! Two layers that speak one plaintext format: packet.c, and session.c before keys are
active. Each writes packets that both read. -/

namespace Coalesce.Layers
open Library.CallResult Buffer BufferBytes Net Session SessionReceive SessionDeliver SessionSend Packet PacketReceive PacketSend

inductive Layer where
  | packet (blockSize : Nat)
  | session
  deriving DecidableEq, Repr

/-- One end of a connection in the hands of both layers. -/
structure Endpoint where
  heap : Heap
  sess : SshSession
  buf : SshBuf
  pkt : SshPkt
  seq : Option UInt32
  deriving DecidableEq, Repr

def onPacket {α : Type} (call : PktCall α) : Call Endpoint α :=
  zoom (fun e => ⟨e.heap, e.sess.sock, e.pkt, e.seq⟩)
    (fun t e => { e with heap := t.heap, sess := { e.sess with sock := t.sock }, pkt := t.pkt, seq := t.seq }) call

def onSession {α : Type} (call : SessCall α) : Call Endpoint α :=
  zoom (fun e => ⟨e.heap, e.sess, e.buf⟩) (fun t e => { e with heap := t.heap, sess := t.sess, buf := t.buf }) call

def sendBy (rand : (n : Nat) → Option (Vector UInt8 n)) (layer : Layer) (payload : List UInt8) : Call Endpoint Unit :=
  match layer with
  | .packet blockSize => onPacket (pktSend rand (some payload) payload.length blockSize)
  | .session => onSession (sessionSend rand (some payload) payload.length)

/-- The payload that the layer hands out. -/
def recvBy (layer : Layer) : Call Endpoint (List UInt8) :=
  match layer with
  | .packet blockSize => do
    onPacket (pktRecv blockSize)
    let e ← get
    pure (contents e.pkt.payload)
  | .session => do
    onSession sessionRecv
    let e ← get
    pure (contents e.buf)

def sendAll (rand : (n : Nat) → Option (Vector UInt8 n)) : List (Layer × List UInt8) → Call Endpoint Unit
  | [] => pure ()
  | (layer, payload) :: outgoing => do
    sendBy rand layer payload
    sendAll rand outgoing

def recvAll : List Layer → Call Endpoint (List (List UInt8))
  | [] => pure []
  | layer :: layers => do
    let payload ← recvBy layer
    let payloads ← recvAll layers
    pure (payload :: payloads)

/-- A payload of one byte at least, within the limits of the layer that sends it. -/
def Admissible (layer : Layer) (payload : List UInt8) : Prop :=
  match layer with
  | .packet blockSize => 1 ≤ payload.length ∧ Fits blockSize payload.length
  | .session => Sendable payload

/-- Memory, and a socket that takes bytes; no keys. -/
structure Sends (e : Endpoint) : Prop where
  plenty : Plenty e.heap
  accepting : Accepting e.sess.sock
  plain : e.sess.out.encrypted = false

/-- Memory, and buffers in order; no keys. -/
structure Receives (e : Endpoint) : Prop where
  plenty : Plenty e.heap
  valid : Valid e.buf
  payload : Valid e.pkt.payload
  plain : e.sess.inn.encrypted = false

/-- A packet that both receivers take. -/
structure Frames (payload p : List UInt8) : Prop where
  form : ∃ padding, p = framed payload padding ∧ 4 ≤ padding.length ∧ padding.length ≤ 255 ∧
    1 + payload.length + padding.length ≤ MAX_PACKET_SIZE
  some_bytes : 1 ≤ payload.length

theorem onPacket_of_ok {α : Type} {call : PktCall α} {e : Endpoint} {t : PktState} {value : α}
    (returned : call ⟨e.heap, e.sess.sock, e.pkt, e.seq⟩ = .ok value t) :
    onPacket call e =
      .ok value { e with heap := t.heap, sess := { e.sess with sock := t.sock }, pkt := t.pkt, seq := t.seq } :=
  zoom_of_ok returned

theorem onSession_of_ok {α : Type} {call : SessCall α} {e : Endpoint} {t : SessState} {value : α}
    (returned : call ⟨e.heap, e.sess, e.buf⟩ = .ok value t) :
    onSession call e = .ok value { e with heap := t.heap, sess := t.sess, buf := t.buf } := zoom_of_ok returned

/-! One packet out. -/

theorem pktWriteFull_whole (s : PktState) (bytes : List UInt8) (accepting : Accepting s.sock) :
    ∃ plan, pktWriteFull bytes s = .ok () { s with sock := { s.sock with tx := s.sock.tx ++ bytes, txPlan := plan } } ∧
      ∀ step ∈ plan, step ≠ none := by
  obtain ⟨plan, written, clear⟩ := netWriteFull_whole s.sock bytes accepting
  have passes : (decide ((bytes.length : Int) < 0) || decide ((bytes.length : Int) ≠ bytes.length)) = false := by simp
  refine ⟨plan, ?_, clear⟩
  rw [pktWriteFull, bind_of_ok (get_apply s), written, bind_of_ok (set_apply _ _), passes, failIf_false]

theorem pktSend_frames {rand : (n : Nat) → Option (Vector UInt8 n)} (entropy : ∀ n, (rand n).isSome) {payload : List UInt8}
    {blockSize : Nat} (some_bytes : 1 ≤ payload.length) (fits : Fits blockSize payload.length) {s : PktState}
    (plenty : Plenty s.heap) (accepting : Accepting s.sock) :
    ∃ t p, pktSend rand (some payload) payload.length blockSize s = .ok () t ∧ Frames payload p ∧
      t.sock.tx = s.sock.tx ++ p ∧ Plenty t.heap ∧ Accepting t.sock := by
  obtain ⟨least, most, blocks, limit⟩ := padLen_least fits
  rw [pktSend, Option.isNone_some, Bool.false_and, bind_of_ok (failIf_false s)]
  simp only
  rcases onPayload_alloc_cases s with ⟨heap, granted, keeps⟩ | ⟨scarce, -⟩
  swap
  · exact absurd plenty scarce
  obtain ⟨padding, drawn⟩ := Option.isSome_iff_exists.mp (entropy (padLen (blockSizeOf blockSize) payload.length))
  have pad : padding.toList.length = padLen (blockSizeOf blockSize) payload.length := Vector.length_toList
  have whole := wireBytes_framed pad fits
  obtain ⟨plan, written, clear⟩ := pktWriteFull_whole { s with heap := heap } (framed payload padding.toList) accepting
  have wire : (be32 (UInt32.ofNat (1 + payload.length + padLen (blockSizeOf blockSize) payload.length)) ++
      [UInt8.ofNat (padLen (blockSizeOf blockSize) payload.length)] ++ payload.take payload.length ++ padding.toList).take
        (4 + UInt32.ofNat (1 + payload.length + padLen (blockSizeOf blockSize) payload.length)).toNat =
      framed payload padding.toList := by
    rw [← whole, wireBytes, framed, pad, List.take_length]
  rw [bind_of_ok granted, drawn]
  simp only [Option.getD_some, wire]
  rw [bind_of_ok written]
  exact ⟨_, _, rfl, ⟨⟨padding.toList, rfl, by omega, by omega, by omega⟩, some_bytes⟩, rfl, keeps plenty, clear⟩

theorem sessionSend_frames {rand : (n : Nat) → Option (Vector UInt8 n)} (entropy : ∀ n, (rand n).isSome) {payload : List UInt8}
    (sendable : Sendable payload) {s : SessState} (plenty : Plenty s.heap) (accepting : Accepting s.sess.sock)
    (plain : s.sess.out.encrypted = false) :
    ∃ t p, sessionSend rand (some payload) payload.length s = .ok () t ∧ Frames payload p ∧
      t.sess.sock.tx = s.sess.sock.tx ++ p ∧ Plenty t.heap ∧ Accepting t.sess.sock ∧ t.sess.out.encrypted = false := by
  obtain ⟨padding, drawn⟩ := Option.isSome_iff_exists.mp (entropy (paddingSize (blockOf s.sess.out) payload.length))
  obtain ⟨t, returned, sent⟩ := sessionSend_ok plenty accepting sendable drawn
  obtain ⟨least, most, -⟩ := paddingSize_bounds s.sess.out payload.length
  have pad : padding.toList.length = paddingSize (blockOf s.sess.out) payload.length := Vector.length_toList
  obtain ⟨some_bytes, short⟩ := sendable
  unfold MAX_PAYLOAD_SIZE at short
  have limit : 1 + payload.length + padding.toList.length ≤ MAX_PACKET_SIZE := by
    unfold MAX_PACKET_SIZE
    omega
  refine ⟨t, framed payload padding.toList, returned, ⟨⟨padding.toList, rfl, by omega, by omega, limit⟩, some_bytes⟩, ?_,
    sent.plenty plenty, sent.accepting, ?_⟩
  · rw [sent.tx, protect, if_neg (by rw [plain]; decide)]
  · rw [sent.out]
    exact plain

theorem sendBy_frames {rand : (n : Nat) → Option (Vector UInt8 n)} (entropy : ∀ n, (rand n).isSome) {layer : Layer}
    {payload : List UInt8} (admissible : Admissible layer payload) {e : Endpoint} (sends : Sends e) :
    ∃ t p, sendBy rand layer payload e = .ok () t ∧ Frames payload p ∧ t.sess.sock.tx = e.sess.sock.tx ++ p ∧ Sends t := by
  cases layer with
  | packet blockSize =>
    obtain ⟨t, p, returned, frames, tx, plenty, accepting⟩ := pktSend_frames entropy admissible.1 admissible.2
      (s := ⟨e.heap, e.sess.sock, e.pkt, e.seq⟩) sends.plenty sends.accepting
    exact ⟨_, p, onPacket_of_ok returned, frames, tx, plenty, accepting, sends.plain⟩
  | session =>
    obtain ⟨t, p, returned, frames, tx, plenty, accepting, plain⟩ := sessionSend_frames entropy admissible
      (s := ⟨e.heap, e.sess, e.buf⟩) sends.plenty sends.accepting sends.plain
    exact ⟨_, p, onSession_of_ok returned, frames, tx, plenty, accepting, plain⟩

/-! One packet in. -/

theorem sessionRecv_takes {payload p rest : List UInt8} (frames : Frames payload p) {s : SessState} (valid : Valid s.buf)
    (plenty : Plenty s.heap) (plain : s.sess.inn.encrypted = false) (stream : s.sess.sock.rx = p ++ rest) :
    ∃ t, sessionRecv s = .ok () t ∧ contents t.buf = payload ∧ t.sess.sock.rx = rest ∧ Valid t.buf ∧ Plenty t.heap ∧
      t.sess.inn.encrypted = false := by
  obtain ⟨⟨padding, rfl, least, most, limit⟩, some_bytes⟩ := frames
  have whole := whole_framed rest least limit
  have length := framed_length payload padding
  have recorded := @framed_padding payload padding (by omega)
  have incoming : Incoming s.sess.inn s.sess.sock.rx (framed payload padding) := by
    rw [stream]
    refine (incoming_plain plain).mpr ⟨whole, ?_⟩
    unfold packetLength
    omega
  have good : GoodPadding (framed payload padding) := by
    unfold GoodPadding MIN_PADDING_SIZE packetLength
    omega
  obtain ⟨t, returned, received⟩ := recv_delivers valid plenty incoming good
  obtain ⟨cuts, sock⟩ := received.sock
  have noMac : macLength s.sess.inn = 0 := by simp [macLength, plain]
  refine ⟨t, returned, by rw [received.contents, framed_payload (by omega)], ?_, received.valid, received.plenty plenty, ?_⟩
  · rw [sock, noMac]
    change s.sess.sock.rx.drop _ = rest
    rw [stream, Nat.add_zero, List.drop_left]
  · rw [received.inn]
    exact plain

theorem recvBy_takes (layer : Layer) {payload p rest : List UInt8} (frames : Frames payload p) {e : Endpoint}
    (receives : Receives e) (stream : e.sess.sock.rx = p ++ rest) :
    ∃ t, recvBy layer e = .ok payload t ∧ t.sess.sock.rx = rest ∧ Receives t := by
  cases layer with
  | packet blockSize =>
    obtain ⟨⟨padding, rfl, least, most, limit⟩, -⟩ := frames
    obtain ⟨t, returned, taken, delivered, left⟩ := framed_taken blockSize (r := ⟨e.heap, e.sess.sock, e.pkt, e.seq⟩) least most
      limit receives.payload receives.plenty stream
    have call : recvBy (.packet blockSize) e = .ok (contents t.pkt.payload)
        { e with heap := t.heap, sess := { e.sess with sock := t.sock }, pkt := t.pkt, seq := t.seq } := by
      rw [recvBy, bind_of_ok (onPacket_of_ok returned)]
      rfl
    rw [delivered] at call
    exact ⟨_, call, left, taken.plenty receives.plenty, receives.valid, taken.valid, receives.plain⟩
  | session =>
    obtain ⟨t, returned, delivered, left, valid, plenty, plain⟩ := sessionRecv_takes frames
      (s := ⟨e.heap, e.sess, e.buf⟩) receives.valid receives.plenty receives.plain stream
    have call : recvBy .session e = .ok (contents t.buf) { e with heap := t.heap, sess := t.sess, buf := t.buf } := by
      rw [recvBy, bind_of_ok (onSession_of_ok returned)]
      rfl
    rw [delivered] at call
    exact ⟨_, call, left, plenty, valid, receives.payload, plain⟩

/-! Whole streams. -/

/-- The wire carries these payloads, a packet each. -/
inductive Carries : List (List UInt8) → List UInt8 → Prop
  | none : Carries [] []
  | more {payload p wire : List UInt8} {payloads : List (List UInt8)} (frames : Frames payload p)
      (carries : Carries payloads wire) : Carries (payload :: payloads) (p ++ wire)

theorem sendAll_carries {rand : (n : Nat) → Option (Vector UInt8 n)} (entropy : ∀ n, (rand n).isSome)
    (outgoing : List (Layer × List UInt8)) (admissible : ∀ sent ∈ outgoing, Admissible sent.1 sent.2) {e : Endpoint}
    (sends : Sends e) : ∃ t wire, sendAll rand outgoing e = .ok () t ∧ t.sess.sock.tx = e.sess.sock.tx ++ wire ∧
      Carries (outgoing.map Prod.snd) wire := by
  induction outgoing generalizing e with
  | nil => exact ⟨e, [], rfl, (List.append_nil _).symm, .none⟩
  | cons sent outgoing ih =>
    obtain ⟨u, p, returned, frames, tx, sends'⟩ := sendBy_frames entropy (admissible sent List.mem_cons_self) sends
    obtain ⟨t, wire, rest, tx', carries⟩ := ih (fun other member => admissible other (List.mem_cons_of_mem _ member)) sends'
    refine ⟨t, p ++ wire, ?_, by rw [tx', tx, List.append_assoc], .more frames carries⟩
    rw [sendAll, bind_of_ok returned, rest]

theorem recvAll_takes {payloads : List (List UInt8)} {wire : List UInt8} (carries : Carries payloads wire)
    (layers : List Layer) (same : layers.length = payloads.length) {e : Endpoint} (receives : Receives e) {rest : List UInt8}
    (stream : e.sess.sock.rx = wire ++ rest) : ∃ t, recvAll layers e = .ok payloads t ∧ t.sess.sock.rx = rest := by
  induction carries generalizing layers e with
  | none =>
    rw [List.eq_nil_of_length_eq_zero same]
    exact ⟨e, rfl, stream⟩
  | more frames carries ih =>
    obtain ⟨layer, layers, rfl⟩ := List.exists_cons_of_length_eq_add_one same
    rw [List.append_assoc] at stream
    obtain ⟨u, returned, left, receives'⟩ := recvBy_takes layer frames receives stream
    obtain ⟨t, taken, behind⟩ := ih layers (Nat.succ.inj same) receives' left
    refine ⟨t, ?_, behind⟩
    rw [recvAll, bind_of_ok returned, bind_of_ok taken]
    rfl

/-- However two ends that have no keys share their packets out between the two layers: what
is sent arrives in order, and nothing of the stream behind it is touched. -/
theorem layers_interoperate (rand : (n : Nat) → Option (Vector UInt8 n)) (entropy : ∀ n, (rand n).isSome)
    (outgoing : List (Layer × List UInt8)) (admissible : ∀ sent ∈ outgoing, Admissible sent.1 sent.2) (e : Endpoint)
    (sends : Sends e) :
    ∃ t wire, sendAll rand outgoing e = .ok () t ∧ t.sess.sock.tx = e.sess.sock.tx ++ wire ∧
      ∀ (layers : List Layer) (r : Endpoint) (rest : List UInt8), layers.length = outgoing.length → Receives r →
        r.sess.sock.rx = wire ++ rest → ∃ u, recvAll layers r = .ok (outgoing.map Prod.snd) u ∧ u.sess.sock.rx = rest := by
  obtain ⟨t, wire, returned, tx, carries⟩ := sendAll_carries entropy outgoing admissible sends
  refine ⟨t, wire, returned, tx, fun layers r rest same receives stream => ?_⟩
  exact recvAll_takes carries layers (by rw [List.length_map, same]) receives stream

def freshEndpoint : Endpoint :=
  { heap := [], sess := (freshState []).sess, buf := (freshState []).buf, pkt := (freshPacket []).pkt, seq := some 0 }

theorem layers_interoperate_two_packets :
    ∃ t wire, sendAll zeroEntropy [(.packet 8, [42]), (.session, [43])] freshEndpoint = .ok () t ∧
      t.sess.sock.tx = freshEndpoint.sess.sock.tx ++ wire ∧
      ∀ (layers : List Layer) (r : Endpoint) (rest : List UInt8), layers.length = 2 → Receives r →
        r.sess.sock.rx = wire ++ rest → ∃ u, recvAll layers r = .ok [[42], [43]] u ∧ u.sess.sock.rx = rest := by
  have admissible : ∀ sent ∈ [(Layer.packet 8, [(42 : UInt8)]), (.session, [43])], Admissible sent.1 sent.2 := by
    intro sent member
    rcases List.mem_cons.mp member with rfl | member
    · exact ⟨Nat.le_refl 1, 10, by decide, by decide, by decide, by decide⟩
    · rw [List.mem_singleton.mp member]
      exact ⟨Nat.le_refl 1, by decide⟩
  exact layers_interoperate zeroEntropy (fun _ => rfl) [(.packet 8, [42]), (.session, [43])] admissible freshEndpoint
    ⟨by decide, by decide, rfl⟩

end Coalesce.Layers
