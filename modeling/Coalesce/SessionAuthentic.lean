import Coalesce.SessionSend

/-! No payload leaves an encrypted direction with a MAC unless its packet carries
the right tag for its place in the sequence. -/

namespace Coalesce.SessionAuthentic
open Library.CallResult Library.ByteNumber Buffer BufferBytes BufferReaders Net Aes Session SessionReceive SessionDeliver SessionSend

/-- What was consumed between `stream` and `rest` is a ciphertext and its tag under sequence
number `seq`, and the payload is cut out of the decrypted packet. -/
def Authenticated (d : SshDirection) (seq : UInt32) (stream rest payload : List UInt8) : Prop :=
  ∃ c tag p, stream = c ++ tag ++ rest ∧ p = (aesCtrCrypt d.ctr c).1 ∧ c.length = 4 + beNat (p.take 4) ∧
    tag.length = Sha256.SHA256_DIGEST_SIZE ∧
    tag = Library.Sha2.hmacSha256 (d.macKey.toList.take d.macKeyLen.val) (beBytes 4 seq.toNat ++ p) ∧
    ∃ count, 5 + count ≤ p.length ∧ payload = (p.drop 5).take count

/-- The call neither hands out anything nor counts. -/
def AddsNothing (s t : SessState) : Prop :=
  (contents t.buf = contents s.buf ∨ contents t.buf = []) ∧ (Plenty s.heap → t.buf = s.buf) ∧
    t.sess.inn.seq = s.sess.inn.seq

theorem recv_ok {s t : SessState} (valid : Valid s.buf) (returned : sessionRecv s = .ok () t) :
    ∃ p, Incoming s.sess.inn s.sess.sock.rx p ∧ GoodPadding p ∧ Received s t p := by
  have outcome := sessionRecv_outcome valid
  rw [returned] at outcome
  cases outcome with
  | delivered incoming good received => exact ⟨_, incoming, good, received⟩

theorem recv_authenticated {s t : SessState} (valid : Valid s.buf) (encrypted : s.sess.inn.encrypted = true)
    (keyed : 0 < s.sess.inn.macKeyLen.val) (returned : sessionRecv s = .ok () t) :
    Authenticated s.sess.inn s.sess.inn.seq s.sess.sock.rx t.sess.sock.rx (contents t.buf) := by
  obtain ⟨p, incoming, good, received⟩ := recv_ok valid returned
  obtain ⟨cuts, sock⟩ := received.sock
  have mac : macLength s.sess.inn = Sha256.SHA256_DIGEST_SIZE := by simp [macLength, encrypted, keyed]
  have complete := incoming.complete
  have clear := incoming.clear
  have tag := incoming.mac (by rw [mac]; decide)
  rw [clearText, if_pos encrypted] at clear
  refine ⟨s.sess.sock.rx.take p.length, packetTag s.sess.inn p, p, ?_, clear, ?_, packetTag_length _ _, rfl,
    packetLength p - 1 - paddingLength p, ?_, received.contents⟩
  · rw [sock, ← tag, List.append_assoc, mac]
    simp only [Socket.after]
    rw [← List.drop_drop, List.take_append_drop, List.take_append_drop]
  · rw [List.length_take, Nat.min_eq_left (by omega)]
    exact incoming.field
  · have fits := good.2
    unfold packetLength at *
    omega

theorem recv_failed {s t : SessState} (valid : Valid s.buf) (failed : sessionRecv s = .error .fail t) :
    AddsNothing s t := by
  have outcome := sessionRecv_outcome valid
  rw [failed] at outcome
  cases outcome with
  | refused _ buf seq => exact ⟨Or.inl (by rw [buf]), fun _ => buf, seq⟩
  | scarce scarce buf seq =>
    exact ⟨Or.inr (by rw [buf, contents_reset]), fun plenty => absurd plenty scarce, seq⟩

/-- Successful receives one after another; between two of them the stream may grow, but
the direction is left alone. -/
structure ReceiveRun (before after : Nat → SessState) (count : Nat) : Prop where
  valid : ∀ i ≤ count, Valid (before i).buf
  received : ∀ i < count, sessionRecv (before i) = .ok () (after i)
  linked : ∀ i < count, (before (i + 1)).sess.inn = (after i).sess.inn

/-- A receive moves the cipher and the sequence number of its direction by one packet. -/
theorem ReceiveRun.direction {before after : Nat → SessState} {count : Nat} (run : ReceiveRun before after count)
    (i : Nat) (within : i ≤ count) :
    ∃ ctr, (before i).sess.inn =
      { (before 0).sess.inn with ctr := ctr, seq := (before 0).sess.inn.seq + UInt32.ofNat i } := by
  induction i with
  | zero => exact ⟨(before 0).sess.inn.ctr, by simp⟩
  | succ i ih =>
    obtain ⟨ctr, same⟩ := ih (by omega)
    obtain ⟨p, -, -, received⟩ := recv_ok (run.valid i (by omega)) (run.received i (by omega))
    refine ⟨ctrBehind (before i).sess.inn p, ?_⟩
    rw [run.linked i (by omega), received.inn, same]
    simp [UInt32.add_assoc, UInt32.ofNat_add]

/-- In a run of receives the packet with index `i` carries the tag for the sequence number
`i` after the first; a call that fails then adds nothing. -/
theorem payloads_authenticated (before after : Nat → SessState) (count : Nat)
    (run : ReceiveRun before after count) (encrypted : (before 0).sess.inn.encrypted = true)
    (keyed : 0 < (before 0).sess.inn.macKeyLen.val) :
    (∀ i < count, Authenticated (before i).sess.inn ((before 0).sess.inn.seq + UInt32.ofNat i)
      (before i).sess.sock.rx (after i).sess.sock.rx (contents (after i).buf) ∧
      (before i).sess.inn.macKey = (before 0).sess.inn.macKey ∧
      (before i).sess.inn.macKeyLen = (before 0).sess.inn.macKeyLen) ∧
    ∀ t, sessionRecv (before count) = .error .fail t → AddsNothing (before count) t := by
  refine ⟨fun i within => ?_, fun t failed => recv_failed (run.valid count (Nat.le_refl _)) failed⟩
  obtain ⟨ctr, same⟩ := run.direction i (by omega)
  have authenticated := recv_authenticated (run.valid i (by omega)) (by rw [same]; exact encrypted)
    (by rw [same]; exact keyed) (run.received i within)
  have seq : (before i).sess.inn.seq = (before 0).sess.inn.seq + UInt32.ofNat i := by rw [same]
  rw [seq] at authenticated
  exact ⟨authenticated, by rw [same], by rw [same]⟩

/-- The states between receives that follow each other at once. -/
def receiveStates (s : SessState) : Nat → SessState
  | 0 => s
  | i + 1 =>
    match sessionRecv (receiveStates s i) with
    | .ok _ t => t
    | .error _ t => t

/-- A session whose stream holds one packet of its peer. -/
def sealedState (d : SshDirection) (p : List UInt8) : SessState :=
  { freshState (protect d p) with sess := { (freshState (protect d p)).sess with inn := d } }

private theorem sealed_run {d : SshDirection} {p : List UInt8} (size : p.length = 4 + beNat (p.take 4))
    (limits : WithinLimits d (p.length - 4)) (good : GoodPadding p) :
    ReceiveRun (receiveStates (sealedState d p)) (fun i => receiveStates (sealedState d p) (i + 1)) 1 := by
  have fresh : Valid (sealedState d p).buf := (by decide : Valid (freshState []).buf)
  have plenty : Plenty (sealedState d p).heap := (by decide : Plenty (freshState []).heap)
  have incoming := incoming_protect d p [] size limits
  rw [List.append_nil] at incoming
  obtain ⟨t, returned, received⟩ := recv_delivers (s := sealedState d p) fresh plenty incoming good
  have next : receiveStates (sealedState d p) 1 = t := by simp only [receiveStates, returned]
  refine ⟨fun i within => ?_, fun i within => ?_, fun _ _ => rfl⟩
  · rcases i with _ | _ | i
    · exact fresh
    · rw [next]
      exact received.valid
    · omega
  · obtain rfl : i = 0 := by omega
    rw [next]
    exact returned

def sealedDirection : SshDirection := { zeroDirection with encrypted := true, macKeyLen := Fin.last SSH_MAC_KEY_MAX }

def sealedPacket : List UInt8 := framed [42] (List.replicate 10 0)

theorem payloads_authenticated_one_packet :
    (∀ i < 1, Authenticated (receiveStates (sealedState sealedDirection sealedPacket) i).sess.inn
      ((receiveStates (sealedState sealedDirection sealedPacket) 0).sess.inn.seq + UInt32.ofNat i)
      (receiveStates (sealedState sealedDirection sealedPacket) i).sess.sock.rx
      (receiveStates (sealedState sealedDirection sealedPacket) (i + 1)).sess.sock.rx
      (contents (receiveStates (sealedState sealedDirection sealedPacket) (i + 1)).buf) ∧
      (receiveStates (sealedState sealedDirection sealedPacket) i).sess.inn.macKey =
        (receiveStates (sealedState sealedDirection sealedPacket) 0).sess.inn.macKey ∧
      (receiveStates (sealedState sealedDirection sealedPacket) i).sess.inn.macKeyLen =
        (receiveStates (sealedState sealedDirection sealedPacket) 0).sess.inn.macKeyLen) ∧
    ∀ t, sessionRecv (receiveStates (sealedState sealedDirection sealedPacket) 1) = .error .fail t →
      AddsNothing (receiveStates (sealedState sealedDirection sealedPacket) 1) t :=
  payloads_authenticated _ _ 1 (sealed_run (by decide) (by decide) (by decide))
    (by rw [receiveStates, sealedState, sealedDirection]) (by rw [receiveStates, sealedState, sealedDirection]; decide)

end Coalesce.SessionAuthentic
