import Coalesce.SessionAuthentic

/-! An encrypted direction without a MAC, as the MAC name `none` sets it up: whoever holds
the stream can change the payload of a packet as he likes. -/

namespace Coalesce.Malleable
open Library Library.CallResult Buffer BufferBytes Net Aes Session SessionReceive SessionDeliver SessionSend SessionAuthentic

def xorBytes (bytes mask : List UInt8) : List UInt8 := List.zipWith (· ^^^ ·) bytes mask

/-- The mask at the place of the payload in its packet. -/
def packetMask (mask padding : List UInt8) : List UInt8 := List.replicate 5 0 ++ mask ++ List.replicate padding.length 0

theorem xorBytes_zero (bytes : List UInt8) : xorBytes bytes (List.replicate bytes.length 0) = bytes := by
  induction bytes with
  | nil => rfl
  | cons byte bytes ih =>
    rw [xorBytes] at *
    rw [List.length_cons, List.replicate_succ, List.zipWith_cons_cons, ih, UInt8.xor_zero]

theorem xorBytes_append {first second mask mask' : List UInt8} (fits : mask.length = first.length) :
    xorBytes (first ++ second) (mask ++ mask') = xorBytes first mask ++ xorBytes second mask' :=
  List.zipWith_append fits.symm

theorem xorBytes_length {bytes mask : List UInt8} (fits : mask.length = bytes.length) :
    (xorBytes bytes mask).length = bytes.length := by
  rw [xorBytes, List.length_zipWith, fits, Nat.min_self]

/-- Header and padding stay, the payload changes. -/
theorem framed_xor {payload padding mask : List UInt8} (fits : mask.length = payload.length) :
    xorBytes (framed payload padding) (packetMask mask padding) = framed (xorBytes payload mask) padding := by
  have header (bytes : List UInt8) (five : bytes.length = 5) : xorBytes bytes (List.replicate 5 0) = bytes := by
    rw [← five]
    exact xorBytes_zero bytes
  have split (p : List UInt8) :
      framed p padding = (be32 (UInt32.ofNat (1 + p.length + padding.length)) ++ [UInt8.ofNat padding.length]) ++ (p ++ padding) := by
    simp only [framed, List.append_assoc]
  have maskSplit : packetMask mask padding = List.replicate 5 0 ++ (mask ++ List.replicate padding.length 0) :=
    List.append_assoc _ _ _
  rw [split, split, maskSplit, xorBytes_append (by rfl), xorBytes_append fits, header _ rfl, xorBytes_zero,
    xorBytes_length fits]

section
variable {d : SshDirection} {payload padding mask : List UInt8}

theorem protect_noMac (encrypted : d.encrypted = true) (noMac : d.macKeyLen.val = 0) (p : List UInt8) :
    protect d p = (aesCtrCrypt d.ctr p).1 := by
  rw [protect, if_pos encrypted, if_neg (by omega), List.append_nil]

theorem protect_xor (encrypted : d.encrypted = true) (noMac : d.macKeyLen.val = 0) (fits : mask.length = payload.length) :
    xorBytes (protect d (framed payload padding)) (packetMask mask padding) = protect d (framed (xorBytes payload mask) padding) := by
  have whole : (packetMask mask padding).length = (framed payload padding).length := by
    rw [framed_length, packetMask, List.length_append, List.length_append, List.length_replicate, List.length_replicate, fits]
  rw [protect_noMac encrypted noMac, protect_noMac encrypted noMac, ← framed_xor fits, aesCtrCrypt_eq, aesCtrCrypt_eq]
  exact (Keystream.crypt_xor ctrKey ctrNext d.ctr whole).symm

/-- The cipher does not look at what it has encrypted. -/
theorem counted_xor (fits : mask.length = payload.length) :
    counted d (framed (xorBytes payload mask) padding) = counted d (framed payload padding) := by
  rw [counted, counted, ctrBehind, ctrBehind, aesCtrCrypt_state, aesCtrCrypt_state, framed_length, framed_length,
    xorBytes_length fits]

end

/-- Any packet of the sender, and any change of its payload: the receiver takes the changed
packet, hands out the changed payload, and is ready for the next packet of the sender. -/
theorem unauthenticated_malleable (d : SshDirection) (encrypted : d.encrypted = true) (noMac : d.macKeyLen.val = 0)
    (payload padding mask rest : List UInt8) (sendable : Sendable payload)
    (pad : padding.length = paddingSize (blockOf d) payload.length) (fits : mask.length = payload.length)
    (s : SessState) (direction : s.sess.inn = d) (valid : Valid s.buf) (plenty : Plenty s.heap)
    (stream : s.sess.sock.rx = xorBytes (protect d (framed payload padding)) (packetMask mask padding) ++ rest) :
    ∃ t, sessionRecv s = .ok () t ∧ contents t.buf = xorBytes payload mask ∧ t.sess.sock.rx = rest ∧
      t.sess.inn = counted d (framed payload padding) := by
  have length := xorBytes_length fits
  have changed : Sendable (xorBytes payload mask) := by rw [Sendable, length]; exact sendable
  have changedPad : padding.length = paddingSize (blockOf d) (xorBytes payload mask).length := by rw [length]; exact pad
  have atMost := (paddingSize_bounds d payload.length).2.1
  obtain ⟨size, limits, good⟩ := framed_accepted d changed changedPad
  rw [protect_xor encrypted noMac fits] at stream
  have incoming := incoming_protect d (framed (xorBytes payload mask) padding) rest size limits
  rw [← stream, ← direction] at incoming
  obtain ⟨t, returned, received⟩ := recv_delivers valid plenty incoming good
  obtain ⟨cuts, sock⟩ := received.sock
  refine ⟨t, returned, ?_, ?_, ?_⟩
  · rw [received.contents, framed_payload (by omega)]
  · rw [sock]
    change s.sess.sock.rx.drop _ = rest
    rw [stream, direction, ← protect_length, List.drop_left]
  · rw [received.inn, direction, ← counted_xor fits]
    rfl

def unauthenticated : SshDirection := { zeroDirection with encrypted := true }

/-- "A" turned into "B". -/
theorem unauthenticated_malleable_letter :
    ∃ t, sessionRecv { freshState (xorBytes (protect unauthenticated (framed [65] (List.replicate 10 0)))
        (packetMask [3] (List.replicate 10 0)) ++ []) with
      sess := { (freshState (xorBytes (protect unauthenticated (framed [65] (List.replicate 10 0)))
        (packetMask [3] (List.replicate 10 0)) ++ [])).sess with inn := unauthenticated } } = .ok () t ∧
      contents t.buf = xorBytes [65] [3] ∧ t.sess.sock.rx = [] ∧
      t.sess.inn = counted unauthenticated (framed [65] (List.replicate 10 0)) :=
  unauthenticated_malleable unauthenticated rfl rfl [65] (List.replicate 10 0) [3] [] (by decide) (by decide) rfl _ rfl
    (by decide : Valid (freshState []).buf) (by decide : Plenty (freshState []).heap) rfl

end Coalesce.Malleable
