import Coalesce.SessionDeliver

/-! What `session_send` puts on the wire, and that a receiver in the same state
finds it there. -/

namespace Coalesce.SessionSend
open Library.CallResult Library.ByteNumber Buffer BufferBytes BufferReaders Net Aes Session SessionReceive SessionDeliver

/-- Header, payload and padding. -/
def framed (payload padding : List UInt8) : List UInt8 :=
  be32 (UInt32.ofNat (1 + payload.length + padding.length)) ++ [UInt8.ofNat padding.length] ++ payload ++ padding

/-- The bytes of one packet on the wire. -/
def protect (d : SshDirection) (p : List UInt8) : List UInt8 :=
  if d.encrypted then (aesCtrCrypt d.ctr p).1 ++ (if d.macKeyLen.val > 0 then packetTag d p else []) else p

/-- The direction after one packet. -/
def counted (d : SshDirection) (p : List UInt8) : SshDirection := { d with ctr := ctrBehind d p, seq := d.seq + 1 }

theorem protect_length (d : SshDirection) (p : List UInt8) : (protect d p).length = p.length + macLength d := by
  unfold protect macLength
  by_cases encrypted : d.encrypted = true
  · by_cases keyed : d.macKeyLen.val > 0
    · simp [encrypted, keyed, packetTag_length]
    · simp [encrypted, keyed]
  · simp [encrypted]

/-- Decrypting the front of a protected packet gives the packet. -/
theorem clearText_protect (d : SshDirection) (p rest : List UInt8) :
    clearText d ((protect d p ++ rest).take p.length) = p := by
  unfold clearText protect
  by_cases encrypted : d.encrypted = true
  · rw [if_pos encrypted, if_pos encrypted, List.append_assoc,
      List.take_append_of_le_length (by rw [aesCtrCrypt_length]),
      List.take_of_length_le (by rw [aesCtrCrypt_length]), aesCtrCrypt_crypt]
  · rw [if_neg encrypted, if_neg encrypted, List.take_left]

theorem incoming_protect (d : SshDirection) (p rest : List UInt8) (size : p.length = 4 + beNat (p.take 4))
    (limits : WithinLimits d (p.length - 4)) : Incoming d (protect d p ++ rest) p := by
  refine ⟨?_, (clearText_protect d p rest).symm, size, limits, fun active => ?_⟩
  · rw [List.length_append, protect_length]
    omega
  · unfold macLength at active
    split at active
    · next mode =>
      rw [protect, if_pos mode.1, if_pos mode.2, List.append_assoc]
      rw [show p.length = (aesCtrCrypt d.ctr p).1.length by rw [aesCtrCrypt_length], List.drop_left,
        List.take_append_of_le_length (by rw [packetTag_length]),
        List.take_of_length_le (by rw [packetTag_length])]
    · omega

/-! Framing. -/

/-- Bounds on the payload of one packet. -/
def Sendable (payload : List UInt8) : Prop := 1 ≤ payload.length ∧ payload.length ≤ MAX_PAYLOAD_SIZE

instance (payload : List UInt8) : Decidable (Sendable payload) :=
  inferInstanceAs (Decidable (1 ≤ payload.length ∧ payload.length ≤ MAX_PAYLOAD_SIZE))

theorem blockOf_cases (d : SshDirection) :
    d.encrypted = true ∧ blockOf d = 16 ∨ d.encrypted = false ∧ blockOf d = 8 := by
  unfold blockOf SSH_CIPHER_BLOCK SSH_PLAIN_BLOCK
  cases d.encrypted <;> simp

theorem paddingSize_bounds (d : SshDirection) (len : Nat) :
    4 ≤ paddingSize (blockOf d) len ∧ paddingSize (blockOf d) len ≤ 19 ∧
      (5 + len + paddingSize (blockOf d) len) % blockOf d = 0 := by
  unfold paddingSize MIN_PADDING_SIZE
  rcases blockOf_cases d with ⟨-, block⟩ | ⟨-, block⟩ <;> rw [block] <;> simp only <;> split <;> omega

theorem framed_length (payload padding : List UInt8) :
    (framed payload padding).length = 5 + payload.length + padding.length := by
  simp only [framed, List.length_append, be32_length, List.length_singleton]

theorem framed_field {payload padding : List UInt8} (short : 1 + payload.length + padding.length < 2 ^ 32) :
    beNat ((framed payload padding).take 4) = 1 + payload.length + padding.length := by
  rw [framed, List.append_assoc, List.append_assoc, List.take_append_of_le_length (by simp),
    List.take_of_length_le (by simp), be32_eq, beNat_beBytes, UInt32.toNat_ofNat_of_lt' short,
    Nat.mod_eq_of_lt (by omega)]

theorem framed_padding {payload padding : List UInt8} (short : padding.length < 256) :
    paddingLength (framed payload padding) = padding.length := by
  rw [paddingLength, framed]
  simp [be32, Nat.mod_eq_of_lt short]

theorem framed_payload {payload padding : List UInt8} (short : padding.length < 256) :
    payloadOf (framed payload padding) = payload := by
  rw [payloadOf, packetLength, framed_length, framed_padding short]
  have front : (framed payload padding).drop 5 = payload ++ padding := by
    rw [framed]
    simp [be32]
  rw [front, List.take_append_of_le_length (by omega), List.take_of_length_le (by omega)]

/-- The packet that a direction makes of a payload is one that its peer accepts. -/
theorem framed_accepted (d : SshDirection) {payload padding : List UInt8} (sendable : Sendable payload)
    (pad : padding.length = paddingSize (blockOf d) payload.length) :
    (framed payload padding).length = 4 + beNat ((framed payload padding).take 4) ∧
      WithinLimits d ((framed payload padding).length - 4) ∧ GoodPadding (framed payload padding) := by
  obtain ⟨atLeast, atMost, multiple⟩ := paddingSize_bounds d payload.length
  obtain ⟨some_bytes, short⟩ := sendable
  rw [← pad] at atLeast atMost multiple
  unfold MAX_PAYLOAD_SIZE at short
  refine ⟨?_, ?_, ?_⟩
  · rw [framed_field (by omega), framed_length]
    omega
  · rw [framed_length]
    unfold WithinLimits MAX_PACKET_SIZE
    rcases blockOf_cases d with ⟨encrypted, block⟩ | ⟨plain, block⟩
    · rw [if_pos encrypted]
      rw [block] at multiple
      omega
    · rw [if_neg (by rw [plain]; decide)]
      rw [block] at multiple
      omega
  · unfold GoodPadding packetLength MIN_PADDING_SIZE
    rw [framed_padding (by omega), framed_length]
    omega

/-! The call. -/

/-- The state after packet `p` has been sent. -/
structure Sent (s t : SessState) (p : List UInt8) : Prop where
  buf : t.buf = s.buf
  plenty : Plenty s.heap → Plenty t.heap
  inn : t.sess.inn = s.sess.inn
  out : t.sess.out = counted s.sess.out p
  rx : t.sess.sock.rx = s.sess.sock.rx
  tx : t.sess.sock.tx = s.sess.sock.tx ++ protect s.sess.out p
  accepting : Accepting t.sess.sock

theorem writeFull_ok (s : SessState) (bytes : List UInt8) (accepting : Accepting s.sess.sock) :
    ∃ plan, writeFull bytes s = .ok () { s with sess := { s.sess with
        sock := { s.sess.sock with tx := s.sess.sock.tx ++ bytes, txPlan := plan } } } ∧
      ∀ step ∈ plan, step ≠ none := by
  obtain ⟨plan, written, clear⟩ := netWriteFull_whole s.sess.sock bytes accepting
  refine ⟨plan, ?_, clear⟩
  rw [writeFull, bind_of_ok (get_apply s), written, bind_of_ok (set_apply _ _)]
  simp only [ne_eq, not_true_eq_false, decide_false]
  rfl

theorem sendPacket_ok {s : SessState} {p : List UInt8} (accepting : Accepting s.sess.sock) (short : p.length < 2 ^ 32) :
    ∃ t, sendPacket p s = .ok () t ∧ Sent s t p := by
  rw [sendPacket, bind_of_ok (get_apply s)]
  by_cases encrypted : s.sess.out.encrypted = true
  · simp only [if_pos encrypted]
    obtain ⟨plan, written, clear⟩ := writeFull_ok
      { s with sess := { s.sess with out := { s.sess.out with ctr := (aesCtrCrypt s.sess.out.ctr p).2 } } }
      ((aesCtrCrypt s.sess.out.ctr p).1 ++ if s.sess.out.macKeyLen.val > 0 then packetMac s.sess.out p else []) accepting
    refine ⟨_, bind_of_ok (show cryptOut p s = _ from rfl) |>.trans (bind_of_ok written), rfl, id, rfl, ?_, rfl, ?_, clear⟩
    · simp [counted, ctrBehind, encrypted]
    · rw [protect, if_pos encrypted, packetMac_eq _ short]
  · simp only [if_neg encrypted]
    obtain ⟨plan, written, clear⟩ := writeFull_ok s p accepting
    refine ⟨_, bind_of_ok written, rfl, id, rfl, ?_, rfl, ?_, clear⟩
    · simp [counted, ctrBehind, encrypted]
    · rw [protect, if_neg encrypted]

/-- With memory, entropy and a socket that takes bytes, every payload in bounds is sent. -/
theorem sessionSend_ok {s : SessState} {rand : (n : Nat) → Option (Vector UInt8 n)} {payload : List UInt8}
    {padding : Vector UInt8 (paddingSize (blockOf s.sess.out) payload.length)} (plenty : Plenty s.heap)
    (accepting : Accepting s.sess.sock) (sendable : Sendable payload) (entropy : rand _ = some padding) :
    ∃ t, sessionSend rand (some payload) payload.length s = .ok () t ∧ Sent s t (framed payload padding.toList) := by
  obtain ⟨atLeast, atMost, -⟩ := paddingSize_bounds s.sess.out payload.length
  have bounds := sendable
  unfold Sendable MAX_PAYLOAD_SIZE at bounds
  have accepted : ((some payload).isNone || decide (payload.length = 0) || decide (payload.length > MAX_PAYLOAD_SIZE)) = false := by
    rw [Option.isNone_some, Bool.false_or, Bool.or_eq_false_iff, decide_eq_false_iff_not, decide_eq_false_iff_not,
      MAX_PAYLOAD_SIZE]
    omega
  have length : (UInt32.ofNat (1 + payload.length + paddingSize (blockOf s.sess.out) payload.length)).toNat =
      1 + payload.length + paddingSize (blockOf s.sess.out) payload.length :=
    UInt32.toNat_ofNat_of_lt' (by unfold UInt32.size; omega)
  have fits : ¬4 + (1 + payload.length + paddingSize (blockOf s.sess.out) payload.length) > MAX_PACKET_SIZE := by
    unfold MAX_PACKET_SIZE
    omega
  rcases onBuf_alloc_cases s with ⟨heap, given, keeps⟩ | ⟨-, -, scarce⟩
  swap
  · exact absurd plenty scarce
  obtain ⟨t, sent, same⟩ := sendPacket_ok (s := { s with heap := heap }) (p := framed payload padding.toList) accepting (by
    rw [framed_length, Vector.length_toList]
    omega)
  refine ⟨t, ?_, same.buf, fun plenty => same.plenty (keeps plenty), same.inn, same.out, same.rx, same.tx, same.accepting⟩
  rw [sessionSend, accepted, bind_of_ok (failIf_false s), bind_of_ok (get_apply s)]
  simp only [length]
  rw [decide_eq_false fits, bind_of_ok (failIf_false s), bind_of_ok given, entropy]
  simp only [Option.getD_some, List.take_length]
  rw [framed, Vector.length_toList] at sent
  exact sent

end Coalesce.SessionSend
