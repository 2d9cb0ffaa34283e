import Coalesce.PacketReceive
import Coalesce.SessionSend

/-! What `pkt_send` puts on the wire, and when `pkt_recv` takes it: neither the
padding length nor the packet length is checked before they are written. -/

namespace Coalesce.PacketSend
open Library.CallResult Library.ByteNumber Buffer BufferBytes BufferReaders Net Session SessionReceive SessionSend Packet PacketReceive

/-- A packet with its padding length recorded, filling whole blocks, that the receiver takes
off the stream and counts. -/
structure Conforms (blockSize : Nat) (payload wire : List UInt8) : Prop where
  form : ∃ header padding : List UInt8, wire = header ++ [UInt8.ofNat padding.length] ++ payload ++ padding ∧
    header.length = 4 ∧ 4 ≤ padding.length ∧ padding.length ≤ 255
  multiple : max blockSize 8 ∣ wire.length
  received : ∀ (r : PktState) (rest : List UInt8), Valid r.pkt.payload → Plenty r.heap → r.sock.rx = wire ++ rest →
    ∃ u, pktRecv blockSize r = .ok () u ∧ contents u.pkt.payload = payload ∧ u.sock.rx = rest ∧
      u.seq = r.seq.map (· + 1)

/-- A padding length of one byte that fills the last block of a packet within the limit. -/
def Fits (blockSize payloadLen : Nat) : Prop :=
  ∃ pad, 4 ≤ pad ∧ pad ≤ 255 ∧ max blockSize 8 ∣ 5 + payloadLen + pad ∧ 1 + payloadLen + pad ≤ MAX_PACKET_SIZE

/-! The padding is the least that fills the block. -/

theorem blockSizeOf_eq (blockSize : Nat) : blockSizeOf blockSize = max blockSize 8 := by
  unfold blockSizeOf
  split <;> omega

theorem padLen_least {blockSize payloadLen : Nat} (fits : Fits blockSize payloadLen) :
    4 ≤ padLen (blockSizeOf blockSize) payloadLen ∧ padLen (blockSizeOf blockSize) payloadLen ≤ 255 ∧
      max blockSize 8 ∣ 5 + payloadLen + padLen (blockSizeOf blockSize) payloadLen ∧
      1 + payloadLen + padLen (blockSizeOf blockSize) payloadLen ≤ MAX_PACKET_SIZE := by
  obtain ⟨pad, least, most, ⟨count, blocks⟩, limit⟩ := fits
  rw [blockSizeOf_eq]
  have eight : 8 ≤ max blockSize 8 := Nat.le_max_right _ _
  generalize max blockSize 8 = block at *
  unfold MAX_PACKET_SIZE at *
  have small : block ≤ 35004 := by
    have some_block : count ≠ 0 := by
      rintro rfl
      omega
    calc block ≤ block * count := Nat.le_mul_of_pos_right _ (Nat.pos_of_ne_zero some_block)
      _ ≤ 35004 := by omega
  have word : (4 + 1 + payloadLen) % SIZE_MAX_SUCC = 5 + payloadLen := Nat.mod_eq_of_lt (by unfold SIZE_MAX_SUCC; omega)
  have division := Nat.div_add_mod (5 + payloadLen) block
  have remainder := Nat.mod_lt (5 + payloadLen) (show 0 < block by omega)
  unfold padLen MIN_PADDING_SIZE
  simp only [word]
  generalize (5 + payloadLen) % block = excess at *
  generalize (5 + payloadLen) / block = whole at *
  have further (k : Nat) : block * whole + block * k = block * (whole + k) := by rw [Nat.mul_add]
  have wrap : (block - excess + block) % SIZE_MAX_SUCC = block - excess + block :=
    Nat.mod_eq_of_lt (by unfold SIZE_MAX_SUCC; omega)
  rw [wrap]
  -- `count` blocks hold the packet with `pad`, and so many more than `whole`
  have beyond : whole + 1 ≤ count := by
    by_contra fewer
    have bound := Nat.mul_le_mul_left block (show count ≤ whole by omega)
    omega
  split
  · next few =>
    have twice : whole + 2 ≤ count := by
      by_contra fewer
      have bound := Nat.mul_le_mul_left block (show count ≤ whole + 1 by omega)
      have one := further 1
      omega
    have bound := Nat.mul_le_mul_left block twice
    have two := further 2
    refine ⟨by omega, by omega, ⟨whole + 2, ?_⟩, by omega⟩
    omega
  · next enough =>
    have bound := Nat.mul_le_mul_left block beyond
    have one := further 1
    refine ⟨by omega, by omega, ⟨whole + 1, ?_⟩, by omega⟩
    omega

/-! The call. -/

theorem pktWriteFull_cases (s : PktState) (bytes : List UInt8) :
    (∃ plan, pktWriteFull bytes s = .ok () { s with sock := { s.sock with tx := s.sock.tx ++ bytes, txPlan := plan } }) ∨
    (¬Accepting s.sock ∧ ∃ t, pktWriteFull bytes s = .error .fail t) := by
  rcases netWriteFull_cases s.sock bytes with ⟨plan, written, -⟩ | ⟨refused, count, plan, -, stopped⟩
  · have passes : (decide ((bytes.length : Int) < 0) || decide ((bytes.length : Int) ≠ bytes.length)) = false := by simp
    refine Or.inl ⟨plan, ?_⟩
    rw [pktWriteFull, bind_of_ok (get_apply s), written, bind_of_ok (set_apply _ _), passes, failIf_false]
  · have stops : (decide ((-1 : Int) < 0) || decide ((-1 : Int) ≠ bytes.length)) = true := by simp
    refine Or.inr ⟨refused, { s with sock := { s.sock with tx := s.sock.tx ++ bytes.take count, txPlan := plan } }, ?_⟩
    rw [pktWriteFull, bind_of_ok (get_apply s), stopped, bind_of_ok (set_apply _ _), stops, failIf_true]

/-- The bytes of a send with this padding. -/
def wireBytes (payload padding : List UInt8) : List UInt8 :=
  (framed payload padding).take (4 + UInt32.ofNat (1 + payload.length + padding.length)).toNat

theorem pktSend_cases (rand : (n : Nat) → Option (Vector UInt8 n)) (payload : Option (List UInt8)) (len blockSize : Nat)
    (present : len ≤ (payload.getD []).length) (s : PktState) :
    (∃ padding t, padding.length = padLen (blockSizeOf blockSize) len ∧
      pktSend rand payload len blockSize s = .ok () t ∧
      t.sock.tx = s.sock.tx ++ wireBytes ((payload.getD []).take len) padding ∧ t.seq = s.seq.map (· + 1)) ∨
    ((Plenty s.heap → Accepting s.sock → rand (padLen (blockSizeOf blockSize) len) = none) ∧
      ∃ t, pktSend rand payload len blockSize s = .error .fail t) := by
  have given : (payload.isNone && decide (len > 0)) = false := by
    cases payload with
    | none =>
      have empty : len = 0 := Nat.le_zero.mp present
      simp [empty]
    | some bytes => rfl
  have length : ((payload.getD []).take len).length = len := by rw [List.length_take, Nat.min_eq_left present]
  rw [pktSend, given, bind_of_ok (failIf_false s)]
  simp only
  rcases onPayload_alloc_cases s with ⟨heap, granted, -⟩ | ⟨scarce, t, refused⟩
  swap
  · exact Or.inr ⟨fun plenty => absurd plenty scarce, t, bind_of_error refused⟩
  rw [bind_of_ok granted]
  cases entropy : rand (padLen (blockSizeOf blockSize) len) with
  | none => exact Or.inr ⟨fun _ _ => rfl, _, rfl⟩
  | some padding =>
    have wire : (be32 (UInt32.ofNat (1 + len + padLen (blockSizeOf blockSize) len)) ++
        [UInt8.ofNat (padLen (blockSizeOf blockSize) len)] ++ (payload.getD []).take len ++ padding.toList).take
          (4 + UInt32.ofNat (1 + len + padLen (blockSizeOf blockSize) len)).toNat =
        wireBytes ((payload.getD []).take len) padding.toList := by
      rw [wireBytes, framed, Vector.length_toList, length]
    rcases pktWriteFull_cases { s with heap := heap } (wireBytes ((payload.getD []).take len) padding.toList) with
      ⟨plan, written⟩ | ⟨refused, t, failed⟩
    · refine Or.inl ⟨padding.toList, { s with
        heap := heap
        sock := { s.sock with tx := s.sock.tx ++ wireBytes ((payload.getD []).take len) padding.toList, txPlan := plan }
        seq := s.seq.map (· + 1) }, Vector.length_toList, ?_, rfl, rfl⟩
      simp only [wire]
      exact bind_of_ok written
    · refine Or.inr ⟨fun _ accepting => absurd accepting refused, t, ?_⟩
      simp only [wire]
      exact bind_of_error failed

theorem pktSend_ok {rand : (n : Nat) → Option (Vector UInt8 n)} {payload : List UInt8} {blockSize : Nat} {s : PktState}
    (plenty : Plenty s.heap) (accepting : Accepting s.sock)
    (entropy : rand (padLen (blockSizeOf blockSize) payload.length) ≠ none) :
    ∃ t, pktSend rand (some payload) payload.length blockSize s = .ok () t := by
  rcases pktSend_cases rand (some payload) payload.length blockSize (Nat.le_refl _) s with
    ⟨padding, t, -, returned, -⟩ | ⟨barred, -⟩
  · exact ⟨t, returned⟩
  · exact absurd (barred plenty accepting) entropy

/-! When the packet is one that the receiver takes. -/

theorem whole_framed {payload padding : List UInt8} (rest : List UInt8) (least : 4 ≤ padding.length)
    (limit : 1 + payload.length + padding.length ≤ MAX_PACKET_SIZE) :
    Whole (framed payload padding ++ rest) (framed payload padding) := by
  unfold MAX_PACKET_SIZE at limit
  have length := framed_length payload padding
  have field : beNat ((framed payload padding ++ rest).take 4) = 1 + payload.length + padding.length := by
    rw [List.take_append_of_le_length (by omega), framed_field (by omega)]
  refine ⟨?_, ?_, ?_, ?_⟩
  · rw [field, List.take_append_of_le_length (by omega), List.take_of_length_le (by omega)]
  · rw [field, List.length_append]
    omega
  · omega
  · rw [field]
    exact limit

/-- Such a packet is taken, whatever block size the receiver is given. -/
theorem framed_taken (blockSize : Nat) {payload padding rest : List UInt8} (least : 4 ≤ padding.length)
    (most : padding.length ≤ 255) (limit : 1 + payload.length + padding.length ≤ MAX_PACKET_SIZE) {r : PktState}
    (valid : Valid r.pkt.payload) (plenty : Plenty r.heap) (stream : r.sock.rx = framed payload padding ++ rest) :
    ∃ u, pktRecv blockSize r = .ok () u ∧ Taken r u (framed payload padding) ∧ contents u.pkt.payload = payload ∧
      u.sock.rx = rest := by
  have length := framed_length payload padding
  have whole := whole_framed rest least limit
  have recorded := @framed_padding payload padding (by omega)
  have inner : InnerPadding (framed payload padding) := by
    unfold InnerPadding MIN_PADDING_SIZE packetLength
    omega
  rcases pktRecv_cases blockSize valid with ⟨p, u, other, -, returned, taken⟩ | ⟨absent, -⟩
  · rw [stream] at other
    rw [other.unique whole] at taken
    obtain ⟨cuts, sock⟩ := taken.sock
    refine ⟨u, returned, taken, by rw [taken.payload, framed_payload (by omega)], ?_⟩
    rw [sock]
    change r.sock.rx.drop _ = rest
    rw [stream, List.drop_left]
  · rw [stream] at absent
    exact absurd inner (absent plenty _ whole)

theorem conforms_framed {blockSize : Nat} {payload padding : List UInt8} (least : 4 ≤ padding.length)
    (most : padding.length ≤ 255) (blocks : max blockSize 8 ∣ 5 + payload.length + padding.length)
    (limit : 1 + payload.length + padding.length ≤ MAX_PACKET_SIZE) : Conforms blockSize payload (framed payload padding) := by
  refine ⟨⟨_, padding, rfl, be32_length _, least, most⟩, by rw [framed_length]; exact blocks, ?_⟩
  intro r rest valid plenty stream
  obtain ⟨u, returned, taken, delivered, left⟩ := framed_taken blockSize least most limit valid plenty stream
  exact ⟨u, returned, delivered, left, taken.seq⟩

/-- A packet that conforms is one whose lengths fit. -/
theorem Conforms.fits {blockSize : Nat} {payload wire : List UInt8} (conforms : Conforms blockSize payload wire) :
    Fits blockSize payload.length := by
  obtain ⟨header, padding, form, four, least, most⟩ := conforms.form
  have length : wire.length = 5 + payload.length + padding.length := by
    rw [form]
    simp only [List.length_append, List.length_singleton, four]
  have multiple := conforms.multiple
  rw [length] at multiple
  have ready : Valid (freshPacket wire).pkt.payload := by
    change Valid (freshPacket []).pkt.payload
    decide
  have plenty : Plenty (freshPacket wire).heap := by
    change Plenty []
    decide
  refine ⟨padding.length, least, most, multiple, ?_⟩
  obtain ⟨u, returned, -, emptied, -⟩ := conforms.received (freshPacket wire) [] ready plenty (List.append_nil wire).symm
  rcases pktRecv_cases (s := freshPacket wire) blockSize ready with ⟨p, u', whole, -, returned', taken⟩ | ⟨-, t, failed⟩
  · rw [returned] at returned'
    cases returned'
    obtain ⟨cuts, sock⟩ := taken.sock
    have size := whole.length
    have limit := whole.most
    have all : wire.drop p.length = [] := by
      rw [sock] at emptied
      exact emptied
    rw [List.drop_eq_nil_iff] at all
    change p.length = 4 + beNat (wire.take 4) at size
    change beNat (wire.take 4) ≤ MAX_PACKET_SIZE at limit
    omega
  · rw [returned] at failed
    cases failed

/-- Within the limits the total is not cut short. -/
theorem wireBytes_framed {blockSize : Nat} {payload padding : List UInt8}
    (pad : padding.length = padLen (blockSizeOf blockSize) payload.length) (fits : Fits blockSize payload.length) :
    wireBytes payload padding = framed payload padding := by
  obtain ⟨-, -, -, limit⟩ := padLen_least fits
  rw [← pad] at limit
  have length := framed_length payload padding
  unfold MAX_PACKET_SIZE at limit
  have total : (4 + UInt32.ofNat (1 + payload.length + padding.length)).toNat = 5 + payload.length + padding.length := by
    rw [UInt32.toNat_add, UInt32.toNat_ofNat_of_lt' (by unfold UInt32.size; omega)]
    change (4 + _) % 2 ^ 32 = _
    omega
  rw [wireBytes, total, ← length, List.take_length]

theorem conforms_wireBytes {blockSize : Nat} {payload padding : List UInt8}
    (pad : padding.length = padLen (blockSizeOf blockSize) payload.length) (fits : Fits blockSize payload.length) :
    Conforms blockSize payload (wireBytes payload padding) := by
  have whole := wireBytes_framed pad fits
  obtain ⟨least, most, blocks, limit⟩ := padLen_least fits
  rw [← pad] at least most blocks limit
  rw [whole]
  exact conforms_framed least most blocks limit

/-- The bytes that a send put out conform, and the sender counted the packet. -/
def SentConforms (blockSize : Nat) (payload : List UInt8) (s t : PktState) : Prop :=
  (∃ wire, t.sock.tx = s.sock.tx ++ wire ∧ Conforms blockSize payload wire) ∧ t.seq = s.seq.map (· + 1)

private theorem fits_of_sent {blockSize : Nat} {payload : List UInt8} {s t : PktState}
    (conforms : SentConforms blockSize payload s t) : Fits blockSize payload.length := by
  obtain ⟨⟨wire, -, accepted⟩, -⟩ := conforms
  exact accepted.fits

/-- A send that succeeds has sent a packet for the receiver exactly when its lengths fit. -/
theorem sent_conforms_iff (rand : (n : Nat) → Option (Vector UInt8 n)) (payload : Option (List UInt8))
    (len blockSize : Nat) (s t : PktState) (present : len ≤ (payload.getD []).length)
    (sent : pktSend rand payload len blockSize s = .ok () t) :
    SentConforms blockSize ((payload.getD []).take len) s t ↔ Fits blockSize len := by
  have length : ((payload.getD []).take len).length = len := by rw [List.length_take, Nat.min_eq_left present]
  constructor
  · intro conforms
    have fits := fits_of_sent conforms
    rw [length] at fits
    exact fits
  · intro fits
    rcases pktSend_cases rand payload len blockSize present s with ⟨padding, u, pad, returned, tx, seq⟩ | ⟨-, u, failed⟩
    · rw [sent] at returned
      cases returned
      refine ⟨⟨_, tx, conforms_wireBytes ?_ ?_⟩, seq⟩
      · rw [length]
        exact pad
      · rw [length]
        exact fits
    · rw [sent] at failed
      cases failed

/-- Entropy that is always zero. -/
def zeroEntropy (n : Nat) : Option (Vector UInt8 n) := some (Vector.replicate n 0)

theorem sent_conforms_one_byte :
    ∃ t, pktSend zeroEntropy (some [42]) 1 8 (freshPacket []) = .ok () t ∧
      (SentConforms 8 [42] (freshPacket []) t ↔ Fits 8 1) := by
  obtain ⟨t, sent⟩ := @pktSend_ok zeroEntropy [42] 8 (freshPacket []) (by decide)
    (by decide) (by simp [zeroEntropy])
  exact ⟨t, sent, sent_conforms_iff zeroEntropy (some [42]) 1 8 (freshPacket []) t (by decide) sent⟩

/-- 35000 bytes are sent, and the receiver refuses them. -/
theorem sent_not_received_long :
    ¬∀ (rand : (n : Nat) → Option (Vector UInt8 n)) (payload : Option (List UInt8)) (len blockSize : Nat) (s t : PktState),
      len ≤ (payload.getD []).length → pktSend rand payload len blockSize s = .ok () t →
        SentConforms blockSize ((payload.getD []).take len) s t := by
  intro claimed
  generalize long : List.replicate MAX_PACKET_SIZE (0 : UInt8) = payload
  have length : payload.length = MAX_PACKET_SIZE := by rw [← long, List.length_replicate]
  obtain ⟨t, sent⟩ := @pktSend_ok zeroEntropy payload 8 (freshPacket [])
    (by decide) (by decide) (by simp [zeroEntropy])
  have conforms := claimed _ _ _ _ _ _ (Nat.le_refl _) sent
  obtain ⟨pad, -, -, -, limit⟩ := fits_of_sent conforms
  rw [Option.getD_some, List.take_length, length] at limit
  omega

end Coalesce.PacketSend
