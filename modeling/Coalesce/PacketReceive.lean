import Coalesce.Packet
import Coalesce.SessionDeliver

/-! What `pkt_recv` takes off a stream, and how that compares with `session_recv`
before keys are active: two decoders of one wire format with different bounds. -/

namespace Coalesce.PacketReceive
open Library.CallResult Library.ByteNumber Buffer BufferBytes BufferReaders Net Session SessionReceive SessionDeliver Packet

/-- The stream starts with a complete packet `p` within the limits of `pkt_recv`. -/
structure Whole (stream p : List UInt8) : Prop where
  front : p = stream.take (4 + beNat (stream.take 4))
  complete : 4 + beNat (stream.take 4) ≤ stream.length
  least : 5 ≤ beNat (stream.take 4)
  most : beNat (stream.take 4) ≤ MAX_PACKET_SIZE

/-- Padding within the packet, which may leave no payload. -/
def InnerPadding (p : List UInt8) : Prop :=
  MIN_PADDING_SIZE ≤ paddingLength p ∧ paddingLength p < packetLength p

instance (p : List UInt8) : Decidable (InnerPadding p) :=
  inferInstanceAs (Decidable (MIN_PADDING_SIZE ≤ paddingLength p ∧ paddingLength p < packetLength p))

theorem Whole.length {stream p : List UInt8} (whole : Whole stream p) : p.length = 4 + beNat (stream.take 4) := by
  have complete := whole.complete
  rw [whole.front, List.length_take]
  omega

theorem Whole.unique {stream p q : List UInt8} (first : Whole stream p) (second : Whole stream q) : p = q := by
  rw [first.front, second.front]

/-- The state after packet `p` has been taken off the stream. -/
structure Taken (s t : PktState) (p : List UInt8) : Prop where
  payload : contents t.pkt.payload = payloadOf p
  rpos : t.pkt.payload.rpos = 0
  valid : Valid t.pkt.payload
  plenty : Plenty s.heap → Plenty t.heap
  packetLength : t.pkt.packetLength.toNat = packetLength p
  paddingLength : t.pkt.paddingLength.toNat = paddingLength p
  sock : ∃ cuts, t.sock = s.sock.after p.length cuts
  seq : t.seq = s.seq.map (· + 1)

/-! The calls of which the receiver is made. -/

theorem pktReadFull_cases (s : PktState) {n : Nat} (positive : 0 < n) :
    (n ≤ s.sock.rx.length ∧ ∃ cuts, pktReadFull n s = .ok (s.sock.rx.take n) { s with sock := s.sock.after n cuts }) ∨
    (s.sock.rx.length < n ∧ ∃ t, pktReadFull n s = .error .fail t) := by
  by_cases present : n ≤ s.sock.rx.length
  · obtain ⟨cuts, whole⟩ := netReadFull_whole s.sock n present
    have passes : (decide ((n : Int) ≤ 0) || decide ((n : Int) ≠ n)) = false := by
      rw [Bool.or_eq_false_iff, decide_eq_false_iff_not, decide_eq_false_iff_not]
      omega
    refine Or.inl ⟨present, cuts, ?_⟩
    rw [pktReadFull, bind_of_ok (get_apply s), whole, bind_of_ok (set_apply _ _), passes, bind_of_ok (failIf_false _)]
    rfl
  · obtain ⟨cuts, short⟩ := netReadFull_short s.sock n (by omega)
    have stops : (decide (endCode s.sock ≤ 0) || decide (endCode s.sock ≠ n)) = true := by
      rw [decide_eq_true (endCode_nonpos s.sock), Bool.true_or]
    refine Or.inr ⟨by omega, { s with sock := s.sock.after s.sock.rx.length cuts }, ?_⟩
    rw [pktReadFull, bind_of_ok (get_apply s), short, bind_of_ok (set_apply _ _), stops, bind_of_error (failIf_true _)]

theorem onPayload_of_ok {α : Type} {call : BufCall α} {s : PktState} {t : BufState} {value : α}
    (returned : call ⟨s.heap, s.pkt.payload⟩ = .ok value t) :
    onPayload call s = .ok value { s with heap := t.heap, pkt := { s.pkt with payload := t.buf } } := zoom_of_ok returned

theorem onPayload_of_error {α : Type} {call : BufCall α} {s : PktState} {t : BufState} {exit : Exit}
    (stopped : call ⟨s.heap, s.pkt.payload⟩ = .error exit t) :
    onPayload call s = .error exit { s with heap := t.heap, pkt := { s.pkt with payload := t.buf } } :=
  zoom_of_error stopped

theorem onPayload_alloc_cases (s : PktState) :
    (∃ heap, onPayload alloc s = .ok () { s with heap := heap } ∧ (Plenty s.heap → Plenty heap)) ∨
    (¬Plenty s.heap ∧ ∃ t, onPayload alloc s = .error .fail t) := by
  rcases alloc_cases ⟨s.heap, s.pkt.payload⟩ with ⟨-, given⟩ | ⟨scarce, refused⟩
  · exact Or.inl ⟨s.heap.alloc.2, onPayload_of_ok given, fun plenty => (plenty_alloc plenty).2⟩
  · exact Or.inr ⟨scarce, _, onPayload_of_error refused⟩

/-- The payload ends up in a buffer that was empty. -/
theorem onPayload_put {s : PktState} {src : List UInt8} {n : Nat} (present : n ≤ src.length)
    (short : n ≤ MAX_PACKET_SIZE) (valid : Valid s.pkt.payload) (empty : contents s.pkt.payload = []) :
    (∃ t, (if n > 0 then onPayload (bufPutRaw (some src) n) else pure ()) s =
        .ok () { s with heap := t.heap, pkt := { s.pkt with payload := t.buf } } ∧
      Appended ⟨s.heap, s.pkt.payload⟩ t (src.take n)) ∨
    (¬Plenty s.heap ∧ ∃ t, (if n > 0 then onPayload (bufPutRaw (some src) n) else pure ()) s = .error .fail t) := by
  by_cases positive : n > 0
  · have length := valid.sound.length_contents
    rw [empty, List.length_nil] at length
    rw [if_pos positive]
    rcases appends_raw present ⟨s.heap, s.pkt.payload⟩ valid (by
      rw [← length, List.length_take]
      unfold MAX_PACKET_SIZE at short
      unfold BUF_ROOM
      omega) with ⟨t, written, appended⟩ | ⟨scarce, t, failed⟩
    · exact Or.inl ⟨t, onPayload_of_ok written, appended⟩
    · exact Or.inr ⟨scarce, _, onPayload_of_error failed⟩
  · rw [if_neg positive, show n = 0 by omega]
    exact Or.inl ⟨⟨s.heap, s.pkt.payload⟩, rfl, valid, id, rfl, by simp⟩

/-! The receiver. -/

/-- The parser, at a state with an empty payload. -/
theorem pktParse_cases {s : PktState} {p : List UInt8} {packetLength : UInt32}
    (field : p.length = 4 + packetLength.toNat) (least : 5 ≤ packetLength.toNat)
    (most : packetLength.toNat ≤ MAX_PACKET_SIZE) (valid : Valid s.pkt.payload) (empty : contents s.pkt.payload = []) :
    (InnerPadding p ∧ ∃ t, Appended ⟨s.heap, s.pkt.payload⟩ t (payloadOf p) ∧
      pktParse packetLength (p.drop 4) s = .ok () { s with
        heap := t.heap
        pkt := { s.pkt with packetLength := packetLength, paddingLength := p.getD 4 0, payload := t.buf } }) ∨
    ((Plenty s.heap → ¬InnerPadding p) ∧ ∃ t, pktParse packetLength (p.drop 4) s = .error .fail t) := by
  have byte : (p.drop 4).getD 0 0 = p.getD 4 0 := by simp [List.getD_eq_getElem?_getD]
  have size : SessionReceive.packetLength p = packetLength.toNat := by
    rw [SessionReceive.packetLength]
    omega
  unfold InnerPadding paddingLength payloadOf paddingLength
  rw [pktParse, byte, size]
  simp only
  generalize p.getD 4 0 = padding at *
  cases check : (decide (padding.toNat < MIN_PADDING_SIZE) || decide (padding.toNat ≥ packetLength.toNat)) with
  | true =>
    rw [Bool.or_eq_true, decide_eq_true_eq, decide_eq_true_eq] at check
    exact Or.inr ⟨fun _ inner => by omega, s, bind_of_error (failIf_true s)⟩
  | false =>
    rw [Bool.or_eq_false_iff, decide_eq_false_iff_not, decide_eq_false_iff_not] at check
    rw [bind_of_ok (failIf_false s), bind_of_ok (modify_apply _ _)]
    have behind : (p.drop 4).drop 1 = p.drop 5 := List.drop_drop
    rw [behind]
    rcases @onPayload_put { s with pkt := { s.pkt with packetLength := packetLength, paddingLength := padding } }
      (p.drop 5) (packetLength.toNat - 1 - padding.toNat) (by rw [List.length_drop]; omega) (by omega) valid empty with
      ⟨t, returned, appended⟩ | ⟨scarce, t, failed⟩
    · exact Or.inl ⟨by omega, t, appended, returned⟩
    · exact Or.inr ⟨fun plenty => absurd plenty scarce, t, failed⟩

/-- The body, once the first word has been read and found within the limits. -/
theorem pktBody_cases {s : PktState} {n : UInt32} {cuts : List Nat} (header : 4 ≤ s.sock.rx.length)
    (field : n.toNat = beNat (s.sock.rx.take 4)) (least : 5 ≤ n.toNat) (most : n.toNat ≤ MAX_PACKET_SIZE)
    (valid : Valid s.pkt.payload) (empty : contents s.pkt.payload = []) (started : s.pkt.payload.rpos = 0) :
    (∃ p t, Whole s.sock.rx p ∧ InnerPadding p ∧ Taken s t p ∧
      (onPayload alloc >>= fun _ => pktReadFull n.toNat >>= fun body => pktParse n body >>= fun _ => countPacket)
        { s with sock := s.sock.after 4 cuts } = .ok () t) ∨
    ((Plenty s.heap → ∀ p, Whole s.sock.rx p → ¬InnerPadding p) ∧ ∃ t,
      (onPayload alloc >>= fun _ => pktReadFull n.toNat >>= fun body => pktParse n body >>= fun _ => countPacket)
        { s with sock := s.sock.after 4 cuts } = .error .fail t) := by
  rcases onPayload_alloc_cases { s with sock := s.sock.after 4 cuts } with ⟨left, given, keeps⟩ | ⟨scarce, t, refused⟩
  swap
  · exact Or.inr ⟨fun plenty => absurd plenty scarce, t, bind_of_error refused⟩
  rw [bind_of_ok given]
  rcases pktReadFull_cases { s with heap := left, sock := s.sock.after 4 cuts } (n := n.toNat) (by omega) with
    ⟨body, cuts', read⟩ | ⟨short, t, failed⟩
  swap
  · refine Or.inr ⟨fun _ p whole => ?_, t, bind_of_error failed⟩
    have complete := whole.complete
    change (s.sock.rx.drop 4).length < n.toNat at short
    rw [List.length_drop] at short
    omega
  change n.toNat ≤ (s.sock.rx.drop 4).length at body
  rw [List.length_drop] at body
  have whole : Whole s.sock.rx (s.sock.rx.take (4 + n.toNat)) := ⟨by rw [field], by omega, by omega, by omega⟩
  have length := whole.length
  rw [← field] at length
  have behind : (s.sock.rx.drop 4).take n.toNat = (s.sock.rx.take (4 + n.toNat)).drop 4 := by
    rw [List.drop_take, Nat.add_sub_cancel_left]
  change pktReadFull n.toNat _ = .ok ((s.sock.rx.drop 4).take n.toNat)
    { s with heap := left, sock := (s.sock.after 4 cuts).after n.toNat cuts' } at read
  rw [behind, Socket.after_after] at read
  rw [bind_of_ok read]
  rcases @pktParse_cases { s with heap := left, sock := s.sock.after (4 + n.toNat) cuts' } _ n length
    least most valid empty with ⟨inner, t, appended, parsed⟩ | ⟨outer, t, failed⟩
  · have payload := appended.contents
    rw [empty, List.nil_append] at payload
    have size : SessionReceive.packetLength (s.sock.rx.take (4 + n.toNat)) = n.toNat := by
      rw [SessionReceive.packetLength, length, Nat.add_sub_cancel_left]
    refine Or.inl ⟨_, _, whole, inner, ⟨payload, appended.rpos.trans started, appended.valid,
      fun plenty => appended.plenty (keeps plenty), size.symm, rfl, ⟨cuts', ?_⟩, rfl⟩, bind_of_ok parsed⟩
    rw [length]
  · refine Or.inr ⟨fun plenty p other => ?_, t, bind_of_error failed⟩
    rw [other.unique whole]
    exact outer (keeps plenty)

/-- A packet is taken when there is one with inner padding and memory for it; otherwise
the call fails, and it always comes back. -/
theorem pktRecv_cases {s : PktState} (blockSize : Nat) (valid : Valid s.pkt.payload) :
    (∃ p t, Whole s.sock.rx p ∧ InnerPadding p ∧ pktRecv blockSize s = .ok () t ∧ Taken s t p) ∨
    ((Plenty s.heap → ∀ p, Whole s.sock.rx p → ¬InnerPadding p) ∧ ∃ t, pktRecv blockSize s = .error .fail t) := by
  rw [pktRecv, bind_of_ok (modify_apply _ _)]
  rcases pktReadFull_cases { s with pkt := pktReset s.pkt } (n := 4) (by decide) with ⟨header, cuts, read⟩ | ⟨short, t, failed⟩
  swap
  · refine Or.inr ⟨fun _ p whole => ?_, t, bind_of_error failed⟩
    have complete := whole.complete
    change s.sock.rx.length < 4 at short
    omega
  have field : (getBe32 (s.sock.rx.take 4)).toNat = beNat (s.sock.rx.take 4) := by
    rw [getBe32_toNat (by rw [List.length_take]; exact Nat.le_min.mpr ⟨Nat.le_refl 4, header⟩), List.take_take, Nat.min_self]
  rw [bind_of_ok read]
  generalize getBe32 (s.sock.rx.take 4) = n at *
  cases limits : (decide (n.toNat < 5) || decide (n.toNat > MAX_PACKET_SIZE)) with
  | true =>
    rw [Bool.or_eq_true, decide_eq_true_eq, decide_eq_true_eq] at limits
    refine Or.inr ⟨fun _ p whole => ?_, _, bind_of_error (failIf_true _)⟩
    have least := whole.least
    have most := whole.most
    omega
  | false =>
    rw [Bool.or_eq_false_iff, decide_eq_false_iff_not, decide_eq_false_iff_not] at limits
    rw [bind_of_ok (failIf_false _)]
    rcases @pktBody_cases { s with pkt := pktReset s.pkt } n cuts header field (by omega) (by omega) valid.reset (contents_reset _) rfl with
      ⟨p, t, whole, inner, taken, returned⟩ | ⟨absent, failed⟩
    · exact Or.inl ⟨p, t, whole, inner, returned, taken.payload, taken.rpos, taken.valid, taken.plenty,
        taken.packetLength, taken.paddingLength, taken.sock, taken.seq⟩
    · exact Or.inr ⟨absent, failed⟩

/-! The two receivers side by side. -/

/-- Before keys are active the packet that `session_recv` looks for is one that `pkt_recv`
looks for, a payload of one byte at least demanded of its length. -/
theorem incoming_plain {d : SshDirection} {stream p : List UInt8} (plain : d.encrypted = false) :
    Incoming d stream p ↔ Whole stream p ∧ 6 ≤ packetLength p := by
  have clear : ∀ bytes, clearText d bytes = bytes := fun bytes => by simp [clearText, plain]
  have noMac : macLength d = 0 := by simp [macLength, plain]
  rw [incoming_iff]
  simp only [announced, clear, noMac, WithinLimits, plain, Nat.add_zero, Nat.lt_irrefl, false_implies, and_true,
    Bool.false_eq_true, if_false]
  constructor
  · rintro ⟨front, ⟨least, most⟩, complete⟩
    have whole : Whole stream p := ⟨front, complete, by omega, most⟩
    have length := whole.length
    exact ⟨whole, by rw [packetLength]; omega⟩
  · rintro ⟨whole, least⟩
    have length := whole.length
    rw [packetLength] at least
    exact ⟨whole.front, ⟨by omega, whole.most⟩, whole.complete⟩

/-- One result for one stream: the same payload, the same rest of the stream and one more
packet counted; or nothing from `session_recv` and at most an empty payload from `pkt_recv`. -/
def Agree (blockSize : Nat) (s : SessState) (q : PktState) : Prop :=
  match sessionRecv s, pktRecv blockSize q with
  | .ok _ t, .ok _ u =>
    contents t.buf = contents u.pkt.payload ∧ contents t.buf ≠ [] ∧ t.sess.sock.rx = u.sock.rx ∧
      t.sess.inn.seq = s.sess.inn.seq + 1 ∧ u.seq = q.seq.map (· + 1)
  | .error .fail _, .ok _ u => contents u.pkt.payload = []
  | .error .fail _, .error .fail _ => True
  | _, _ => False

theorem inner_of_good {p : List UInt8} (good : GoodPadding p) : InnerPadding p := by
  unfold GoodPadding at good
  unfold InnerPadding
  omega

theorem payloadOf_inner {p : List UInt8} (inner : InnerPadding p) (bad : ¬GoodPadding p) : payloadOf p = [] := by
  unfold InnerPadding at inner
  unfold GoodPadding at bad
  rw [payloadOf, List.take_eq_nil_iff]
  omega

private theorem agree_within {blockSize : Nat} {s : SessState} {q : PktState} (plain : s.sess.inn.encrypted = false)
    (buf : Valid s.buf) (payload : Valid q.pkt.payload) (plenty : Plenty s.heap) (plenty' : Plenty q.heap)
    (stream : q.sock.rx = s.sess.sock.rx) (within : ¬Overruns s) : Agree blockSize s q := by
  have outcome := sessionRecv_outcome buf
  have other := pktRecv_cases blockSize payload
  rw [stream] at other
  unfold Agree
  generalize sessionRecv s = result at outcome
  cases outcome with
  | @delivered p t incoming good received =>
    have whole := ((incoming_plain plain).mp incoming).1
    rcases other with ⟨p', u, whole', inner, returned, taken⟩ | ⟨absent, -⟩
    · rw [whole'.unique whole] at taken
      obtain ⟨cuts, sock⟩ := received.sock
      obtain ⟨cuts', sock'⟩ := taken.sock
      have noMac : macLength s.sess.inn = 0 := by simp [macLength, plain]
      have length := payloadOf_length good
      have fits := good.2
      rw [returned]
      refine ⟨by rw [received.contents, taken.payload], ?_, ?_, by rw [received.inn], taken.seq⟩
      · rw [received.contents, ← List.length_pos_iff]
        omega
      · rw [sock, sock', noMac]
        change s.sess.sock.rx.drop _ = q.sock.rx.drop _
        rw [stream, Nat.add_zero]
    · exact absurd (inner_of_good good) (absent plenty' p whole)
  | refused wrong _ _ =>
    rcases other with ⟨p, u, whole, inner, returned, taken⟩ | ⟨-, u, failed⟩
    · rw [returned]
      change contents u.pkt.payload = []
      rw [taken.payload]
      by_cases good : GoodPadding p
      · have incoming : Incoming s.sess.inn s.sess.sock.rx p := (incoming_plain plain).mpr ⟨whole, by
          unfold GoodPadding MIN_PADDING_SIZE at good
          omega⟩
        exact absurd good (wrong plenty p incoming).1
      · exact payloadOf_inner inner good
    · rw [failed]
      trivial
  | scarce scarce _ _ => exact absurd plenty scarce
  | stuck incoming overrun => exact absurd ⟨_, incoming, overrun⟩ within

/-- The receivers agree on every stream but those on which `session_recv` never returns. -/
theorem receivers_agree_iff (blockSize : Nat) (s : SessState) (q : PktState) (plain : s.sess.inn.encrypted = false)
    (buf : Valid s.buf) (payload : Valid q.pkt.payload) (plenty : Plenty s.heap) (plenty' : Plenty q.heap)
    (stream : q.sock.rx = s.sess.sock.rx) : Agree blockSize s q ↔ ¬Overruns s := by
  refine ⟨fun agree overruns => ?_, agree_within plain buf payload plenty plenty' stream⟩
  obtain ⟨t, stuck⟩ := overrun_stuck buf plenty overruns
  rw [Agree, stuck] at agree
  exact agree

/-- A packet state over a stream, with an empty payload. -/
def freshPacket (rx : List UInt8) : PktState :=
  { heap := []
    sock := { rx := rx, rxCuts := [], rxReset := false, tx := [], txPlan := [] }
    pkt := { packetLength := 0, paddingLength := 0, payload := (freshState rx).buf, padding := none, mac := none, macLen := 0 }
    seq := some 0 }

theorem receivers_agree_one_byte :
    Agree 8 (freshState [0, 0, 0, 6, 4, 42, 1, 2, 3, 4]) (freshPacket [0, 0, 0, 6, 4, 42, 1, 2, 3, 4]) ↔
      ¬Overruns (freshState [0, 0, 0, 6, 4, 42, 1, 2, 3, 4]) :=
  receivers_agree_iff 8 _ _ rfl (by decide) (by decide) (by decide) (by decide) rfl

/-- With both lengths six one receiver refuses the packet and the other never returns. -/
theorem receivers_disagree_overrun :
    ¬∀ (blockSize : Nat) (s : SessState) (q : PktState), s.sess.inn.encrypted = false → Valid s.buf →
      Valid q.pkt.payload → Plenty s.heap → Plenty q.heap → q.sock.rx = s.sess.sock.rx → Agree blockSize s q := by
  intro claimed
  have incoming : Incoming zeroDirection [0, 0, 0, 6, 6, 0, 0, 0, 0, 0] [0, 0, 0, 6, 6, 0, 0, 0, 0, 0] :=
    incoming_iff.mpr ⟨by decide, by decide, by decide, by decide⟩
  have overruns : Overruns (freshState [0, 0, 0, 6, 6, 0, 0, 0, 0, 0]) := ⟨_, incoming, by decide⟩
  have agree := claimed 8 (freshState [0, 0, 0, 6, 6, 0, 0, 0, 0, 0]) (freshPacket [0, 0, 0, 6, 6, 0, 0, 0, 0, 0]) rfl
    (by decide) (by decide) (by decide) (by decide) rfl
  obtain ⟨t, stuck⟩ := overrun_stuck (s := freshState [0, 0, 0, 6, 6, 0, 0, 0, 0, 0]) (by decide) (by decide) overruns
  rw [Agree, stuck] at agree
  exact agree

end Coalesce.PacketReceive
