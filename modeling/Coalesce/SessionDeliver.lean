import Coalesce.SessionReceive

/-! What a receive hands out, and when it does not come back: the exact result
of `session_recv` for every state and every stream. -/

namespace Coalesce.SessionDeliver
open Library.CallResult Buffer BufferBytes BufferReaders Net Aes Session SessionReceive

/-- Padding that leaves a payload. -/
def GoodPadding (p : List UInt8) : Prop :=
  MIN_PADDING_SIZE ≤ paddingLength p ∧ paddingLength p + 2 ≤ packetLength p

/-- Padding that passes the check of the code although it leaves less than nothing: the
check compares with `total`, four more than `packet_length`. -/
def OverrunPadding (p : List UInt8) : Prop :=
  MIN_PADDING_SIZE ≤ paddingLength p ∧ packetLength p ≤ paddingLength p ∧ paddingLength p ≤ packetLength p + 2

instance (p : List UInt8) : Decidable (GoodPadding p) :=
  inferInstanceAs (Decidable (MIN_PADDING_SIZE ≤ paddingLength p ∧ paddingLength p + 2 ≤ packetLength p))

instance (p : List UInt8) : Decidable (OverrunPadding p) :=
  inferInstanceAs (Decidable (MIN_PADDING_SIZE ≤ paddingLength p ∧ packetLength p ≤ paddingLength p ∧
    paddingLength p ≤ packetLength p + 2))

theorem payloadOf_length {p : List UInt8} (good : GoodPadding p) :
    (payloadOf p).length = packetLength p - 1 - paddingLength p := by
  obtain ⟨-, fits⟩ := good
  unfold packetLength at *
  rw [payloadOf, packetLength, List.length_take, List.length_drop]
  omega

/-- The state after a packet has been handed out. -/
structure Delivered (s t : SessState) (p : List UInt8) : Prop where
  valid : Valid t.buf
  contents : contents t.buf = payloadOf p
  rpos : t.buf.rpos = 0
  plenty : Plenty s.heap → Plenty t.heap
  sess : t.sess = { s.sess with inn := { s.sess.inn with seq := s.sess.inn.seq + 1 } }

/-- What the check of the code lets through. -/
theorem padding_passes {padding total : ℕ} (least : 4 ≤ padding) (fits : padding + 1 < total) :
    (decide (padding < MIN_PADDING_SIZE) || decide (padding + 1 ≥ total)) = false := by
  rw [Bool.or_eq_false_iff, decide_eq_false_iff_not, decide_eq_false_iff_not, MIN_PADDING_SIZE]
  omega

theorem deliver_refused {s : SessState} {p : List UInt8} (bounds : 10 ≤ p.length ∧ p.length ≤ 35004)
    (bad : ¬GoodPadding p) (within : ¬OverrunPadding p) : deliver p s = .error .fail s := by
  unfold GoodPadding OverrunPadding packetLength paddingLength MIN_PADDING_SIZE at *
  have byte : (p.getD 4 0).toNat < 256 := UInt8.toNat_lt _
  rw [deliver]
  simp only
  generalize (p.getD 4 0).toNat = padding at *
  cases check : (decide (padding < MIN_PADDING_SIZE) || decide (padding + 1 ≥ p.length)) with
  | true => exact bind_of_error (failIf_true s)
  | false =>
    rw [Bool.or_eq_false_iff, decide_eq_false_iff_not, decide_eq_false_iff_not, MIN_PADDING_SIZE] at check
    have empty : payloadSize p.length padding < 1 := by
      unfold payloadSize SIZE_MAX_SUCC
      omega
    rw [bind_of_ok (failIf_false s), decide_eq_true empty, bind_of_error (failIf_true s)]

/-- The subtraction wraps, and the doubling loop never reaches the size asked for. -/
theorem deliver_hang {s : SessState} {p : List UInt8} (bounds : 10 ≤ p.length ∧ p.length ≤ 35004)
    (valid : Valid s.buf) (overrun : OverrunPadding p) : ∃ t, deliver p s = .error .hang t := by
  unfold OverrunPadding packetLength paddingLength MIN_PADDING_SIZE at overrun
  have byte : (p.getD 4 0).toNat < 256 := UInt8.toNat_lt _
  rw [deliver]
  simp only
  generalize (p.getD 4 0).toNat = padding at *
  have wrapped : payloadSize p.length padding = 2 ^ 64 - (5 + padding - p.length) := by
    unfold payloadSize SIZE_MAX_SUCC
    omega
  have passes := @padding_passes padding p.length (by omega) (by omega)
  have huge : ¬payloadSize p.length padding < 1 := by omega
  rw [passes, bind_of_ok (failIf_false s), decide_eq_false huge, bind_of_ok (failIf_false s), bind_of_ok (modify_apply _ _)]
  have stuck : bufPutRaw (some (p.drop 5)) (payloadSize p.length padding) ⟨s.heap, bufReset s.buf⟩ =
      .error .hang ⟨s.heap, bufReset s.buf⟩ := by
    rw [bufPutRaw, Option.isNone_some, Bool.false_and, bind_of_ok (failIf_false _), if_neg (by omega)]
    exact bind_of_error (bufReserve_hang valid.reset rfl (by omega) (by unfold SIZE_MAX_SUCC; omega))
  exact ⟨_, bind_of_error (onBuf_of_error (s := { s with buf := bufReset s.buf }) stuck)⟩

theorem deliver_good {s : SessState} {p : List UInt8} (bounds : 10 ≤ p.length ∧ p.length ≤ 35004)
    (valid : Valid s.buf) (good : GoodPadding p) :
    (∃ t, deliver p s = .ok () t ∧ Delivered s t p) ∨
    (¬Plenty s.heap ∧ ∃ t, deliver p s = .error .fail t ∧ t.buf = bufReset s.buf ∧ t.sess = s.sess) := by
  have exact_payload := payloadOf_length good
  unfold GoodPadding packetLength paddingLength MIN_PADDING_SIZE at good
  rw [payloadOf, packetLength, paddingLength] at exact_payload
  have payload : payloadOf p = (p.drop 5).take (p.length - 4 - 1 - (p.getD 4 0).toNat) := rfl
  rw [deliver]
  simp only
  generalize (p.getD 4 0).toNat = padding at *
  have size : payloadSize p.length padding = p.length - 4 - 1 - padding := by
    unfold payloadSize SIZE_MAX_SUCC
    omega
  have passes := @padding_passes padding p.length (by omega) (by omega)
  rw [passes, bind_of_ok (failIf_false s), decide_eq_false (by omega), bind_of_ok (failIf_false s),
    bind_of_ok (modify_apply _ _), size]
  have writes := @appends_raw (p.drop 5) (p.length - 4 - 1 - padding) (by rw [List.length_drop]; omega)
  rcases writes ⟨s.heap, bufReset s.buf⟩ valid.reset (by
    rw [exact_payload]
    change 0 + _ < BUF_ROOM
    unfold BUF_ROOM
    omega) with ⟨t, written, appended⟩ | ⟨scarce, t, failed⟩
  · refine Or.inl ⟨⟨t.heap, { s.sess with inn := { s.sess.inn with seq := s.sess.inn.seq + 1 } }, t.buf⟩, ?_,
      appended.valid, ?_, appended.rpos, appended.plenty, rfl⟩
    · rw [bind_of_ok (onBuf_of_ok (s := { s with buf := bufReset s.buf }) written)]
      rfl
    · rw [payload]
      simpa using appended.contents
  · refine Or.inr ⟨scarce, _, bind_of_error (onBuf_of_error (s := { s with buf := bufReset s.buf }) failed), ?_, rfl⟩
    exact bufPutRaw_error failed

/-! Every way in which a receive can end. -/

/-- The state after a successful receive of packet `p`. -/
structure Received (s t : SessState) (p : List UInt8) : Prop where
  valid : Valid t.buf
  contents : contents t.buf = payloadOf p
  rpos : t.buf.rpos = 0
  plenty : Plenty s.heap → Plenty t.heap
  sock : ∃ cuts, t.sess.sock = s.sess.sock.after (p.length + macLength s.sess.inn) cuts
  out : t.sess.out = s.sess.out
  inn : t.sess.inn = { s.sess.inn with ctr := ctrBehind s.sess.inn p, seq := s.sess.inn.seq + 1 }

inductive RecvOutcome (s : SessState) : EStateM.Result Exit SessState Unit → Prop
  | delivered {p : List UInt8} {t : SessState} (incoming : Incoming s.sess.inn s.sess.sock.rx p)
      (good : GoodPadding p) (received : Received s t p) : RecvOutcome s (.ok () t)
  | refused {t : SessState}
      (wrong : Plenty s.heap → ∀ p, Incoming s.sess.inn s.sess.sock.rx p → ¬GoodPadding p ∧ ¬OverrunPadding p)
      (buf : t.buf = s.buf) (seq : t.sess.inn.seq = s.sess.inn.seq) : RecvOutcome s (.error .fail t)
  | scarce {t : SessState} (scarce : ¬Plenty s.heap) (buf : t.buf = bufReset s.buf)
      (seq : t.sess.inn.seq = s.sess.inn.seq) : RecvOutcome s (.error .fail t)
  | stuck {p : List UInt8} {t : SessState} (incoming : Incoming s.sess.inn s.sess.sock.rx p)
      (overrun : OverrunPadding p) : RecvOutcome s (.error .hang t)

theorem good_not_overrun {p : List UInt8} (good : GoodPadding p) : ¬OverrunPadding p := by
  unfold GoodPadding at good
  unfold OverrunPadding
  omega

theorem sessionRecv_outcome {s : SessState} (valid : Valid s.buf) : RecvOutcome s (sessionRecv s) := by
  rw [sessionRecv]
  rcases recvPacket_cases s with ⟨p, heap, cuts, incoming, keeps, read⟩ | ⟨wrong, heap, count, cuts, ctr, failed⟩
  swap
  · rw [bind_of_error failed]
    exact .refused (fun plenty p incoming => absurd incoming (wrong plenty p)) rfl rfl
  rw [bind_of_ok read]
  by_cases good : GoodPadding p
  · rcases deliver_good (s := after s heap (p.length + macLength s.sess.inn) cuts (ctrBehind s.sess.inn p))
      incoming.bounds valid good with ⟨t, delivered, at_end⟩ | ⟨scarce, t, failed, buf, sess⟩
    · rw [delivered]
      refine .delivered incoming good ⟨at_end.valid, at_end.contents, at_end.rpos,
        fun plenty => at_end.plenty (keeps plenty), ⟨cuts, ?_⟩, ?_, ?_⟩ <;> rw [at_end.sess] <;> rfl
    · rw [failed]
      refine .scarce (fun plenty => scarce (keeps plenty)) buf ?_
      rw [sess]
      rfl
  · by_cases overrun : OverrunPadding p
    · obtain ⟨t, stuck⟩ := deliver_hang (s := after s heap (p.length + macLength s.sess.inn) cuts (ctrBehind s.sess.inn p))
        incoming.bounds valid overrun
      rw [stuck]
      exact .stuck incoming overrun
    · rw [deliver_refused incoming.bounds good overrun]
      refine .refused (fun _ q other => ?_) rfl rfl
      rw [other.unique incoming]
      exact ⟨good, overrun⟩

/-- With memory, a packet at the front with good padding is received. -/
theorem recv_delivers {s : SessState} {p : List UInt8} (valid : Valid s.buf) (plenty : Plenty s.heap)
    (incoming : Incoming s.sess.inn s.sess.sock.rx p) (good : GoodPadding p) :
    ∃ t, sessionRecv s = .ok () t ∧ Received s t p := by
  have outcome := sessionRecv_outcome valid
  generalize sessionRecv s = result at outcome
  cases outcome with
  | delivered other _ received =>
    rw [other.unique incoming] at received
    exact ⟨_, rfl, received⟩
  | refused wrong _ _ => exact absurd good (wrong plenty p incoming).1
  | scarce scarce _ _ => exact absurd plenty scarce
  | stuck other overrun =>
    rw [other.unique incoming] at overrun
    exact absurd overrun (good_not_overrun good)

/-! Exactness. -/

/-- The call returns, it succeeds exactly on a complete, authentic packet with a payload,
and it hands out this payload; a failure leaves buffer and sequence number. -/
def ReceivesExactly (s : SessState) : Prop :=
  match sessionRecv s with
  | .ok _ t => ∃ p, Incoming s.sess.inn s.sess.sock.rx p ∧ GoodPadding p ∧ 1 ≤ (payloadOf p).length ∧
      (payloadOf p).length = packetLength p - 1 - paddingLength p ∧ contents t.buf = payloadOf p ∧ t.buf.rpos = 0
  | .error .fail t => (∀ p, Incoming s.sess.inn s.sess.sock.rx p → ¬GoodPadding p) ∧
      t.buf = s.buf ∧ t.sess.inn.seq = s.sess.inn.seq
  | .error .hang _ => False

/-- The packet at the front of the stream passes length and MAC checks and gives a padding
length from `packet_length` to `packet_length + 2`. -/
def Overruns (s : SessState) : Prop := ∃ p, Incoming s.sess.inn s.sess.sock.rx p ∧ OverrunPadding p

theorem overrun_stuck {s : SessState} (valid : Valid s.buf) (plenty : Plenty s.heap) (overruns : Overruns s) :
    ∃ t, sessionRecv s = .error .hang t := by
  obtain ⟨p, incoming, overrun⟩ := overruns
  have outcome := sessionRecv_outcome valid
  generalize sessionRecv s = result at outcome
  cases outcome with
  | delivered other good _ =>
    rw [other.unique incoming] at good
    exact absurd overrun (good_not_overrun good)
  | refused wrong _ _ => exact absurd overrun (wrong plenty p incoming).2
  | scarce scarce _ _ => exact absurd plenty scarce
  | stuck _ _ => exact ⟨_, rfl⟩

private theorem exact_without_overrun {s : SessState} (valid : Valid s.buf) (plenty : Plenty s.heap)
    (within : ¬Overruns s) : ReceivesExactly s := by
  have outcome := sessionRecv_outcome valid
  unfold ReceivesExactly
  generalize sessionRecv s = result at outcome
  cases outcome with
  | delivered incoming good received =>
    have length := payloadOf_length good
    have fits := good.2
    exact ⟨_, incoming, good, by omega, length, received.contents, received.rpos⟩
  | refused wrong buf seq => exact ⟨fun p incoming => (wrong plenty p incoming).1, buf, seq⟩
  | scarce scarce _ _ => exact absurd plenty scarce
  | stuck incoming overrun => exact within ⟨_, incoming, overrun⟩

theorem receives_exactly_iff (s : SessState) (valid : Valid s.buf) (plenty : Plenty s.heap) :
    ReceivesExactly s ↔ ¬Overruns s := by
  refine ⟨fun exactly overruns => ?_, exact_without_overrun valid plenty⟩
  obtain ⟨t, stuck⟩ := overrun_stuck valid plenty overruns
  rw [ReceivesExactly, stuck] at exactly
  exact exactly

/-- A fresh session over a stream, with an empty buffer. -/
def freshState (rx : List UInt8) : SessState :=
  { heap := []
    sess := sessionInit { rx := rx, rxCuts := [], rxReset := false, tx := [], txPlan := [] }
    buf := { data := List.replicate BUF_MIN_CAP 0, rpos := 0, len := 0, cap := BUF_MIN_CAP } }

theorem receives_exactly_one_byte :
    ReceivesExactly (freshState [0, 0, 0, 6, 4, 42, 1, 2, 3, 4]) ↔ ¬Overruns (freshState [0, 0, 0, 6, 4, 42, 1, 2, 3, 4]) :=
  receives_exactly_iff _ (by decide) (by decide)

/-- `packet_length` and `padding_length` are both six: the receiver never returns. -/
theorem receive_overrun_hangs :
    ¬∀ s : SessState, Valid s.buf → Plenty s.heap → ReceivesExactly s := by
  intro claimed
  have incoming : Incoming zeroDirection [0, 0, 0, 6, 6, 0, 0, 0, 0, 0] [0, 0, 0, 6, 6, 0, 0, 0, 0, 0] :=
    incoming_iff.mpr ⟨by decide, by decide, by decide, by decide⟩
  have overruns : Overruns (freshState [0, 0, 0, 6, 6, 0, 0, 0, 0, 0]) := ⟨_, incoming, by decide⟩
  obtain ⟨t, stuck⟩ := overrun_stuck (s := freshState [0, 0, 0, 6, 6, 0, 0, 0, 0, 0]) (by decide) (by decide) overruns
  have exactly := claimed (freshState [0, 0, 0, 6, 6, 0, 0, 0, 0, 0]) (by decide) (by decide)
  rw [ReceivesExactly, stuck] at exactly
  exact exactly

end Coalesce.SessionDeliver
