import Coalesce.Library.CallCost
import Coalesce.ProgramCalls

/-! What a peer can make the program use. Every call takes a bounded number of bytes from
the socket, puts a bounded number on it and asks the allocator a bounded number of times,
whatever arrives, whatever is refused, and also when it never comes back. -/

namespace Coalesce.Demands
open Library.CallResult Library.CallCost Buffer BufferBytes BufferReaders Aes Net Session SessionReceive SessionSend
open Ident hiding SshRole
open Ident (SshRole)
open IdentExchange Program

/-- Bytes taken, bytes written, and requests for memory. -/
abbrev Amount := Nat × Nat × Nat

def requests : Meter BufState Nat := (drops Bool).on BufState.heap

def traffic : Meter SshSession (Nat × Nat) := ((drops UInt8).prod (appends UInt8)).on fun s => (s.sock.rx, s.sock.tx)

def account : Meter (List UInt8 × List UInt8 × Heap) Amount := (drops UInt8).prod ((appends UInt8).prod (drops Bool))

def demands : Meter SessState Amount := account.on fun s => (s.sess.sock.rx, s.sess.sock.tx, s.heap)

def programDemands : Meter ProgState Amount := account.on fun s => (s.sess.sock.rx, s.sess.sock.tx, s.heap)

/-! Buffers ask for memory, and for nothing else. -/

theorem alloc_requests : Costs requests 1 alloc := by
  intro s
  rw [alloc_apply]
  by_cases granted : s.heap.alloc.1 = true
  · rw [if_pos granted]
    exact ⟨1, Nat.le_refl 1, heap_alloc_drop s.heap⟩
  · rw [if_neg granted]
    exact ⟨1, Nat.le_refl 1, heap_alloc_drop s.heap⟩

theorem bufReserve_requests (additional : Nat) : Costs requests 1 (bufReserve additional) := by
  refine Costs.read fun s => Costs.branch (fun _ => costs_pure requests 1 ()) fun _ => ?_
  simp only
  cases doubleCap ((s.buf.len + additional) % SIZE_MAX_SUCC) 64
      (if s.buf.cap ≠ 0 then s.buf.cap * 2 % SIZE_MAX_SUCC else BUF_MIN_CAP) with
  | none => exact costs_throw requests 1 .hang
  | some cap => exact alloc_requests.before fun _ => costs_unseen fun _ => rfl

theorem store_requests (bytes : List UInt8) : Costs requests 0 (store bytes) := costs_unseen fun _ => rfl

theorem bufInit_requests (cap : Nat) : Costs requests 1 (bufInit cap) :=
  Costs.after (costs_unseen fun _ => rfl) fun _ => alloc_requests.before fun _ => costs_unseen fun _ => rfl

theorem bufPutU8_requests (val : UInt8) : Costs requests 1 (bufPutU8 val) :=
  (bufReserve_requests 1).before fun _ => store_requests [val]

theorem bufPutU32_requests (val : UInt32) : Costs requests 1 (bufPutU32 val) :=
  (bufReserve_requests 4).before fun _ => store_requests (be32 val)

theorem bufPutBool_requests (val : Bool) : Costs requests 1 (bufPutBool val) := bufPutU8_requests _

theorem bufPutRaw_requests (src : Option (List UInt8)) (n : Nat) : Costs requests 1 (bufPutRaw src n) :=
  Costs.guard fun _ => Costs.branch (fun _ => costs_pure requests 1 ()) fun _ =>
    (bufReserve_requests n).before fun _ => store_requests _

/-- One request for the length and one for the text. -/
theorem bufPutCstring_requests (str : Option (List UInt8)) : Costs requests 2 (bufPutCstring str) := by
  have string (text : Option (List UInt8)) (len : Nat) : Costs requests 2 (bufPutString text len) :=
    (bufPutU32_requests _).bind fun _ => Costs.branch (fun _ => bufPutRaw_requests text len) fun _ => costs_pure requests 1 ()
  cases str with
  | none => exact string _ _
  | some text => exact string _ _

theorem bufGetU8_requests : Costs requests 0 bufGetU8 :=
  Costs.read fun _ => Costs.guard fun _ => Costs.after (costs_unseen fun _ => rfl) fun _ => costs_pure requests 0 _

theorem bufGetBool_requests : Costs requests 0 bufGetBool := bufGetU8_requests.after fun _ => costs_pure requests 0 _

theorem bufGetCstring_requests : Costs requests 1 bufGetCstring := by
  have word : Costs requests 0 bufGetU32 :=
    Costs.read fun _ => Costs.guard fun _ => Costs.after (costs_unseen fun _ => rfl) fun _ => costs_pure requests 0 _
  have string : Costs requests 1 bufGetString := by
    refine word.after fun len => Costs.read fun s => Costs.guard fun _ => alloc_requests.before fun _ => ?_
    split
    · exact Costs.after (costs_unseen fun _ => rfl) fun _ => costs_pure requests 0 _
    · exact costs_pure requests 0 _
  intro s
  have inside := string s
  rw [bufGetCstring]
  split <;> rename_i ended <;> rw [ended] at inside <;> exact inside

/-! The socket of a session. -/

theorem onBuf_demands {α : Type} {call : BufCall α} {n : Nat} (costs : Costs requests n call) :
    Costs demands (0, 0, n) (onBuf call) :=
  costs.zoom fun s _ used => ⟨(drops UInt8).still 0 s.sess.sock.rx, (appends UInt8).still 0 s.sess.sock.tx, used⟩

theorem readFull_demands (n : Nat) : Costs demands (n, 0, 0) (readFull n) := by
  intro s
  have socket : ∃ count ≤ n, ∃ cuts, (netReadFull s.sess.sock n).2.2 = s.sess.sock.after count cuts := by
    by_cases present : n ≤ s.sess.sock.rx.length
    · obtain ⟨cuts, whole⟩ := netReadFull_whole s.sess.sock n present
      exact ⟨n, Nat.le_refl n, cuts, by rw [whole]⟩
    · obtain ⟨cuts, short⟩ := netReadFull_short s.sess.sock n (Nat.lt_of_not_le present)
      exact ⟨_, Nat.le_of_lt (Nat.lt_of_not_le present), cuts, by rw [short]⟩
  obtain ⟨count, few, cuts, moved⟩ := socket
  have taken (t : SessState) (same : t = { s with sess := { s.sess with sock := s.sess.sock.after count cuts } }) :
      demands.Within (n, 0, 0) s t := by
    rw [same]
    exact ⟨⟨count, few, rfl⟩, ⟨[], Nat.le_refl 0, (List.append_nil _).symm⟩, ⟨0, Nat.le_refl 0, rfl⟩⟩
  rw [readFull, bind_of_ok (get_apply s), bind_of_ok (set_apply _ _), moved]
  cases decide ((netReadFull s.sess.sock n).1 ≠ n) <;> exact taken _ rfl

theorem written (sock : Socket) (bytes : List UInt8) : ∃ added plan, added.length ≤ bytes.length ∧
    (netWriteFull sock bytes).2 = { sock with tx := sock.tx ++ added, txPlan := plan } := by
  rcases netWriteFull_cases sock bytes with ⟨plan, whole, -⟩ | ⟨-, count, plan, -, stopped⟩
  · exact ⟨bytes, plan, Nat.le_refl _, by rw [whole]⟩
  · exact ⟨bytes.take count, plan, List.length_take_le' _ _, by rw [stopped]⟩

theorem writeFull_demands (bytes : List UInt8) : Costs demands (0, bytes.length, 0) (writeFull bytes) := by
  intro s
  obtain ⟨added, plan, few, moved⟩ := written s.sess.sock bytes
  rw [writeFull, bind_of_ok (get_apply s), bind_of_ok (set_apply _ _), moved]
  have put : demands.Within (0, bytes.length, 0) s
      { s with sess := { s.sess with sock := { s.sess.sock with tx := s.sess.sock.tx ++ added, txPlan := plan } } } :=
    ⟨(drops UInt8).still 0 s.sess.sock.rx, ⟨added, few, rfl⟩, (drops Bool).still 0 s.heap⟩
  cases decide ((netWriteFull s.sess.sock bytes).1 ≠ bytes.length) <;> exact put

theorem cryptOut_demands (data : List UInt8) : Costs demands 0 (cryptOut data) := fun s => demands.still 0 s

theorem cryptIn_demands (data : List UInt8) : Costs demands 0 (cryptIn data) := fun s => demands.still 0 s

/-! Sending. -/

theorem sendPacket_demands (buf : List UInt8) : Costs demands (0, buf.length + 32, 0) (sendPacket buf) := by
  have counted : Costs demands 0 (modify fun t : SessState =>
      { t with sess := { t.sess with out := { t.sess.out with seq := t.sess.out.seq + 1 } } }) := costs_unseen fun _ => rfl
  refine Costs.read fun s => Costs.branch (fun _ => ?_) fun _ => ?_
  · have tag : (if s.sess.out.macKeyLen.val > 0 then packetMac s.sess.out buf else []).length ≤ 32 := by
      split
      · exact Nat.le_of_eq (Sha256.hmacSha256Final_length _)
      · exact Nat.zero_le 32
    have cipher (t : SessState) (value : List UInt8) (u : SessState) (returned : cryptOut buf t = .ok value u) :
        value.length = buf.length := by
      cases returned
      exact aesCtrCrypt_length _ _
    refine ((cryptOut_demands buf).bind_when cipher fun value same => ?_).more (le_of_eq (zero_add _))
    refine ((writeFull_demands _).more ⟨Nat.le_refl 0, ?_, Nat.le_refl 0⟩).before fun _ => counted
    rw [List.length_append, same]
    exact Nat.add_le_add_left tag _
  · exact ((writeFull_demands buf).more ⟨Nat.le_refl 0, Nat.le_add_right _ _, Nat.le_refl 0⟩).before fun _ => counted

/-- A packet of the largest size and its MAC. -/
theorem sessionSend_demands (rand : (n : Nat) → Option (Vector UInt8 n)) (payload : Option (List UInt8)) (len : Nat) :
    Costs demands (0, 35032, 1) (sessionSend rand payload len) := by
  refine Costs.guard fun sized => Costs.read fun s => Costs.guard fun fits => ?_
  rw [Bool.or_eq_false_iff, decide_eq_false_iff_not] at sized
  rw [decide_eq_false_iff_not] at fits
  obtain ⟨-, padding_most, -⟩ := paddingSize_bounds s.sess.out len
  generalize paddingSize (blockOf s.sess.out) len = pad at *
  have field : (UInt32.ofNat (1 + len + pad)).toNat = 1 + len + pad := by
    unfold MAX_PAYLOAD_SIZE at sized
    rw [UInt32.toNat_ofNat_of_lt' (by unfold UInt32.size; omega)]
  refine ((onBuf_demands alloc_requests).bind (n := (0, 35032, 0)) fun _ => ?_).more (by decide)
  cases rand pad with
  | none => exact costs_throw demands _ .fail
  | some padding =>
    refine (sendPacket_demands _).more ⟨Nat.le_refl 0, ?_, Nat.le_refl 0⟩
    have short := List.length_take_le len (payload.getD [])
    simp only [List.length_append, be32_length, List.length_singleton, Vector.length_toList]
    unfold MAX_PACKET_SIZE at fits
    omega

/-! Receiving. -/

theorem recvPlain_demands : Costs demands (35004, 0, 1) recvPlain := by
  refine ((readFull_demands 4).bind fun head => Costs.guard fun sized => ?_).more (by decide : (4, 0, 0) + (35000, 0, 1) ≤ _)
  rw [Bool.or_eq_false_iff, decide_eq_false_iff_not, decide_eq_false_iff_not] at sized
  unfold MAX_PACKET_SIZE at sized
  have rest := (readFull_demands (getBe32 head).toNat).more
    (show ((getBe32 head).toNat, 0, 0) ≤ ((35000, 0, 0) : Amount) from ⟨by omega, Nat.le_refl 0, Nat.le_refl 0⟩)
  exact ((onBuf_demands alloc_requests).bind fun _ => rest.before fun _ => costs_pure demands 0 _).more (by decide)

theorem checkMac_demands (pkt : List UInt8) : Costs demands (32, 0, 0) (checkMac pkt) :=
  Costs.read fun _ => Costs.branch (fun _ => (readFull_demands 32).before fun _ => costs_failIf demands 0 _) fun _ =>
    costs_pure demands _ ()

theorem recvEncrypted_demands : Costs demands (35036, 0, 1) recvEncrypted := by
  refine ((readFull_demands 16).bind fun cipher => (cryptIn_demands cipher).after fun first => Costs.guard fun sized =>
    Costs.guard fun _ => ?_).more (by decide : (16, 0, 0) + (35020, 0, 1) ≤ _)
  rw [Bool.or_eq_false_iff, decide_eq_false_iff_not, decide_eq_false_iff_not] at sized
  unfold MAX_PACKET_SIZE at sized
  have tail : Costs demands (35020, 0, 0) (if 4 + (getBe32 first).toNat - SSH_CIPHER_BLOCK > 0 then do
      let cipher ← readFull (4 + (getBe32 first).toNat - SSH_CIPHER_BLOCK)
      let tail ← cryptIn cipher
      checkMac (first ++ tail)
      pure (first ++ tail)
    else do
      checkMac first
      pure first) := by
    refine Costs.branch (fun _ => ?_) fun _ => ?_
    · have rest := (readFull_demands (4 + (getBe32 first).toNat - SSH_CIPHER_BLOCK)).more
        (show (_, 0, 0) ≤ ((34988, 0, 0) : Amount) from ⟨by unfold SSH_CIPHER_BLOCK; omega, Nat.le_refl 0, Nat.le_refl 0⟩)
      exact (rest.bind fun cipher => (cryptIn_demands cipher).after fun tail => (checkMac_demands _).before fun _ =>
        costs_pure demands 0 _).more (by decide)
    · exact ((checkMac_demands first).before fun _ => costs_pure demands 0 _).more (by decide)
  exact ((onBuf_demands alloc_requests).bind fun _ => tail).more (by decide)

theorem deliver_demands (pkt : List UInt8) : Costs demands (0, 0, 1) (deliver pkt) :=
  Costs.guard fun _ => Costs.guard fun _ => Costs.after (costs_unseen fun _ => rfl) fun _ =>
    (onBuf_demands (bufPutRaw_requests _ _)).before fun _ => costs_unseen fun _ => rfl

/-- One packet of the largest size and its MAC. -/
theorem sessionRecv_demands : Costs demands (35036, 0, 2) sessionRecv := by
  have packet : Costs demands (35036, 0, 1) recvPacket :=
    Costs.read fun _ => Costs.branch (fun _ => recvEncrypted_demands) fun _ => recvPlain_demands.more (by decide)
  exact (packet.bind fun pkt => deliver_demands pkt).more (by decide)

/-! The exchange of identifications. -/

theorem line_taken (sock : Socket) : ∃ count ≤ 256, ∃ cuts,
    (netReadLine sock (SSH_IDENT_MAX + 2)).2.2 = sock.after count cuts := by
  have room : SSH_IDENT_MAX + 2 - 1 = 256 := by decide
  rw [netReadLine, room]
  rcases lineLoop_cases 256 sock [] with ⟨body, rest, cuts, -, -, reach, result⟩ | ⟨body, rest, cuts, -, -, full, result⟩ |
    ⟨cuts, -, short, result⟩
  · exact ⟨body.length + 1, reach, cuts, by rw [result]⟩
  · exact ⟨body.length, Nat.le_of_eq full, cuts, by rw [result]⟩
  · exact ⟨sock.rx.length, Nat.le_of_lt short, cuts, by rw [result]⟩

theorem readIdent_traffic (role : SshRole) (attempts : Nat) : Costs traffic (attempts * 256, 0) (readIdent role attempts) := by
  induction attempts with
  | zero => exact costs_throw traffic _ .fail
  | succ attempts ih =>
    intro s
    obtain ⟨count, few, cuts, moved⟩ := line_taken s.sock
    have first : traffic.Within (256, 0) s { s with sock := s.sock.after count cuts } :=
      ⟨⟨count, few, rfl⟩, (appends UInt8).still 0 s.sock.tx⟩
    rw [readIdent, bind_of_ok (get_apply s), bind_of_ok (set_apply _ _), moved]
    generalize (netReadLine s.sock (SSH_IDENT_MAX + 2)).2.1 = line
    generalize (netReadLine s.sock (SSH_IDENT_MAX + 2)).1 = result
    -- the next attempt, or the end
    have rest : Costs traffic (attempts * 256, 0) (do
        failIf (result ≤ 0)
        failIf (line.getD (result.toNat - 1) 0 ≠ LF)
        if charsAt line 0 "SSH-" = false then readIdent role attempts
        else
          failIf (sessionIdentCheck line result.toNat ≠ 0)
          modify fun s => storePeer role s line (identStripCrlf line result.toNat)) := by
      refine Costs.guard fun _ => Costs.guard fun _ => Costs.branch (fun _ => ih) fun _ => Costs.guard fun _ => ?_
      exact costs_unseen fun t => by cases role <;> rfl
    have both := traffic.join first (rest _)
    refine traffic.more both ⟨?_, Nat.le_refl 0⟩
    change 256 + attempts * 256 ≤ (attempts + 1) * 256
    omega

/-- Fifty lines of the largest size, and the identification of the program. -/
theorem sessionExchangeIdent_traffic (role : SshRole) :
    Costs traffic (12800, IDENT_STRING.length) (sessionExchangeIdent role) := by
  intro s
  obtain ⟨added, plan, few, moved⟩ := written s.sock IDENT_STRING
  have first : traffic.Within (0, IDENT_STRING.length) s
      { s with sock := { s.sock with tx := s.sock.tx ++ added, txPlan := plan } } :=
    ⟨(drops UInt8).still 0 s.sock.rx, ⟨added, few, rfl⟩⟩
  rw [sessionExchangeIdent, bind_of_ok (get_apply s), bind_of_ok (set_apply _ _), moved]
  have rest : Costs traffic (12800, 0) (do
      failIf ((netWriteFull s.sock IDENT_STRING).1 ≠ IDENT_STRING.length)
      failIf (identStripCrlf IDENT_STRING IDENT_STRING.length > SSH_IDENT_MAX - 2)
      modify fun s => storeOwn role s IDENT_STRING (identStripCrlf IDENT_STRING IDENT_STRING.length)
      readIdent role 50) :=
    Costs.guard fun _ => Costs.guard fun _ => Costs.after (costs_unseen fun t => by cases role <;> rfl) fun _ =>
      readIdent_traffic role 50
  have both := traffic.join first (rest _)
  rw [Prod.mk_add_mk, Nat.zero_add, Nat.add_zero] at both
  exact both

/-! The programs. -/

section
variable {α : Type} {amount : Amount}

theorem onSess_demands {call : SessCall α} (costs : Costs demands amount call) : Costs programDemands amount (onSess call) :=
  costs.zoom fun _ _ used => used

theorem onIdent_demands {call : Call SshSession α} {taken written : Nat} (costs : Costs traffic (taken, written) call) :
    Costs programDemands (taken, written, 0) (onIdent call) :=
  costs.zoom fun s _ used => ⟨used.1, used.2, (drops Bool).still 0 s.heap⟩

theorem buffer_demands {call : BufCall α} {n : Nat} (costs : Costs requests n call) :
    Costs programDemands (0, 0, n) (onSess (onBuf call)) := onSess_demands (onBuf_demands costs)

theorem status_demands {call : ProgCall α} (costs : Costs programDemands amount call) :
    Costs programDemands amount (status call) := by
  intro s
  have used := costs s
  rw [status]
  split <;> rename_i ended <;> rw [ended] at used <;> exact used

theorem ignore_demands {call : ProgCall α} (costs : Costs programDemands amount call) :
    Costs programDemands amount (ignore call) := (status_demands costs).before fun _ => costs_pure programDemands 0 _

theorem valueOr_demands {call : ProgCall α} (initial : α) (costs : Costs programDemands amount call) :
    Costs programDemands amount (valueOr initial call) := by
  intro s
  have used := costs s
  rw [valueOr]
  split <;> rename_i ended <;> rw [ended] at used <;> exact used

theorem printf_demands (text : List UInt8) : Costs programDemands 0 (printf text) := costs_unseen fun _ => rfl

theorem eprintf_demands (text : List UInt8) : Costs programDemands 0 (eprintf text) := costs_unseen fun _ => rfl

theorem declareBuf_demands (stack : SshBuf) (cap : Nat) : Costs programDemands (0, 0, 1) (declareBuf stack cap) :=
  Costs.after (costs_unseen fun _ => rfl) fun _ => ignore_demands (buffer_demands (bufInit_requests cap))

theorem sendBuf_demands (sys : System) : Costs programDemands (0, 35032, 1) (onSess (sessionSendBuf sys.rand)) :=
  onSess_demands (Costs.read fun _ => sessionSend_demands _ _ _)

theorem put_demands {call : BufCall Unit} {n : Nat} (costs : Costs requests n call) :
    Costs programDemands (0, 0, n) (put call) := ignore_demands (buffer_demands costs)

end

theorem showPacket_demands : Costs programDemands 0 showPacket := by
  refine Costs.after (valueOr_demands none ((buffer_demands bufGetU8_requests).map some)) fun read => ?_
  cases read with
  | none => exact costs_pure programDemands 0 ()
  | some msgType => exact Costs.read fun _ => printf_demands _

theorem sendReply_demands (sys : System) : Costs programDemands (0, 35032, 8) (sendReply sys) :=
  ((declareBuf_demands _ _).bind fun _ => (put_demands (bufPutU8_requests _)).bind fun _ =>
    (put_demands (bufPutBool_requests _)).bind fun _ => (put_demands (bufPutCstring_requests _)).bind fun _ =>
      (put_demands (bufPutCstring_requests _)).bind fun _ => ignore_demands (sendBuf_demands sys)).more (by decide)

theorem serverPacket_demands (sys : System) : Costs programDemands (35036, 35032, 10) (serverPacket sys) :=
  ((status_demands (onSess_demands sessionRecv_demands)).bind fun _ =>
    Costs.branch (fun _ => showPacket_demands.after fun _ => sendReply_demands sys) fun _ =>
      (eprintf_demands _).more (by decide)).more (by decide)

theorem sendTest_demands (sys : System) : Costs programDemands (0, 35032, 5) (sendTest sys) :=
  ((declareBuf_demands _ _).bind fun _ => (put_demands (bufPutU8_requests _)).bind fun _ =>
    (put_demands (bufPutCstring_requests _)).bind fun _ => (status_demands (sendBuf_demands sys)).before fun _ =>
      Costs.branch (fun _ => Costs.read fun _ => printf_demands _) fun _ => eprintf_demands _).more (by decide)

theorem clientReply_demands : Costs programDemands (35036, 0, 3) clientReply := by
  have shown : Costs programDemands (0, 0, 1) showReply := by
    refine Costs.after (valueOr_demands 0 (buffer_demands bufGetU8_requests)) fun msgType => Costs.branch (fun _ => ?_) fun _ =>
      (printf_demands _).more (by decide)
    exact Costs.after (valueOr_demands false (buffer_demands bufGetBool_requests)) fun _ =>
      (buffer_demands bufGetCstring_requests).before fun _ => printf_demands _
  exact ((status_demands (onSess_demands sessionRecv_demands)).bind fun _ =>
    Costs.branch (fun _ => shown) fun _ => costs_pure programDemands _ ()).more (by decide)

/-- So much of the socket and of the allocator has been used at the end. -/
structure Bounded (taken written asked : Nat) (sock : Socket) (heap : Heap) (t : ProgState) : Prop where
  taken : ∃ count ≤ taken, t.sess.sock.rx = sock.rx.drop count
  written : ∃ bytes : List UInt8, bytes.length ≤ written ∧ t.sess.sock.tx = sock.tx ++ bytes
  asked : ∃ count ≤ asked, t.heap = heap.drop count

theorem bounded_session {sock : Socket} {s : ProgState} {taken written asked : Nat} {rest : ProgCall Int}
    (costs : Costs programDemands (taken, written, asked) rest) :
    Bounded taken written asked sock s.heap (stateOf ((modify (fun s : ProgState => { s with sess := sessionInit sock }) >>=
      fun _ => rest) s)) := by
  rw [bind_of_ok (modify_apply _ _)]
  obtain ⟨read, put, asks⟩ := costs { s with sess := sessionInit sock }
  exact ⟨read, put, asks⟩

/-- One connection of either program, against any peer, with any allocator and any source of
random bytes: fifty lines and one packet are taken at most, one identification and one packet
are written at most, and the allocator is asked eleven or nine times at most, also when the
program fails on the way or sits in a loop for ever. -/
theorem connection_bounded (sys : System) (sock : Socket) (s : ProgState) :
    Bounded (12800 + 35036) (24 + 35032) 11 sock s.heap (stateOf (serverSession sys sock s)) ∧
      Bounded (12800 + 35036) (24 + 35032) 9 sock s.heap (stateOf (clientSession sys sock s)) := by
  have identified (role : SshRole) : Costs programDemands (12800, 24, 0) (status (onIdent (sessionExchangeIdent role))) :=
    status_demands (onIdent_demands ((sessionExchangeIdent_traffic role).more (by decide)))
  constructor
  · apply bounded_session
    refine ((identified .server).bind fun _ => Costs.branch (fun _ => Costs.read fun _ => ?_) fun _ => ?_).more
      (by decide : _ + (35036, 35032, 11) ≤ _)
    · exact (printf_demands _).after fun _ => ((declareBuf_demands _ _).bind fun _ => (serverPacket_demands sys).before fun _ =>
        (printf_demands _).before fun _ => costs_pure programDemands 0 _).more (by decide)
    · exact ((eprintf_demands _).before fun _ => costs_pure programDemands 0 _).more (by decide)
  · apply bounded_session
    refine ((identified .client).bind fun _ => Costs.branch (fun _ => Costs.read fun _ => ?_) fun _ => ?_).more
      (by decide : _ + (35036, 35032, 9) ≤ _)
    · exact (printf_demands _).after fun _ => ((sendTest_demands sys).bind fun _ => (declareBuf_demands _ _).bind fun _ =>
        clientReply_demands.before fun _ => (printf_demands _).before fun _ => costs_pure programDemands 0 _).more (by decide)
    · exact ((eprintf_demands _).before fun _ => costs_pure programDemands 0 _).more (by decide)

end Coalesce.Demands
