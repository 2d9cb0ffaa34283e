import Coalesce.IdentGrammar
import Coalesce.Program
import Coalesce.SessionFrame
import Coalesce.SessionNetwork

/-! What each call of the program leaves behind, in terms of the bytes on the wire and
the texts that have been printed. -/

namespace Coalesce.ProgramCalls
open Library.CallResult Buffer BufferBytes BufferReaders Net Session SessionReceive SessionDeliver SessionSend
open SessionNetwork (drawn)
open Ident hiding SshRole
open Ident (SshRole)
open IdentExchange IdentScan IdentGrammar Program SessionFrame

/-- Where the program stands: both directions, what is still to be read and what has been
written and printed. Memory and socket give what is asked of them. -/
structure Stands (s : ProgState) (out inn : SshDirection) (rx tx stdout stderr : List UInt8) : Prop where
  plenty : Plenty s.heap
  accepting : Accepting s.sess.sock
  out : s.sess.out = out
  inn : s.sess.inn = inn
  rx : s.sess.sock.rx = rx
  tx : s.sess.sock.tx = tx
  stdout : s.out = stdout
  stderr : s.err = stderr

/-- A buffer in order, with nothing read yet. -/
structure Holding (buf : SshBuf) (bytes : List UInt8) : Prop where
  valid : Valid buf
  contents : contents buf = bytes
  rpos : buf.rpos = 0

theorem Holding.len {buf : SshBuf} {bytes : List UInt8} (holding : Holding buf bytes) : buf.len = bytes.length := by
  rw [← holding.valid.sound.length_contents, holding.contents]

theorem Holding.unread {buf : SshBuf} {bytes : List UInt8} (holding : Holding buf bytes) : unread buf = bytes := by
  rw [BufferBytes.unread, holding.contents, holding.rpos, List.drop_zero]

/-! Calls whose status is all that counts. -/

section
variable {σ α : Type} {call : Call σ α} {s t : σ} {value : α}

theorem status_of_ok (returned : call s = .ok value t) : status call s = .ok true t := by
  rw [status, returned]

theorem status_of_fail (failed : call s = .error .fail t) : status call s = .ok false t := by
  rw [status, failed]

theorem status_of_hang (stuck : call s = .error .hang t) : status call s = .error .hang t := by
  rw [status, stuck]

theorem ignore_of_ok (returned : call s = .ok value t) : ignore call s = .ok () t := by
  rw [ignore, bind_of_ok (status_of_ok returned)]
  rfl

theorem valueOr_of_ok {initial : α} (returned : call s = .ok value t) : valueOr initial call s = .ok value t := by
  rw [valueOr, returned]

theorem valueOr_of_fail {initial : α} (failed : call s = .error .fail t) : valueOr initial call s = .ok initial t := by
  rw [valueOr, failed]

end

theorem map_of_ok {σ α β : Type} {call : Call σ α} {s t : σ} {value : α} (f : α → β) (returned : call s = .ok value t) :
    (f <$> call) s = .ok (f value) t := by
  change EStateM.map f call s = _
  rw [EStateM.map, returned]

theorem onSess_of_ok {α : Type} {call : SessCall α} {s : ProgState} {t : SessState} {value : α}
    (returned : call ⟨s.heap, s.sess, s.buf⟩ = .ok value t) :
    onSess call s = .ok value { s with heap := t.heap, sess := t.sess, buf := t.buf } := zoom_of_ok returned

theorem onSess_of_error {α : Type} {call : SessCall α} {s : ProgState} {t : SessState} {exit : Exit}
    (stopped : call ⟨s.heap, s.sess, s.buf⟩ = .error exit t) :
    onSess call s = .error exit { s with heap := t.heap, sess := t.sess, buf := t.buf } := zoom_of_error stopped

theorem onSess_onBuf_of_ok {α : Type} {call : BufCall α} {s : ProgState} {t : BufState} {value : α}
    (returned : call ⟨s.heap, s.buf⟩ = .ok value t) :
    onSess (onBuf call) s = .ok value { s with heap := t.heap, buf := t.buf } :=
  onSess_of_ok (s := s) (onBuf_of_ok (s := ⟨s.heap, s.sess, s.buf⟩) returned)

theorem onIdent_of_ok {α : Type} {call : Call SshSession α} {s : ProgState} {t : SshSession} {value : α}
    (returned : call s.sess = .ok value t) : onIdent call s = .ok value { s with sess := t } := zoom_of_ok returned

theorem onIdent_of_error {α : Type} {call : Call SshSession α} {s : ProgState} {t : SshSession} {exit : Exit}
    (stopped : call s.sess = .error exit t) : onIdent call s = .error exit { s with sess := t } := zoom_of_error stopped

section
variable {s : ProgState} {out inn : SshDirection} {rx tx stdout stderr : List UInt8}

theorem printf_stands (stands : Stands s out inn rx tx stdout stderr) (text : List UInt8) :
    ∃ t, printf text s = .ok () t ∧ Stands t out inn rx tx (stdout ++ text) stderr ∧ t.buf = s.buf := by
  obtain ⟨plenty, accepting, out_eq, inn_eq, rx_eq, tx_eq, stdout_eq, stderr_eq⟩ := stands
  exact ⟨_, rfl, ⟨plenty, accepting, out_eq, inn_eq, rx_eq, tx_eq, by rw [← stdout_eq], stderr_eq⟩, rfl⟩

/-! Buffers. -/

theorem bufInit_ok {s : BufState} (plenty : Plenty s.heap) {cap : Nat} (small : cap ≤ 256) :
    ∃ t, bufInit cap s = .ok () t ∧ Plenty t.heap ∧ Holding t.buf [] := by
  obtain ⟨granted, rest⟩ := plenty_alloc plenty
  have given := (alloc_apply { s with buf := { s.buf with data := [] } }).trans (if_pos granted)
  rw [bufInit]
  simp only
  rw [bind_of_ok (modify_apply _ _), bind_of_ok given]
  refine ⟨_, rfl, rest, ⟨List.length_replicate, Nat.zero_le _, Nat.le_refl _, ?_⟩, rfl, rfl⟩
  change (if cap < BUF_MIN_CAP then BUF_MIN_CAP else cap) < 2 ^ 63 - 1
  unfold BUF_MIN_CAP
  split <;> omega

theorem declareBuf_stands (stands : Stands s out inn rx tx stdout stderr) (stack : SshBuf) (cap : Nat) (small : cap ≤ 256) :
    ∃ t, declareBuf stack cap s = .ok () t ∧ Stands t out inn rx tx stdout stderr ∧ Holding t.buf [] := by
  obtain ⟨t, made, plenty, holding⟩ := bufInit_ok (s := ⟨s.heap, stack⟩) stands.plenty small
  obtain ⟨-, accepting, out_eq, inn_eq, rx_eq, tx_eq, stdout_eq, stderr_eq⟩ := stands
  refine ⟨{ s with heap := t.heap, buf := t.buf }, ?_,
    ⟨plenty, accepting, out_eq, inn_eq, rx_eq, tx_eq, stdout_eq, stderr_eq⟩, holding⟩
  rw [declareBuf, bind_of_ok (modify_apply _ _)]
  exact ignore_of_ok (onSess_onBuf_of_ok (s := { s with buf := stack }) made)

theorem put_stands (stands : Stands s out inn rx tx stdout stderr) {call : BufCall Unit} {bytes more : List UInt8}
    (holding : Holding s.buf bytes) (writes : Appends call more) (room : bytes.length + more.length < BUF_ROOM) :
    ∃ t, put call s = .ok () t ∧ Stands t out inn rx tx stdout stderr ∧ Holding t.buf (bytes ++ more) := by
  obtain ⟨t, written, appended⟩ := writes.ok (s := ⟨s.heap, s.buf⟩) holding.valid stands.plenty (by
    rw [← holding.len] at room
    exact room)
  obtain ⟨plenty, accepting, out_eq, inn_eq, rx_eq, tx_eq, stdout_eq, stderr_eq⟩ := stands
  refine ⟨_, ignore_of_ok (onSess_onBuf_of_ok written),
    ⟨appended.plenty plenty, accepting, out_eq, inn_eq, rx_eq, tx_eq, stdout_eq, stderr_eq⟩, appended.valid, ?_, ?_⟩
  · rw [appended.contents, holding.contents]
  · rw [appended.rpos]
    exact holding.rpos

/-! Packets. -/

/-- Only the bytes that are sent are looked at. -/
theorem sessionSend_take (rand : (n : Nat) → Option (Vector UInt8 n)) (payload : List UInt8) (len : Nat) :
    sessionSend rand (some payload) len = sessionSend rand (some (payload.take len)) len := by
  unfold sessionSend
  simp only [Option.isNone_some, Option.getD_some, List.take_take, Nat.min_self]

/-- A send that has memory, entropy and an open socket; its packet in terms of what it draws. -/
theorem sessionSend_drawn {s : SessState} {rand : (n : Nat) → Option (Vector UInt8 n)} {payload : List UInt8}
    (plenty : Plenty s.heap) (accepting : Accepting s.sess.sock) (sendable : Sendable payload)
    (entropy : ∀ n, (rand n).isSome) :
    ∃ t, sessionSend rand (some payload) payload.length s = .ok () t ∧ Sent s t (framed payload (drawn rand s.sess.out payload)) := by
  obtain ⟨padding, gives⟩ := Option.isSome_iff_exists.mp (entropy (paddingSize (blockOf s.sess.out) payload.length))
  obtain ⟨t, returned, sent⟩ := sessionSend_ok plenty accepting sendable gives
  have pad : drawn rand s.sess.out payload = padding.toList := by simp [drawn, gives]
  exact ⟨t, returned, pad ▸ sent⟩

theorem sessionSendBuf_ok {s : SessState} {rand : (n : Nat) → Option (Vector UInt8 n)} {payload : List UInt8}
    (holding : Holding s.buf payload) (plenty : Plenty s.heap) (accepting : Accepting s.sess.sock)
    (sendable : Sendable payload) (entropy : ∀ n, (rand n).isSome) :
    ∃ t, sessionSendBuf rand s = .ok () t ∧ Sent s t (framed payload (drawn rand s.sess.out payload)) := by
  obtain ⟨t, returned, sent⟩ := sessionSend_drawn plenty accepting sendable entropy
  have block : s.buf.data ≠ [] := by
    intro empty
    have length := holding.valid.sound.length_contents
    rw [holding.contents, holding.len] at length
    have nothing := holding.contents
    rw [contents, empty, List.take_nil] at nothing
    have positive := sendable.1
    rw [← nothing] at positive
    exact absurd positive (by decide)
  refine ⟨t, ?_, sent⟩
  have bytes : s.buf.data.take payload.length = payload := by
    have stored := holding.contents
    rw [contents, holding.len] at stored
    exact stored
  rw [sessionSendBuf, bind_of_ok (get_apply s)]
  simp only [if_neg block, holding.len]
  rw [sessionSend_take, bytes]
  exact returned

theorem sendBuf_stands (stands : Stands s out inn rx tx stdout stderr) {rand : (n : Nat) → Option (Vector UInt8 n)}
    {payload : List UInt8} (holding : Holding s.buf payload) (sendable : Sendable payload) (entropy : ∀ n, (rand n).isSome) :
    ∃ t, onSess (sessionSendBuf rand) s = .ok () t ∧
      Stands t (counted out (framed payload (drawn rand out payload))) inn rx
        (tx ++ protect out (framed payload (drawn rand out payload))) stdout stderr := by
  obtain ⟨t, returned, sent⟩ := sessionSendBuf_ok (s := ⟨s.heap, s.sess, s.buf⟩) holding stands.plenty stands.accepting
    sendable entropy
  obtain ⟨plenty, accepting, out_eq, inn_eq, rx_eq, tx_eq, stdout_eq, stderr_eq⟩ := stands
  refine ⟨_, onSess_of_ok returned, sent.plenty plenty, sent.accepting, ?_, sent.inn.trans inn_eq, sent.rx.trans rx_eq, ?_,
    stdout_eq, stderr_eq⟩
  · rw [← out_eq]
    exact sent.out
  · rw [← out_eq, ← tx_eq]
    exact sent.tx

/-- What a receive does not touch. -/
def outside (s : SessState) : SshDirection × List UInt8 × List (Option Nat) :=
  (s.sess.out, s.sess.sock.tx, s.sess.sock.txPlan)

theorem keeps_outside : Keeps outside sessionRecv := Unmoved.sessionRecv fun _ _ _ _ _ _ _ => rfl

/-- What is left of the account when the direction of receiving is no longer used. -/
structure Shows (s : ProgState) (tx stdout stderr : List UInt8) : Prop where
  tx : s.sess.sock.tx = tx
  stdout : s.out = stdout
  stderr : s.err = stderr

theorem Stands.shows (stands : Stands s out inn rx tx stdout stderr) : Shows s tx stdout stderr :=
  ⟨stands.tx, stands.stdout, stands.stderr⟩

/-- The three ways in which a receive ends. -/
inductive Received (out inn : SshDirection) (rx tx stdout stderr : List UInt8) :
    EStateM.Result Exit ProgState Bool → Prop
  | packet {p : List UInt8} {t : ProgState} (incoming : Incoming inn rx p) (good : GoodPadding p)
      (stands : Stands t out (counted inn p) (rx.drop (p.length + macLength inn)) tx stdout stderr)
      (holding : Holding t.buf (payloadOf p)) : Received out inn rx tx stdout stderr (.ok true t)
  | refused {t : ProgState} (wrong : ∀ p, Incoming inn rx p → ¬GoodPadding p ∧ ¬OverrunPadding p)
      (shows : Shows t tx stdout stderr) : Received out inn rx tx stdout stderr (.ok false t)
  | stuck {p : List UInt8} {t : ProgState} (incoming : Incoming inn rx p) (overrun : OverrunPadding p)
      (shows : Shows t tx stdout stderr) : Received out inn rx tx stdout stderr (.error .hang t)

theorem recv_stands (stands : Stands s out inn rx tx stdout stderr) (valid : Valid s.buf) :
    Received out inn rx tx stdout stderr (status (onSess sessionRecv) s) := by
  obtain ⟨plenty, accepting, out_eq, inn_eq, rx_eq, tx_eq, stdout_eq, stderr_eq⟩ := stands
  have outcome := sessionRecv_outcome (s := ⟨s.heap, s.sess, s.buf⟩) valid
  have kept := keeps_outside ⟨s.heap, s.sess, s.buf⟩
  rw [← inn_eq, ← rx_eq]
  cases result : sessionRecv ⟨s.heap, s.sess, s.buf⟩ with
  | ok value t =>
    rw [result] at outcome kept
    have out_same : t.sess.out = s.sess.out := congrArg Prod.fst kept
    have tx_same : t.sess.sock.tx = s.sess.sock.tx := congrArg (fun view => view.2.1) kept
    have plan_same : t.sess.sock.txPlan = s.sess.sock.txPlan := congrArg (fun view => view.2.2) kept
    rw [status_of_ok (onSess_of_ok result)]
    cases outcome with
    | delivered incoming good received =>
      obtain ⟨cuts, sock⟩ := received.sock
      refine .packet incoming good ⟨received.plenty plenty, ?_, out_same.trans out_eq, received.inn, ?_,
        tx_same.trans tx_eq, stdout_eq, stderr_eq⟩ ⟨received.valid, received.contents, received.rpos⟩
      · intro step member
        exact accepting step (by rw [← plan_same]; exact member)
      · change t.sess.sock.rx = _
        rw [sock]
        rfl
  | error exit t =>
    rw [result] at outcome kept
    have tx_same : t.sess.sock.tx = s.sess.sock.tx := congrArg (fun view => view.2.1) kept
    have shows : Shows { s with heap := t.heap, sess := t.sess, buf := t.buf } tx stdout stderr :=
      ⟨tx_same.trans tx_eq, stdout_eq, stderr_eq⟩
    cases outcome with
    | refused wrong =>
      rw [status_of_fail (onSess_of_error result)]
      exact .refused (wrong plenty) shows
    | scarce scarce => exact absurd plenty scarce
    | stuck incoming overrun =>
      rw [status_of_hang (onSess_of_error result)]
      exact .stuck incoming overrun shows

/-! The identification. -/

/-- An identification that passes the check is printable, to its last character. -/
theorem identification_printable {line : List UInt8} (valid : sessionIdentCheck line line.length = 0) :
    ∀ c ∈ stripped line, CommentChar c := by
  have accepted := (accepts_iff line []).mp (by rw [List.append_nil]; exact valid)
  have version : ∀ char, VersionChar char → CommentChar char := by
    intro char inside
    have low : (0x20 : UInt8) ≤ 0x21 := by decide
    exact ⟨UInt8.le_trans low inside.1, inside.2.1⟩
  have comments : ∀ text : List UInt8, (∀ char ∈ text, CommentChar char) → ∀ char ∈ SP :: text, CommentChar char := by
    intro text printable char member
    rcases List.mem_cons.mp member with rfl | member
    · exact ⟨by decide, by decide⟩
    · exact printable char member
  have banner : ∀ v, Protocol v → ∀ char ∈ literal "SSH-" ++ v ++ literal "-", CommentChar char := by
    rintro v (rfl | rfl) <;> unfold CommentChar <;> decide +kernel
  rcases accepted with ⟨-, v, sw, c, split, protocol, -, versions, behind⟩ | ⟨-, v, text, split, protocol, printable⟩
  · rw [split]
    intro char member
    rcases List.mem_append.mp member with front | last
    · rcases List.mem_append.mp front with front | software
      · exact banner v protocol char front
      · exact version char (versions char software)
    · rcases behind with rfl | ⟨text, rfl, printable⟩
      · exact absurd last List.not_mem_nil
      · exact comments text printable char last
  · rw [split]
    intro char member
    rcases List.mem_append.mp member with front | last
    · exact banner v protocol char front
    · exact comments text printable char last

theorem identText_eq {ident : SshIdent} {text : List UInt8} (holds : Holds ident text) (clean : 0 ∉ text) :
    identText ident = text := by
  have chars : ∀ c ∈ text, decide (c ≠ 0) = true := by
    intro c member
    rw [decide_eq_true_eq]
    exact fun same => clean (same ▸ member)
  have within : text.length < ident.chars.toList.length := (List.getElem?_eq_some_iff.mp holds.closed).1
  have split : ident.chars.toList = text ++ 0 :: ident.chars.toList.drop (text.length + 1) := by
    have behind := List.drop_eq_getElem_cons within
    rw [(List.getElem?_eq_some_iff.mp holds.closed).2] at behind
    conv_lhs => rw [← List.take_append_drop text.length ident.chars.toList, holds.chars, behind]
  rw [identText, cString, split, List.takeWhile_append_of_pos chars, List.takeWhile_cons_of_neg (by decide), List.append_nil]

theorem storeOwn_keeps (role : SshRole) (s : SshSession) (line : List UInt8) (len : Nat) :
    (storeOwn role s line len).sock = s.sock ∧ (storeOwn role s line len).out = s.out ∧
      (storeOwn role s line len).inn = s.inn := by
  unfold storeOwn
  cases role <;> exact ⟨rfl, rfl, rfl⟩

theorem storePeer_keeps (role : SshRole) (s : SshSession) (line : List UInt8) (len : Nat) :
    (storePeer role s line len).sock = s.sock ∧ (storePeer role s line len).out = s.out ∧
      (storePeer role s line len).inn = s.inn := by
  unfold storePeer
  cases role <;> exact ⟨rfl, rfl, rfl⟩

theorem storePeer_slot (role : SshRole) (s : SshSession) (line : List UInt8) (len : Nat) :
    peerSlot role (storePeer role s line len) = storeIdent (peerSlot role s) line len := by
  cases role <;> rfl

/-- How the exchange of identifications ends. -/
inductive Identified (role : SshRole) (out inn : SshDirection) (rx tx stdout stderr : List UInt8) :
    EStateM.Result Exit ProgState Bool → Prop
  | named {before : List (List UInt8)} {line rest : List UInt8} {t : ProgState} (answered : Answered 50 rx before line rest)
      (stands : Stands t out inn rest (tx ++ IDENT_STRING) stdout stderr)
      (peer : identText (peerSlot role t.sess) = stripped line) : Identified role out inn rx tx stdout stderr (.ok true t)
  | unnamed {t : ProgState} (absent : ∀ before line rest, ¬Answered 50 rx before line rest)
      (shows : Shows t (tx ++ IDENT_STRING) stdout stderr) : Identified role out inn rx tx stdout stderr (.ok false t)

theorem identify_stands (stands : Stands s out inn rx tx stdout stderr) (role : SshRole) :
    Identified role out inn rx tx stdout stderr (status (onIdent (sessionExchangeIdent role)) s) := by
  obtain ⟨plenty, accepting, out_eq, inn_eq, rx_eq, tx_eq, stdout_eq, stderr_eq⟩ := stands
  obtain ⟨plan, clear, entered⟩ := exchange_read role accepting
  obtain ⟨ownSock, ownOut, ownInn⟩ := storeOwn_keeps role
    { s.sess with sock := { s.sess.sock with tx := s.sess.sock.tx ++ IDENT_STRING, txPlan := plan } } IDENT_STRING
    (stripped IDENT_STRING).length
  generalize storeOwn role { s.sess with sock := { s.sess.sock with tx := s.sess.sock.tx ++ IDENT_STRING, txPlan := plan } }
    IDENT_STRING (stripped IDENT_STRING).length = u at entered ownSock ownOut ownInn
  have stream : u.sock.rx = rx := by rw [ownSock, ← rx_eq]
  have wire : u.sock.tx = tx ++ IDENT_STRING := by rw [ownSock, ← tx_eq]
  rcases readIdent_cases role 50 u with ⟨before, line, rest, cuts, answered, found⟩ | ⟨absent, lines, rest, cuts, -, -, -, stopped⟩
  · rw [stream] at answered
    obtain ⟨sock, out_same, inn_same⟩ := storePeer_keeps role
      { u with sock := u.sock.after (before.flatten ++ line).length cuts } line (identStripCrlf line line.length)
    have slot := storePeer_slot role { u with sock := u.sock.after (before.flatten ++ line).length cuts } line
      (identStripCrlf line line.length)
    rw [← entered] at found
    generalize storePeer role { u with sock := u.sock.after (before.flatten ++ line).length cuts } line
      (identStripCrlf line line.length) = v at found sock out_same inn_same slot
    have behind : u.sock.rx.drop (before.flatten ++ line).length = rest := by
      rw [stream, answered.stream, ← List.append_assoc, List.drop_left]
    have clean : 0 ∉ stripped line := fun member => absurd (identification_printable answered.valid 0 member).1 (by decide)
    rw [status_of_ok (onIdent_of_ok found)]
    refine .named answered ⟨plenty, ?_, ?_, ?_, ?_, ?_, stdout_eq, stderr_eq⟩ ?_
    · change Accepting v.sock
      rw [sock, Socket.after, ownSock]
      exact clear
    · exact out_same.trans (ownOut.trans out_eq)
    · exact inn_same.trans (ownInn.trans inn_eq)
    · change v.sock.rx = rest
      rw [sock, ← behind]
      rfl
    · change v.sock.tx = _
      rw [sock, ← wire]
      rfl
    · change identText (peerSlot role v) = _
      have short := identCheck_length answered.valid
      have held := storeIdent_holds (peerSlot role { u with sock := u.sock.after (before.flatten ++ line).length cuts })
        (stripped_length_le line) (by omega)
      rw [take_stripped, ← identStripCrlf_length, ← slot] at held
      exact identText_eq held clean
  · rw [stream] at absent
    rw [← entered] at stopped
    rw [status_of_fail (onIdent_of_error stopped)]
    exact .unnamed absent ⟨wire, stdout_eq, stderr_eq⟩

/-! Reading a packet, and the end. -/

/-- Reading the first byte leaves all but the position in the buffer. -/
theorem getU8_stands (stands : Stands s out inn rx tx stdout stderr) {byte : UInt8} {bytes : List UInt8}
    (sound : Sound s.buf) (front : unread s.buf = byte :: bytes) :
    ∃ t, onSess (onBuf bufGetU8) s = .ok byte t ∧ Stands t out inn rx tx stdout stderr ∧ Sound t.buf ∧
      unread t.buf = bytes ∧ t.buf.len = s.buf.len := by
  have read : bufGetU8 ⟨s.heap, s.buf⟩ = .ok byte (skip ⟨s.heap, s.buf⟩ 1) := by
    rw [bufGetU8_eq sound, front]
  obtain ⟨plenty, accepting, out_eq, inn_eq, rx_eq, tx_eq, stdout_eq, stderr_eq⟩ := stands
  refine ⟨_, onSess_onBuf_of_ok read, ⟨plenty, accepting, out_eq, inn_eq, rx_eq, tx_eq, stdout_eq, stderr_eq⟩, ?_, ?_, rfl⟩
  · exact sound_skip (s := ⟨s.heap, s.buf⟩) sound (by rw [front]; simp)
  · have moved := unread_skip ⟨s.heap, s.buf⟩ 1
    rw [front] at moved
    exact moved

/-- What can be seen of a run from outside. Without a result it does not come back. -/
structure Account where
  result : Option Int
  stdout : List UInt8
  stderr : List UInt8
  written : List UInt8
  deriving DecidableEq, Repr

def account : EStateM.Result Exit ProgState Int → Account
  | .ok code t => ⟨some code, t.out, t.err, t.sess.sock.tx⟩
  | .error _ t => ⟨none, t.out, t.err, t.sess.sock.tx⟩

/-- A connection that has just been made, and a system that gives what is asked of it. -/
structure Ready (sys : System) (sock : Socket) (s : ProgState) : Prop where
  plenty : Plenty s.heap
  accepting : Accepting sock
  unused : sock.tx = []
  entropy : ∀ n, (sys.rand n).isSome

/-- The last line, and the status. -/
theorem account_last (shows : Shows s tx stdout stderr) (text : List UInt8) (code : Int) :
    account ((do
      printf text
      pure code : ProgCall Int) s) = ⟨some code, stdout ++ text, stderr, tx⟩ := by
  rw [← shows.stdout, ← shows.stderr, ← shows.tx]
  rfl

end

theorem ready_stands {sys : System} {sock : Socket} {s : ProgState} (ready : Ready sys sock s) :
    Stands { s with sess := sessionInit sock } zeroDirection zeroDirection sock.rx [] s.out s.err :=
  ⟨ready.plenty, ready.accepting, rfl, rfl, rfl, ready.unused, rfl, rfl⟩

/-- A system that gives what is asked of it, and a state to start from. -/
def plainSystem : System :=
  { netInit := true
    netError := []
    listens := fun _ => true
    accept := none
    connect := fun _ _ => none
    rand := SessionNetwork.noiseless
    wide := id
    stack := (⟨[], 0, 0, 0⟩, ⟨[], 0, 0, 0⟩) }

def plainSocket (rx : List UInt8) : Socket := { rx := rx, rxCuts := [], rxReset := false, tx := [], txPlan := [] }

def plainState : ProgState := { heap := [], sess := sessionInit (plainSocket []), buf := ⟨[], 0, 0, 0⟩, out := [], err := [] }

theorem plain_ready (rx : List UInt8) : Ready plainSystem (plainSocket rx) plainState :=
  { plenty := (by decide : Plenty [])
    accepting := (by decide : Accepting (plainSocket []))
    unused := rfl
    entropy := fun _ => rfl }

end Coalesce.ProgramCalls
