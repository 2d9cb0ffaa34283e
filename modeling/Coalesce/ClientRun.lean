import Coalesce.ProgramCalls

/-! Every way in which the client of main.c can end, for every stream that reaches it. -/

namespace Coalesce.ClientRun
open Library.CallResult Buffer BufferBytes BufferReaders Net Session SessionReceive SessionDeliver SessionSend
open SessionNetwork (drawn)
open Ident IdentExchange Target Program ProgramCalls

/-! Texts and packets of the client. -/

def serverLine (line : List UInt8) : List UInt8 := literal "[client] Server identification: " ++ stripped line ++ newline

def sentLine : List UInt8 := literal "[client] Sent SSH_MSG_IGNORE packet (seq=" ++ decimal 0 ++ literal ")\n"

/-- The message of a debug packet as it is printed; nothing when it is not all there. -/
def debugText (bytes : List UInt8) : List UInt8 :=
  if bytes.length < 4 ∨ bytes.length < 4 + stringLength bytes then []
  else cString ((bytes.drop 4).take (stringLength bytes))

def replyLine (payload : List UInt8) : List UInt8 :=
  if payload.headD 0 = SSH_MSG_DEBUG then
    literal "[client] Received SSH_MSG_DEBUG (always_display=" ++ decimal (decide ((payload.drop 1).headD 0 ≠ 0)).toNat ++
      literal "): " ++ debugText (payload.drop 2) ++ newline
  else literal "[client] Received packet msg_type=" ++ decimal (payload.headD 0).toNat ++ newline

def closedLine : List UInt8 := literal "[client] Connection closed.\n"
def noServerLine : List UInt8 := literal "[client] identification exchange failed\n"

def testPayload : List UInt8 := SSH_MSG_IGNORE :: wireString testText

def testPacket (sys : System) : List UInt8 := framed testPayload (drawn sys.rand zeroDirection testPayload)

/-- The ways in which the client ends, by the bytes that reach it. -/
inductive ClientEnds (sys : System) (rx stdout stderr : List UInt8) : Account → Prop
  | unidentified (absent : ∀ before line rest, ¬Answered 50 rx before line rest) :
      ClientEnds sys rx stdout stderr ⟨some (-1), stdout, stderr ++ noServerLine, IDENT_STRING⟩
  | silent {before : List (List UInt8)} {line rest : List UInt8} (answered : Answered 50 rx before line rest)
      (wrong : ∀ p, Incoming zeroDirection rest p → ¬GoodPadding p ∧ ¬OverrunPadding p) :
      ClientEnds sys rx stdout stderr
        ⟨some 0, stdout ++ serverLine line ++ sentLine ++ closedLine, stderr, IDENT_STRING ++ testPacket sys⟩
  | stuck {before : List (List UInt8)} {line rest p : List UInt8} (answered : Answered 50 rx before line rest)
      (incoming : Incoming zeroDirection rest p) (overrun : OverrunPadding p) :
      ClientEnds sys rx stdout stderr ⟨none, stdout ++ serverLine line ++ sentLine, stderr, IDENT_STRING ++ testPacket sys⟩
  | answered {before : List (List UInt8)} {line rest p : List UInt8} (answered : Answered 50 rx before line rest)
      (incoming : Incoming zeroDirection rest p) (good : GoodPadding p) :
      ClientEnds sys rx stdout stderr
        ⟨some 0, stdout ++ serverLine line ++ sentLine ++ replyLine (payloadOf p) ++ closedLine, stderr,
          IDENT_STRING ++ testPacket sys⟩

section
variable {s : ProgState} {out inn : SshDirection} {rx tx stdout stderr : List UInt8}

theorem cString_testText : cString testText = testText := by decide

theorem sendTest_stands (stands : Stands s zeroDirection inn rx tx stdout stderr) {sys : System}
    (entropy : ∀ n, (sys.rand n).isSome) :
    ∃ t, sendTest sys s = .ok () t ∧
      Stands t (counted zeroDirection (testPacket sys)) inn rx (tx ++ testPacket sys) (stdout ++ sentLine) stderr := by
  obtain ⟨s₁, declared, at₁, empty⟩ := declareBuf_stands stands sys.stack.1 64 (by decide)
  obtain ⟨s₂, put₁, at₂, type⟩ := put_stands at₁ empty (appends_u8 SSH_MSG_IGNORE) (by decide)
  obtain ⟨s₃, put₂, at₃, text⟩ := put_stands at₂ type (appends_cstring (some testText)) (by decide)
  have payload : Holding s₃.buf testPayload := by
    rw [Option.getD_some, cString_testText] at text
    exact text
  obtain ⟨s₄, sent, at₄⟩ := sendBuf_stands at₃ payload (by decide) entropy
  obtain ⟨s₅, printed, at₅, -⟩ := printf_stands at₄ sentLine
  have first : (counted zeroDirection (testPacket sys)).seq - 1 = 0 := by
    change (0 : UInt32) + 1 - 1 = 0
    decide
  refine ⟨s₅, ?_, at₅⟩
  rw [sendTest, bind_of_ok declared, bind_of_ok put₁, bind_of_ok put₂,
    bind_of_ok (status_of_ok sent), if_pos rfl, bind_of_ok (get_apply s₄), at₄.out]
  rw [show (counted zeroDirection (framed testPayload (drawn sys.rand zeroDirection testPayload))).seq - 1 = 0 from first]
  exact printed

/-- A flag that is not there is left as it was. -/
theorem getBool_stands (stands : Stands s out inn rx tx stdout stderr) (sound : Sound s.buf) :
    ∃ t, valueOr false (onSess (onBuf bufGetBool)) s = .ok (decide ((unread s.buf).headD 0 ≠ 0)) t ∧
      Stands t out inn rx tx stdout stderr ∧ Sound t.buf ∧ unread t.buf = (unread s.buf).drop 1 := by
  have read := bufGetBool_eq (s := ⟨s.heap, s.buf⟩) sound
  have moved := unread_skip ⟨s.heap, s.buf⟩ 1
  cases front : unread s.buf with
  | nil =>
    rw [front] at read
    refine ⟨s, valueOr_of_fail (onSess_of_error (s := s) (onBuf_of_error (s := ⟨s.heap, s.sess, s.buf⟩) read)), stands,
      sound, ?_⟩
    rw [front]
    rfl
  | cons byte bytes =>
    rw [front] at read moved
    obtain ⟨plenty, accepting, out_eq, inn_eq, rx_eq, tx_eq, stdout_eq, stderr_eq⟩ := stands
    refine ⟨_, valueOr_of_ok (onSess_onBuf_of_ok read),
      ⟨plenty, accepting, out_eq, inn_eq, rx_eq, tx_eq, stdout_eq, stderr_eq⟩, ?_, moved⟩
    exact sound_skip (s := ⟨s.heap, s.buf⟩) sound (by rw [front]; simp)

theorem getCstring_stands (stands : Stands s out inn rx tx stdout stderr) (sound : Sound s.buf) :
    ∃ str t, onSess (onBuf bufGetCstring) s = .ok str t ∧ Stands t out inn rx tx stdout stderr ∧
      cString (str.getD []) = debugText (unread s.buf) := by
  have read := bufGetCstring_eq (s := ⟨s.heap, s.buf⟩) sound
  obtain ⟨granted, rest⟩ := plenty_alloc stands.plenty
  obtain ⟨plenty, accepting, out_eq, inn_eq, rx_eq, tx_eq, stdout_eq, stderr_eq⟩ := stands
  by_cases short : (unread s.buf).length < 4
  · rw [if_pos short] at read
    refine ⟨none, _, onSess_onBuf_of_ok read, ⟨plenty, accepting, out_eq, inn_eq, rx_eq, tx_eq, stdout_eq, stderr_eq⟩, ?_⟩
    rw [debugText, if_pos (Or.inl short)]
    rfl
  by_cases cut : (unread s.buf).length < 4 + stringLength (unread s.buf)
  · rw [if_neg short, if_pos cut] at read
    refine ⟨none, _, onSess_onBuf_of_ok read, ⟨plenty, accepting, out_eq, inn_eq, rx_eq, tx_eq, stdout_eq, stderr_eq⟩, ?_⟩
    rw [debugText, if_pos (Or.inr cut)]
    rfl
  · rw [if_neg short, if_neg cut, if_pos granted] at read
    refine ⟨_, _, onSess_onBuf_of_ok read, ⟨rest, accepting, out_eq, inn_eq, rx_eq, tx_eq, stdout_eq, stderr_eq⟩, ?_⟩
    rw [debugText, if_neg (not_or.mpr ⟨short, cut⟩)]
    rfl

theorem showReply_stands (stands : Stands s out inn rx tx stdout stderr) {payload : List UInt8}
    (holding : Holding s.buf payload) (something : 1 ≤ payload.length) :
    ∃ t, showReply s = .ok () t ∧ Stands t out inn rx tx (stdout ++ replyLine payload) stderr := by
  obtain ⟨byte, bytes, rfl⟩ := List.exists_cons_of_length_pos something
  obtain ⟨t, read, at_t, sound, front, -⟩ := getU8_stands stands holding.valid.sound holding.unread
  rw [showReply, bind_of_ok (valueOr_of_ok read), replyLine, List.headD_cons]
  by_cases debug : byte = SSH_MSG_DEBUG
  · obtain ⟨u, flag, at_u, sound_u, front_u⟩ := getBool_stands at_t sound
    obtain ⟨str, v, string, at_v, text⟩ := getCstring_stands at_u sound_u
    rw [front] at flag front_u
    rw [front_u] at text
    obtain ⟨w, printed, at_w, -⟩ := printf_stands at_v (literal "[client] Received SSH_MSG_DEBUG (always_display=" ++
      decimal (decide (bytes.headD 0 ≠ 0)).toNat ++ literal "): " ++ debugText (bytes.drop 1) ++ newline)
    rw [if_pos debug, if_pos debug, bind_of_ok flag, bind_of_ok string, text]
    exact ⟨w, printed, at_w⟩
  · rw [if_neg debug, if_neg debug]
    obtain ⟨w, printed, at_w, -⟩ := printf_stands at_t
      (literal "[client] Received packet msg_type=" ++ decimal byte.toNat ++ newline)
    exact ⟨w, printed, at_w⟩

theorem clientReply_ends (stands : Stands s out zeroDirection rx tx stdout stderr) (valid : Valid s.buf) :
    ((∀ p, Incoming zeroDirection rx p → ¬GoodPadding p ∧ ¬OverrunPadding p) ∧
      ∃ t, clientReply s = .ok () t ∧ Shows t tx stdout stderr) ∨
    (∃ p t, Incoming zeroDirection rx p ∧ OverrunPadding p ∧ clientReply s = .error .hang t ∧ Shows t tx stdout stderr) ∨
    (∃ p t, Incoming zeroDirection rx p ∧ GoodPadding p ∧ clientReply s = .ok () t ∧
      Shows t tx (stdout ++ replyLine (payloadOf p)) stderr) := by
  have outcome := recv_stands stands valid
  rw [clientReply]
  generalize received : status (onSess sessionRecv) s = result at outcome
  cases outcome with
  | @packet p t incoming good at_t holding =>
    have some_payload : 1 ≤ (payloadOf p).length := by
      have fits := good.2
      rw [payloadOf_length good]
      omega
    obtain ⟨u, shown, at_u⟩ := showReply_stands at_t holding some_payload
    refine Or.inr (Or.inr ⟨p, u, incoming, good, ?_, at_u.shows⟩)
    rw [bind_of_ok received, if_pos rfl, shown]
  | @refused t wrong shows =>
    refine Or.inl ⟨wrong, t, ?_, shows⟩
    rw [bind_of_ok received, if_neg Bool.false_ne_true]
    rfl
  | @stuck p t incoming overrun shows =>
    exact Or.inr (Or.inl ⟨p, t, incoming, overrun, bind_of_error received, shows⟩)

end

/-- Whatever bytes reach the client, and in whatever pieces: it names the server, sends its
packet and shows the answer, or it does without one of these, or it does not come back. -/
theorem client_ends (sys : System) (sock : Socket) (s : ProgState) (ready : Ready sys sock s) :
    ClientEnds sys sock.rx s.out s.err (account (clientSession sys sock s)) := by
  have outcome := identify_stands (ready_stands ready) .client
  rw [clientSession, bind_of_ok (modify_apply _ _)]
  generalize identified : status (onIdent (sessionExchangeIdent .client)) { s with sess := sessionInit sock } = result at outcome
  cases outcome with
  | @unnamed t absent shows =>
    have ended : account ((do
        eprintf (literal "[client] identification exchange failed\n")
        pure (-1) : ProgCall Int) t) = ⟨some (-1), s.out, s.err ++ noServerLine, IDENT_STRING⟩ := by
      rw [← shows.stdout, ← shows.stderr, ← List.nil_append IDENT_STRING, ← shows.tx]
      rfl
    rw [bind_of_ok identified, if_neg Bool.false_ne_true]
    rw [ended]
    exact .unidentified absent
  | @named before line rest t answered at_t peer =>
    have named : identText t.sess.vS = stripped line := peer
    obtain ⟨u, printed, at_u, -⟩ := printf_stands at_t (serverLine line)
    obtain ⟨v, sent, at_v⟩ := sendTest_stands at_u ready.entropy
    obtain ⟨w, declared, at_w, empty⟩ := declareBuf_stands at_v sys.stack.2 256 (by decide)
    rw [bind_of_ok identified, if_pos rfl, bind_of_ok (get_apply t), named,
      bind_of_ok (show printf (literal "[client] Server identification: " ++ stripped line ++ newline) t = _ from printed),
      bind_of_ok sent, bind_of_ok declared]
    rcases clientReply_ends at_w empty.valid with ⟨wrong, x, ends, shows⟩ | ⟨p, x, incoming, overrun, ends, shows⟩ |
      ⟨p, x, incoming, good, ends, shows⟩
    · rw [bind_of_ok ends]
      rw [account_last shows]
      exact .silent answered wrong
    · rw [bind_of_error ends, account, shows.stdout, shows.stderr, shows.tx]
      exact .stuck answered incoming overrun
    · rw [bind_of_ok ends]
      rw [account_last shows]
      exact .answered answered incoming good

/-- SSH_MSG_DEBUG, to be shown, with the text `hi`. -/
def debugPacket : List UInt8 := framed ([4, 1] ++ wireString (literal "hi") ++ wireString []) (List.replicate 7 0)

/-- A server that identifies itself and sends one packet. -/
theorem client_ends_one_packet :
    Incoming zeroDirection debugPacket debugPacket ∧ GoodPadding debugPacket ∧
      ClientEnds plainSystem (IDENT_STRING ++ debugPacket) [] []
        (account (clientSession plainSystem (plainSocket (IDENT_STRING ++ debugPacket)) plainState)) := by
  have incoming := incoming_protect zeroDirection debugPacket [] (by decide +kernel) (by decide +kernel)
  rw [List.append_nil] at incoming
  exact ⟨incoming, by decide +kernel, client_ends plainSystem (plainSocket (IDENT_STRING ++ debugPacket)) plainState (plain_ready _)⟩

end Coalesce.ClientRun
