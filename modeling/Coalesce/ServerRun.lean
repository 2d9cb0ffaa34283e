import Coalesce.ProgramCalls

/-! Every way in which the server of main.c can end, for every stream that reaches it. -/

namespace Coalesce.ServerRun
open Library.CallResult Buffer BufferBytes BufferReaders Net Session SessionReceive SessionDeliver SessionSend
open SessionNetwork (drawn)
open Ident IdentExchange Target Program ProgramCalls

/-! Texts and packets of the server. -/

def clientLine (line : List UInt8) : List UInt8 := literal "[server] Client identification: " ++ stripped line ++ newline

def packetLine (payload : List UInt8) : List UInt8 :=
  literal "[server] Received packet msg_type=" ++ decimal (payload.headD 0).toNat ++ literal ", payload_len=" ++
    decimal payload.length ++ literal ", seq=" ++ decimal 0 ++ newline

def endLine : List UInt8 := literal "[server] Session ended cleanly.\n"
def noPacketLine : List UInt8 := literal "[server] packet receive failed\n"
def noClientLine : List UInt8 := literal "[server] identification exchange failed\n"

def replyPayload : List UInt8 := [SSH_MSG_DEBUG, 1] ++ wireString replyText ++ wireString []

def replyPacket (sys : System) : List UInt8 := framed replyPayload (drawn sys.rand zeroDirection replyPayload)

/-- The ways in which the server ends, by the bytes that reach it. -/
inductive ServerEnds (sys : System) (rx stdout stderr : List UInt8) : Account → Prop
  | unidentified (absent : ∀ before line rest, ¬Answered 50 rx before line rest) :
      ServerEnds sys rx stdout stderr ⟨some (-1), stdout, stderr ++ noClientLine, IDENT_STRING⟩
  | refused {before : List (List UInt8)} {line rest : List UInt8} (answered : Answered 50 rx before line rest)
      (wrong : ∀ p, Incoming zeroDirection rest p → ¬GoodPadding p ∧ ¬OverrunPadding p) :
      ServerEnds sys rx stdout stderr
        ⟨some 0, stdout ++ clientLine line ++ endLine, stderr ++ noPacketLine, IDENT_STRING⟩
  | stuck {before : List (List UInt8)} {line rest p : List UInt8} (answered : Answered 50 rx before line rest)
      (incoming : Incoming zeroDirection rest p) (overrun : OverrunPadding p) :
      ServerEnds sys rx stdout stderr ⟨none, stdout ++ clientLine line, stderr, IDENT_STRING⟩
  | served {before : List (List UInt8)} {line rest p : List UInt8} (answered : Answered 50 rx before line rest)
      (incoming : Incoming zeroDirection rest p) (good : GoodPadding p) :
      ServerEnds sys rx stdout stderr
        ⟨some 0, stdout ++ clientLine line ++ packetLine (payloadOf p) ++ endLine, stderr, IDENT_STRING ++ replyPacket sys⟩

section
variable {s : ProgState} {out inn : SshDirection} {rx tx stdout stderr : List UInt8}

theorem showPacket_stands (stands : Stands s out inn rx tx stdout stderr) (first : inn.seq - 1 = 0) {payload : List UInt8}
    (holding : Holding s.buf payload) (something : 1 ≤ payload.length) :
    ∃ t, showPacket s = .ok () t ∧ Stands t out inn rx tx (stdout ++ packetLine payload) stderr := by
  obtain ⟨byte, bytes, rfl⟩ := List.exists_cons_of_length_pos something
  obtain ⟨t, read, at_t, -, -, len⟩ := getU8_stands stands holding.valid.sound holding.unread
  obtain ⟨u, printed, at_u, -⟩ := printf_stands at_t (packetLine (byte :: bytes))
  refine ⟨u, ?_, at_u⟩
  rw [showPacket, bind_of_ok (valueOr_of_ok (map_of_ok some read))]
  simp only
  rw [bind_of_ok (get_apply t), len, holding.len, at_t.inn, first]
  exact printed

theorem cString_replyText : cString replyText = replyText := by decide

theorem sendReply_stands (stands : Stands s zeroDirection inn rx tx stdout stderr) {sys : System}
    (entropy : ∀ n, (sys.rand n).isSome) :
    ∃ t, sendReply sys s = .ok () t ∧
      Stands t (counted zeroDirection (replyPacket sys)) inn rx (tx ++ replyPacket sys) stdout stderr := by
  obtain ⟨s₁, declared, at₁, empty⟩ := declareBuf_stands stands sys.stack.2 64 (by decide)
  obtain ⟨s₂, put₁, at₂, type⟩ := put_stands at₁ empty (appends_u8 SSH_MSG_DEBUG) (by decide)
  obtain ⟨s₃, put₂, at₃, flag⟩ := put_stands at₂ type (appends_bool true) (by decide)
  obtain ⟨s₄, put₃, at₄, text⟩ := put_stands at₃ flag (appends_cstring (some replyText)) (by decide)
  obtain ⟨s₅, put₄, at₅, language⟩ := put_stands at₄ text (appends_cstring (some [])) (by decide)
  have payload : Holding s₅.buf replyPayload := by
    rw [Option.getD_some, cString_replyText] at language
    exact language
  obtain ⟨s₆, sent, at₆⟩ := sendBuf_stands at₅ payload (by decide) entropy
  refine ⟨s₆, ?_, at₆⟩
  rw [sendReply, bind_of_ok declared, bind_of_ok put₁, bind_of_ok put₂, bind_of_ok put₃, bind_of_ok put₄]
  exact ignore_of_ok sent

theorem serverPacket_ends (stands : Stands s zeroDirection zeroDirection rx tx stdout stderr) (valid : Valid s.buf)
    {sys : System} (entropy : ∀ n, (sys.rand n).isSome) :
    ((∀ p, Incoming zeroDirection rx p → ¬GoodPadding p ∧ ¬OverrunPadding p) ∧
      ∃ t, serverPacket sys s = .ok () t ∧ Shows t tx stdout (stderr ++ noPacketLine)) ∨
    (∃ p t, Incoming zeroDirection rx p ∧ OverrunPadding p ∧ serverPacket sys s = .error .hang t ∧
      Shows t tx stdout stderr) ∨
    (∃ p t, Incoming zeroDirection rx p ∧ GoodPadding p ∧ serverPacket sys s = .ok () t ∧
      Shows t (tx ++ replyPacket sys) (stdout ++ packetLine (payloadOf p)) stderr) := by
  have outcome := recv_stands stands valid
  rw [serverPacket]
  generalize received : status (onSess sessionRecv) s = result at outcome
  cases outcome with
  | @packet p t incoming good at_t holding =>
    have some_payload : 1 ≤ (payloadOf p).length := by
      have fits := good.2
      rw [payloadOf_length good]
      omega
    have first : (counted zeroDirection p).seq - 1 = 0 := by
      change (0 : UInt32) + 1 - 1 = 0
      decide
    obtain ⟨u, shown, at_u⟩ := showPacket_stands at_t first holding some_payload
    obtain ⟨v, replied, at_v⟩ := sendReply_stands at_u entropy
    refine Or.inr (Or.inr ⟨p, v, incoming, good, ?_, at_v.shows⟩)
    rw [bind_of_ok received, if_pos rfl, bind_of_ok shown, replied]
  | @refused t wrong shows =>
    refine Or.inl ⟨wrong, { t with err := t.err ++ noPacketLine }, ?_, shows.tx, shows.stdout, by rw [← shows.stderr]⟩
    rw [bind_of_ok received, if_neg Bool.false_ne_true]
    rfl
  | @stuck p t incoming overrun shows =>
    exact Or.inr (Or.inl ⟨p, t, incoming, overrun, bind_of_error received, shows⟩)

end

/-- Whatever bytes reach the server, and in whatever pieces: it names the client and answers
its first packet, or it says what was wrong, or it does not come back. -/
theorem server_ends (sys : System) (sock : Socket) (s : ProgState) (ready : Ready sys sock s) :
    ServerEnds sys sock.rx s.out s.err (account (serverSession sys sock s)) := by
  have outcome := identify_stands (ready_stands ready) .server
  rw [serverSession, bind_of_ok (modify_apply _ _)]
  generalize identified : status (onIdent (sessionExchangeIdent .server)) { s with sess := sessionInit sock } = result at outcome
  cases outcome with
  | @unnamed t absent shows =>
    have ended : account ((do
        eprintf (literal "[server] identification exchange failed\n")
        pure (-1) : ProgCall Int) t) = ⟨some (-1), s.out, s.err ++ noClientLine, IDENT_STRING⟩ := by
      rw [← shows.stdout, ← shows.stderr, ← List.nil_append IDENT_STRING, ← shows.tx]
      rfl
    rw [bind_of_ok identified, if_neg Bool.false_ne_true]
    rw [ended]
    exact .unidentified absent
  | @named before line rest t answered at_t peer =>
    have named : identText t.sess.vC = stripped line := peer
    obtain ⟨u, printed, at_u, -⟩ := printf_stands at_t (clientLine line)
    obtain ⟨v, declared, at_v, empty⟩ := declareBuf_stands at_u sys.stack.1 256 (by decide)
    rw [bind_of_ok identified, if_pos rfl, bind_of_ok (get_apply t), named,
      bind_of_ok (show printf (literal "[server] Client identification: " ++ stripped line ++ newline) t = _ from printed),
      bind_of_ok declared]
    rcases serverPacket_ends at_v empty.valid ready.entropy with ⟨wrong, w, ends, shows⟩ | ⟨p, w, incoming, overrun, ends, shows⟩ |
      ⟨p, w, incoming, good, ends, shows⟩
    · rw [bind_of_ok ends]
      rw [account_last shows]
      exact .refused answered wrong
    · rw [bind_of_error ends, account, shows.stdout, shows.stderr, shows.tx]
      exact .stuck answered incoming overrun
    · rw [bind_of_ok ends]
      rw [account_last shows]
      exact .served answered incoming good

/-- SSH_MSG_IGNORE with nothing in it. -/
def ignorePacket : List UInt8 := framed [2, 0, 0, 0, 0] (List.replicate 6 0)

/-- A client that identifies itself and sends one packet. -/
theorem server_ends_one_packet :
    Incoming zeroDirection ignorePacket ignorePacket ∧ GoodPadding ignorePacket ∧
      ServerEnds plainSystem (IDENT_STRING ++ ignorePacket) [] []
        (account (serverSession plainSystem (plainSocket (IDENT_STRING ++ ignorePacket)) plainState)) := by
  have incoming := incoming_protect zeroDirection ignorePacket [] (by decide) (by decide)
  rw [List.append_nil] at incoming
  exact ⟨incoming, by decide, server_ends plainSystem (plainSocket (IDENT_STRING ++ ignorePacket)) plainState (plain_ready _)⟩

end Coalesce.ServerRun
