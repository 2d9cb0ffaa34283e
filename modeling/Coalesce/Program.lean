import Coalesce.Target

/-! The program of main.c: the server and the client for one connection, and the
command line. What the system answers is a parameter, and so is what a buffer on the
stack holds before `buf_init`. -/

namespace Coalesce.Program
open Library.CallResult Buffer Net Session Ident Target

def SSH_MSG_IGNORE : UInt8 := 2
def SSH_MSG_DEBUG : UInt8 := 4

/-- `struct net_addr` -/
structure NetAddr where
  ip : List UInt8
  port : UInt16
  deriving DecidableEq, Repr

/-- Answers of the system to the calls of the program. -/
structure System where
  netInit : Bool
  /-- What `net_get_error` says about the call that failed. -/
  netError : List UInt8
  listens : Int → Bool
  accept : Option (Socket × NetAddr)
  connect : List UInt8 → Int → Option Socket
  rand : (n : Nat) → Option (Vector UInt8 n)
  wide : Int → Int
  /-- The first and the second buffer before they are initialised. -/
  stack : SshBuf × SshBuf

structure ProgState where
  heap : Heap
  sess : SshSession
  buf : SshBuf
  out : List UInt8
  err : List UInt8
  deriving DecidableEq, Repr

abbrev ProgCall := Call ProgState

def printf (text : List UInt8) : ProgCall Unit := modify fun s => { s with out := s.out ++ text }

def eprintf (text : List UInt8) : ProgCall Unit := modify fun s => { s with err := s.err ++ text }

def newline : List UInt8 := [LF]

def onSess {α : Type} (call : SessCall α) : ProgCall α :=
  zoom (fun s => ⟨s.heap, s.sess, s.buf⟩) (fun t s => { s with heap := t.heap, sess := t.sess, buf := t.buf }) call

def onIdent {α : Type} (call : Call SshSession α) : ProgCall α :=
  zoom (fun s => s.sess) (fun t s => { s with sess := t }) call

/-- Whether a call succeeds. A failure does not end the caller. -/
def status {σ α : Type} (call : Call σ α) : Call σ Bool := fun s =>
  match call s with
  | .ok _ t => .ok true t
  | .error .fail t => .ok false t
  | .error .hang t => .error .hang t

/-- A call whose status is not looked at. -/
def ignore {σ α : Type} (call : Call σ α) : Call σ Unit := do
  let _ ← status call

/-- A call with a variable that keeps its value when the call fails. -/
def valueOr {σ α : Type} (initial : α) (call : Call σ α) : Call σ α := fun s =>
  match call s with
  | .ok value t => .ok value t
  | .error .fail t => .ok initial t
  | .error .hang t => .error .hang t

/-- `ssh_buf_t buf; buf_init(&buf, cap);`. After a refusal `data` is NULL and the other fields are
what stood on the stack. C ends where it stores through NULL; here the store goes into an empty block. -/
def declareBuf (stack : SshBuf) (cap : Nat) : ProgCall Unit := do
  modify fun s => { s with buf := stack }
  ignore (onSess (onBuf (bufInit cap)))

/-- `session_send(s, payload->data, payload->len)`. A NULL block has no bytes in the model. -/
def sessionSendBuf (rand : (n : Nat) → Option (Vector UInt8 n)) : SessCall Unit := do
  let s ← get
  sessionSend rand (if s.buf.data = [] then none else some s.buf.data) s.buf.len

/-- A buffer pointer is put into a packet of its own. -/
def put (call : BufCall Unit) : ProgCall Unit := ignore (onSess (onBuf call))

/-- The characters of an identification as `%s` prints them. -/
def identText (ident : SshIdent) : List UInt8 := cString ident.chars.toList

/-! The server. -/

def replyText : List UInt8 := literal "Coalesce session layer framed the packet successfully"

/-- Shows the packet that came in. -/
def showPacket : ProgCall Unit := do
  let read ← valueOr none (some <$> onSess (onBuf bufGetU8))
  match read with
  | none => pure ()
  | some msgType =>
    let s ← get
    printf (literal "[server] Received packet msg_type=" ++ decimal msgType.toNat ++ literal ", payload_len=" ++
      decimal s.buf.len ++ literal ", seq=" ++ decimal (s.sess.inn.seq - 1).toNat ++ newline)

/-- Sends a debug message. -/
def sendReply (sys : System) : ProgCall Unit := do
  declareBuf sys.stack.2 64
  put (bufPutU8 SSH_MSG_DEBUG)
  put (bufPutBool true)
  put (bufPutCstring (some replyText))
  put (bufPutCstring (some []))
  ignore (onSess (sessionSendBuf sys.rand))

/-- Receives a packet and answers it. -/
def serverPacket (sys : System) : ProgCall Unit := do
  let received ← status (onSess sessionRecv)
  if received then
    showPacket
    sendReply sys
  else
    eprintf (literal "[server] packet receive failed\n")

/-- `server` on an accepted connection. -/
def serverSession (sys : System) (sock : Socket) : ProgCall Int := do
  modify fun s => { s with sess := sessionInit sock }
  let identified ← status (onIdent (sessionExchangeIdent .server))
  if identified then
    let s ← get
    printf (literal "[server] Client identification: " ++ identText s.sess.vC ++ newline)
    declareBuf sys.stack.1 256
    serverPacket sys
    printf (literal "[server] Session ended cleanly.\n")
    pure 0
  else
    eprintf (literal "[server] identification exchange failed\n")
    pure (-1)

def server (sys : System) (port : Int) : ProgCall Int := do
  printf (literal "[server] Listening on 0.0.0.0:" ++ signedDecimal port ++ literal " ...\n")
  if sys.listens port then
    match sys.accept with
    | some (sock, addr) =>
      printf (literal "[server] Connection accepted from " ++ addr.ip ++ [COLON] ++ decimal addr.port.toNat ++ newline)
      serverSession sys sock
    | none =>
      eprintf (literal "[server] net_accept failed: " ++ sys.netError ++ newline)
      pure (-1)
  else
    eprintf (literal "[server] net_listen failed: " ++ sys.netError ++ newline)
    pure (-1)

/-! The client. -/

def testText : List UInt8 := literal "coalesce test packet"

/-- Sends the test packet. -/
def sendTest (sys : System) : ProgCall Unit := do
  declareBuf sys.stack.1 64
  put (bufPutU8 SSH_MSG_IGNORE)
  put (bufPutCstring (some testText))
  let sent ← status (onSess (sessionSendBuf sys.rand))
  if sent then
    let s ← get
    printf (literal "[client] Sent SSH_MSG_IGNORE packet (seq=" ++ decimal (s.sess.out.seq - 1).toNat ++ literal ")\n")
  else
    eprintf (literal "[client] Failed to send packet\n")

/-- Shows the packet that came back. -/
def showReply : ProgCall Unit := do
  let msgType ← valueOr 0 (onSess (onBuf bufGetU8))
  if msgType = SSH_MSG_DEBUG then
    let display ← valueOr false (onSess (onBuf bufGetBool))
    let dbgMsg ← onSess (onBuf bufGetCstring)
    printf (literal "[client] Received SSH_MSG_DEBUG (always_display=" ++ decimal display.toNat ++ literal "): " ++
      cString (dbgMsg.getD []) ++ newline)
  else
    printf (literal "[client] Received packet msg_type=" ++ decimal msgType.toNat ++ newline)

/-- Receives the answer. -/
def clientReply : ProgCall Unit := do
  let received ← status (onSess sessionRecv)
  if received then showReply else pure ()

/-- `client` on a connected socket. -/
def clientSession (sys : System) (sock : Socket) : ProgCall Int := do
  modify fun s => { s with sess := sessionInit sock }
  let identified ← status (onIdent (sessionExchangeIdent .client))
  if identified then
    let s ← get
    printf (literal "[client] Server identification: " ++ identText s.sess.vS ++ newline)
    sendTest sys
    declareBuf sys.stack.2 256
    clientReply
    printf (literal "[client] Connection closed.\n")
    pure 0
  else
    eprintf (literal "[client] identification exchange failed\n")
    pure (-1)

def client (sys : System) (user host : List UInt8) (port : Int) : ProgCall Int := do
  printf (literal "[client] Connecting to " ++ user ++ [AT] ++ host ++ [COLON] ++ signedDecimal port ++ literal " ...\n")
  match sys.connect host port with
  | some sock => clientSession sys sock
  | none =>
    eprintf (literal "[client] net_connect failed: " ++ sys.netError ++ newline)
    pure (-1)

/-! The command line. -/

def usageConnect : List UInt8 := literal "usage: coalesce connect user@host[:port]\n"

def usage : List UInt8 :=
  literal "usage: coalesce serve [port]\n" ++ literal "       coalesce connect user@host[:port]\n"

def connectCommand (sys : System) (target : List UInt8) : ProgCall Int :=
  match parseTarget sys.wide target emptyTarget with
  | .ok _ t => client sys (cString t.user) (cString t.host) t.port
  | .error .fail _ => do
    eprintf (literal "error: invalid target format '" ++ target ++ literal "' (expected user@host[:port])\n")
    pure 1
  | .error .hang _ => throw .hang

/-- `main`; `args` are the arguments behind the name of the program. -/
def main (sys : System) (args : List (List UInt8)) : ProgCall Int :=
  match args with
  | [] => do
    eprintf usage
    pure 1
  | command :: rest =>
    if sys.netInit then
      if command = literal "serve" then
        server sys (match rest with
          | [] => 22
          | port :: _ => atoi sys.wide port)
      else if command = literal "connect" then
        match rest with
        | [] => do
          eprintf usageConnect
          pure 1
        | target :: _ => connectCommand sys target
      else do
        eprintf (literal "unknown command: " ++ command ++ newline)
        eprintf usage
        pure 1
    else do
      eprintf (literal "net_init failed: " ++ sys.netError ++ newline)
      pure 1

end Coalesce.Program
