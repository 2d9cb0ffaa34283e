import Coalesce.Library.Collect
import Coalesce.Aes
import Coalesce.Buffer
import Coalesce.Net
import Coalesce.Sha256

/-! The transport session of session.c: key installation and the binary packet
protocol. A call works on the session, the buffer it fills and the allocator. -/

namespace Coalesce.Session
open Library.CallResult Buffer Net Aes

def SSH_CIPHER_BLOCK : Nat := 16
def SSH_PLAIN_BLOCK : Nat := 8
abbrev SSH_MAC_KEY_MAX : Nat := 32
def MAX_PACKET_SIZE : Nat := 35000
def MAX_PAYLOAD_SIZE : Nat := 32768
def MIN_PADDING_SIZE : Nat := 4

/-- `ssh_direction_t`. A MAC key length of zero means no MAC. -/
structure SshDirection where
  encrypted : Bool
  ctr : AesCtrCtx
  macKey : Vector UInt8 SSH_MAC_KEY_MAX
  macKeyLen : Fin (SSH_MAC_KEY_MAX + 1)
  seq : UInt32
  deriving DecidableEq, Repr

abbrev SSH_IDENT_MAX : Nat := 255

/-- An identification string: `v_c` with `v_c_len`, or `v_s` with `v_s_len`. -/
structure SshIdent where
  chars : Vector UInt8 (SSH_IDENT_MAX + 1)
  len : Nat
  deriving DecidableEq, Repr

/-- `ssh_session_t`; `inn` is the field `in`. -/
structure SshSession where
  sock : Socket
  vC : SshIdent
  vS : SshIdent
  out : SshDirection
  inn : SshDirection
  deriving DecidableEq, Repr

structure SessState where
  heap : Heap
  sess : SshSession
  buf : SshBuf
  deriving DecidableEq, Repr

abbrev SessCall := Call SessState

/-- `memset` to zero. -/
def zeroDirection : SshDirection :=
  { encrypted := false, ctr := aesCtrZero, macKey := Vector.replicate SSH_MAC_KEY_MAX 0, macKeyLen := 0, seq := 0 }

def zeroIdent : SshIdent := { chars := Vector.replicate (SSH_IDENT_MAX + 1) 0, len := 0 }

def sessionInit (sock : Socket) : SshSession :=
  { sock := sock, vC := zeroIdent, vS := zeroIdent, out := zeroDirection, inn := zeroDirection }

/-! Key installation. -/

def cipherBits (cipherName : String) : Option Nat :=
  if cipherName = "aes128-ctr" then some 128
  else if cipherName = "aes256-ctr" then some 256
  else none

/-- `memcpy(dir->mac_key, mac_key, mac_key_len)`. -/
def copyKey (old : Vector UInt8 SSH_MAC_KEY_MAX) (key : List UInt8) (len : Nat) : Vector UInt8 SSH_MAC_KEY_MAX :=
  Vector.ofFn fun i => if i.val < len then key.getD i.val 0 else old.get i

theorem macKeyLen_fits {macKeyLen : Nat} (checked : ¬(macKeyLen = 0 ∨ macKeyLen > SSH_MAC_KEY_MAX)) :
    macKeyLen < SSH_MAC_KEY_MAX + 1 := by
  omega

def installMac (macName : String) (macKey : Option (List UInt8)) (macKeyLen : Nat) : Call SshDirection Unit :=
  if macName = "hmac-sha2-256" then
    match macKey with
    | none => throw .fail
    | some key =>
      if checked : macKeyLen = 0 ∨ macKeyLen > SSH_MAC_KEY_MAX then throw .fail
      else modify fun d => { d with macKey := copyKey d.macKey key macKeyLen, macKeyLen := ⟨macKeyLen, macKeyLen_fits checked⟩ }
  else if macName = "none" then modify fun d => { d with macKeyLen := 0 }
  else throw .fail

/-- The cipher state is written before the MAC arguments are checked. -/
def installKeys (keyBits : Nat) (iv : List UInt8) (ivLen : Nat) (key : List UInt8) (keyLen : Nat)
    (macName : String) (macKey : Option (List UInt8)) (macKeyLen : Nat) : Call SshDirection Unit := do
  failIf (ivLen ≠ SSH_CIPHER_BLOCK)
  failIf (keyLen ≠ keyBits / 8)
  let init := aesCtrInit key keyBits iv
  modify fun d => { d with ctr := init.2 }
  failIf (!init.1)
  installMac macName macKey macKeyLen

def sessionSetKeys (cipherName : Option String) (iv : Option (List UInt8)) (ivLen : Nat)
    (key : Option (List UInt8)) (keyLen : Nat) (macName : Option String)
    (macKey : Option (List UInt8)) (macKeyLen : Nat) : Call SshDirection Unit :=
  match cipherName, iv, key, macName with
  | some cipherName, some iv, some key, some macName =>
    match cipherBits cipherName with
    | none => throw .fail
    | some keyBits => installKeys keyBits iv ivLen key keyLen macName macKey macKeyLen
  | _, _, _, _ => throw .fail

def sessionActivate (dir : SshDirection) : SshDirection := { dir with encrypted := true }

/-! Packet protection. -/

def getBe32 (p : List UInt8) : UInt32 := ofBe32 (p.getD 0 0) (p.getD 1 0) (p.getD 2 0) (p.getD 3 0)

/-- Collects the differences of all bytes before it answers. -/
def ctEqual (a b : List UInt8) (n : Nat) : Bool :=
  Library.Collect.differences a b n == 0

/-- `HMAC(key, seq || packet)`, taken in two updates. -/
def packetMac (d : SshDirection) (packet : List UInt8) : List UInt8 :=
  let h := Sha256.hmacSha256Init (d.macKey.toList.take d.macKeyLen.val)
  Sha256.hmacSha256Final (Sha256.hmacSha256Update (Sha256.hmacSha256Update h (be32 d.seq)) packet)

/-! Calls on parts of the state. -/

def onBuf {α : Type} (call : BufCall α) : SessCall α :=
  zoom (fun s => ⟨s.heap, s.buf⟩) (fun t s => { s with heap := t.heap, buf := t.buf }) call

def readFull (n : Nat) : SessCall (List UInt8) := do
  let s ← get
  let result := netReadFull s.sess.sock n
  set { s with sess := { s.sess with sock := result.2.2 } }
  failIf (result.1 ≠ n)
  pure result.2.1

def writeFull (bytes : List UInt8) : SessCall Unit := do
  let s ← get
  let result := netWriteFull s.sess.sock bytes
  set { s with sess := { s.sess with sock := result.2 } }
  failIf (result.1 ≠ bytes.length)

def cryptOut (data : List UInt8) : SessCall (List UInt8) := do
  let s ← get
  let result := aesCtrCrypt s.sess.out.ctr data
  set { s with sess := { s.sess with out := { s.sess.out with ctr := result.2 } } }
  pure result.1

def cryptIn (data : List UInt8) : SessCall (List UInt8) := do
  let s ← get
  let result := aesCtrCrypt s.sess.inn.ctr data
  set { s with sess := { s.sess with inn := { s.sess.inn with ctr := result.2 } } }
  pure result.1

/-! Sending. -/

/-- Padding that fills the last block, at least `MIN_PADDING_SIZE` of it. -/
def paddingSize (block len : Nat) : Nat :=
  let pad := block - (4 + 1 + len) % block
  if pad < MIN_PADDING_SIZE then pad + block else pad

def blockOf (d : SshDirection) : Nat := if d.encrypted then SSH_CIPHER_BLOCK else SSH_PLAIN_BLOCK

/-- Writes the framed packet, protected as the direction asks, and counts it. -/
def sendPacket (buf : List UInt8) : SessCall Unit := do
  let s ← get
  let d := s.sess.out
  if d.encrypted then
    let mac := if d.macKeyLen.val > 0 then packetMac d buf else []
    let cipher ← cryptOut buf
    writeFull (cipher ++ mac)
  else
    writeFull buf
  modify fun t => { t with sess := { t.sess with out := { t.sess.out with seq := t.sess.out.seq + 1 } } }

/-- `rand` is what `rand_bytes` answers; NULL payloads are `none`. -/
def sessionSend (rand : (n : Nat) → Option (Vector UInt8 n)) (payload : Option (List UInt8)) (len : Nat) :
    SessCall Unit := do
  failIf (payload.isNone || len = 0 || len > MAX_PAYLOAD_SIZE)
  let s ← get
  let pad := paddingSize (blockOf s.sess.out) len
  let packetLength := UInt32.ofNat (1 + len + pad)
  failIf (4 + packetLength.toNat > MAX_PACKET_SIZE)
  onBuf alloc
  match rand pad with
  | none => throw .fail
  | some padding =>
    sendPacket (be32 packetLength ++ [UInt8.ofNat pad] ++ (payload.getD []).take len ++ padding.toList)

/-! Receiving. -/

def recvPlain : SessCall (List UInt8) := do
  let head ← readFull 4
  let packetLength := getBe32 head
  failIf (packetLength.toNat < 6 || packetLength.toNat > MAX_PACKET_SIZE)
  onBuf alloc
  let rest ← readFull packetLength.toNat
  pure (head ++ rest)

/-- The MAC that follows the packet, when the direction has one. -/
def checkMac (pkt : List UInt8) : SessCall Unit := do
  let s ← get
  if s.sess.inn.macKeyLen.val > 0 then
    let got ← readFull Sha256.SHA256_DIGEST_SIZE
    failIf (!ctEqual (packetMac s.sess.inn pkt) got Sha256.SHA256_DIGEST_SIZE)
  else
    pure ()

/-- Decrypts one block to learn the length, then the rest. -/
def recvEncrypted : SessCall (List UInt8) := do
  let cipher ← readFull SSH_CIPHER_BLOCK
  let first ← cryptIn cipher
  let packetLength := getBe32 first
  failIf (packetLength.toNat < 12 || packetLength.toNat > MAX_PACKET_SIZE)
  failIf ((4 + packetLength) % 16 ≠ 0)
  onBuf alloc
  let rest := 4 + packetLength.toNat - SSH_CIPHER_BLOCK
  if rest > 0 then
    let cipher ← readFull rest
    let tail ← cryptIn cipher
    checkMac (first ++ tail)
    pure (first ++ tail)
  else
    checkMac first
    pure first

def recvPacket : SessCall (List UInt8) := do
  let s ← get
  if s.sess.inn.encrypted then recvEncrypted else recvPlain

/-- `total - 4 - 1 - padding_length` in `size_t`. -/
def payloadSize (total padding : Nat) : Nat := (total + SIZE_MAX_SUCC - 4 - 1 - padding) % SIZE_MAX_SUCC

def deliver (pkt : List UInt8) : SessCall Unit := do
  let padding := (pkt.getD 4 0).toNat
  failIf (padding < MIN_PADDING_SIZE || padding + 1 ≥ pkt.length)
  let payloadLen := payloadSize pkt.length padding
  failIf (payloadLen < 1)
  modify fun s => { s with buf := bufReset s.buf }
  onBuf (bufPutRaw (some (pkt.drop 5)) payloadLen)
  modify fun t => { t with sess := { t.sess with inn := { t.sess.inn with seq := t.sess.inn.seq + 1 } } }

def sessionRecv : SessCall Unit := do
  let pkt ← recvPacket
  deliver pkt

end Coalesce.Session
