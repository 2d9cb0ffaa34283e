import Coalesce.Session

/-! The plaintext packets of packet.c: a sender that pads to a block size of its
caller's, and a receiver with limits of its own. -/

namespace Coalesce.Packet
open Library.CallResult Buffer Net Session

/-- `ssh_pkt_t`. -/
structure SshPkt where
  packetLength : UInt32
  paddingLength : UInt8
  payload : SshBuf
  padding : Option (List UInt8)
  mac : Option (List UInt8)
  macLen : Nat
  deriving DecidableEq, Repr

/-- What a call works on; `seq` is NULL or the counter it points to. -/
structure PktState where
  heap : Heap
  sock : Socket
  pkt : SshPkt
  seq : Option UInt32
  deriving DecidableEq, Repr

abbrev PktCall := Call PktState

def pktReset (pkt : SshPkt) : SshPkt :=
  { packetLength := 0, paddingLength := 0, payload := bufReset pkt.payload, padding := none, mac := none, macLen := 0 }

/-! Calls on parts of the state. -/

def onPayload {α : Type} (call : BufCall α) : PktCall α :=
  zoom (fun s => ⟨s.heap, s.pkt.payload⟩)
    (fun t s => { s with heap := t.heap, pkt := { s.pkt with payload := t.buf } }) call

def pktReadFull (n : Nat) : PktCall (List UInt8) := do
  let s ← get
  let result := netReadFull s.sock n
  set { s with sock := result.2.2 }
  failIf (result.1 ≤ 0 || result.1 ≠ n)
  pure result.2.1

def pktWriteFull (bytes : List UInt8) : PktCall Unit := do
  let s ← get
  let result := netWriteFull s.sock bytes
  set { s with sock := result.2 }
  failIf (result.1 < 0 || result.1 ≠ bytes.length)

/-- `if (seq) (*seq)++;` -/
def countPacket : PktCall Unit := modify fun s => { s with seq := s.seq.map (· + 1) }

/-! Sending. -/

def blockSizeOf (blockSize : Nat) : Nat := if blockSize < 8 then 8 else blockSize

def padLen (blockSize payloadLen : Nat) : Nat :=
  let unpaddedLen := (4 + 1 + payloadLen) % SIZE_MAX_SUCC
  let pad := blockSize - unpaddedLen % blockSize
  if pad < MIN_PADDING_SIZE then (pad + blockSize) % SIZE_MAX_SUCC else pad

/-- The lengths are not checked. The sum `4 + packet_len` is one of 32 bits. Where it wraps, C
writes past the end of the block it has asked for, and nothing holds of the program any more;
here the front of what was put together is sent, as much as the block was asked for. -/
def pktSend (rand : (n : Nat) → Option (Vector UInt8 n)) (payload : Option (List UInt8))
    (payloadLen blockSize : Nat) : PktCall Unit := do
  failIf (payload.isNone && payloadLen > 0)
  let pad := padLen (blockSizeOf blockSize) payloadLen
  let packetLen := UInt32.ofNat (1 + payloadLen + pad)
  let totalWireLen := (4 + packetLen).toNat
  onPayload alloc
  match rand pad with
  | none => throw .fail
  | some padding =>
    let wireBuf := be32 packetLen ++ [UInt8.ofNat pad] ++ (payload.getD []).take payloadLen ++ padding.toList
    pktWriteFull (wireBuf.take totalWireLen)
    countPacket

/-! Receiving. -/

/-- Takes the fields and the payload out of the bytes behind `packet_length`. -/
def pktParse (packetLength : UInt32) (body : List UInt8) : PktCall Unit := do
  let paddingLength := body.getD 0 0
  failIf (paddingLength.toNat < MIN_PADDING_SIZE || paddingLength.toNat ≥ packetLength.toNat)
  let payloadLen := packetLength.toNat - 1 - paddingLength.toNat
  modify fun s => { s with pkt := { s.pkt with packetLength := packetLength, paddingLength := paddingLength } }
  if payloadLen > 0 then onPayload (bufPutRaw (some (body.drop 1)) payloadLen) else pure ()

/-- The block size is only raised to eight; no check uses it. -/
def pktRecv (_blockSize : Nat) : PktCall Unit := do
  modify fun s => { s with pkt := pktReset s.pkt }
  let lenBuf ← pktReadFull 4
  let packetLength := getBe32 lenBuf
  failIf (packetLength.toNat < 5 || packetLength.toNat > MAX_PACKET_SIZE)
  onPayload alloc
  let body ← pktReadFull packetLength.toNat
  pktParse packetLength body
  countPacket

end Coalesce.Packet
