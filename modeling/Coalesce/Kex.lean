import Coalesce.Buffer

/-! KEXINIT messages and algorithm negotiation, from kex.c. A `char *` field is
NULL or the block it points to, its closing NUL left out. -/

namespace Coalesce.Kex
open Library.CallResult Buffer

def SSH_MSG_KEXINIT : UInt8 := 20

/-- `ssh_kex_init_t`. -/
structure SshKexInit where
  cookie : Vector UInt8 16
  kexAlgorithms : Option (List UInt8)
  serverHostKeyAlgorithms : Option (List UInt8)
  encryptionAlgorithmsClientToServer : Option (List UInt8)
  encryptionAlgorithmsServerToClient : Option (List UInt8)
  macAlgorithmsClientToServer : Option (List UInt8)
  macAlgorithmsServerToClient : Option (List UInt8)
  compressionAlgorithmsClientToServer : Option (List UInt8)
  compressionAlgorithmsServerToClient : Option (List UInt8)
  languagesClientToServer : Option (List UInt8)
  languagesServerToClient : Option (List UInt8)
  firstKexPacketFollows : Bool
  deriving DecidableEq, Repr

/-- `ssh_kex_proposal_t`. -/
structure SshKexProposal where
  kex : Option (List UInt8)
  hostKey : Option (List UInt8)
  cipherC2s : Option (List UInt8)
  cipherS2c : Option (List UInt8)
  macC2s : Option (List UInt8)
  macS2c : Option (List UInt8)
  compC2s : Option (List UInt8)
  compS2c : Option (List UInt8)
  deriving DecidableEq, Repr

/-- `memset` to zero. -/
def zeroKexInit : SshKexInit :=
  { cookie := Vector.replicate 16 0, kexAlgorithms := none, serverHostKeyAlgorithms := none
    encryptionAlgorithmsClientToServer := none, encryptionAlgorithmsServerToClient := none
    macAlgorithmsClientToServer := none, macAlgorithmsServerToClient := none
    compressionAlgorithmsClientToServer := none, compressionAlgorithmsServerToClient := none
    languagesClientToServer := none, languagesServerToClient := none, firstKexPacketFollows := false }

def zeroProposal : SshKexProposal := ⟨none, none, none, none, none, none, none, none⟩

/-! Encoding and decoding. -/

def kexInitEncode (kex : SshKexInit) : BufCall Unit := do
  bufPutU8 SSH_MSG_KEXINIT
  bufPutRaw (some kex.cookie.toList) 16
  bufPutCstring kex.kexAlgorithms
  bufPutCstring kex.serverHostKeyAlgorithms
  bufPutCstring kex.encryptionAlgorithmsClientToServer
  bufPutCstring kex.encryptionAlgorithmsServerToClient
  bufPutCstring kex.macAlgorithmsClientToServer
  bufPutCstring kex.macAlgorithmsServerToClient
  bufPutCstring kex.compressionAlgorithmsClientToServer
  bufPutCstring kex.compressionAlgorithmsServerToClient
  bufPutCstring kex.languagesClientToServer
  bufPutCstring kex.languagesServerToClient
  bufPutBool kex.firstKexPacketFollows
  bufPutU32 0

structure DecodeState where
  mem : BufState
  kex : SshKexInit
  deriving DecidableEq, Repr

abbrev DecodeCall := Call DecodeState

def onMem {α : Type} (call : BufCall α) : DecodeCall α :=
  zoom DecodeState.mem (fun mem s => { s with mem := mem }) call

def setKex (put : SshKexInit → SshKexInit) : DecodeCall Unit := modify fun s => { s with kex := put s.kex }

/-- `kex->field = buf_get_cstring(buf);`, where nothing looks at the pointer. -/
def readList (put : Option (List UInt8) → SshKexInit → SshKexInit) : DecodeCall Unit := do
  let str ← onMem bufGetCstring
  setKex (put str)

def readLists : DecodeCall Unit := do
  readList fun str kex => { kex with kexAlgorithms := str }
  readList fun str kex => { kex with serverHostKeyAlgorithms := str }
  readList fun str kex => { kex with encryptionAlgorithmsClientToServer := str }
  readList fun str kex => { kex with encryptionAlgorithmsServerToClient := str }
  readList fun str kex => { kex with macAlgorithmsClientToServer := str }
  readList fun str kex => { kex with macAlgorithmsServerToClient := str }
  readList fun str kex => { kex with compressionAlgorithmsClientToServer := str }
  readList fun str kex => { kex with compressionAlgorithmsServerToClient := str }
  readList fun str kex => { kex with languagesClientToServer := str }
  readList fun str kex => { kex with languagesServerToClient := str }

def kexInitDecode : DecodeCall Unit := do
  setKex fun _ => zeroKexInit
  let msgType ← onMem bufGetU8
  failIf (msgType ≠ SSH_MSG_KEXINIT)
  let cookie ← onMem (bufGetRaw 16)
  setKex fun kex => { kex with cookie := Vector.ofFn fun i => cookie.getD i.val 0 }
  readLists
  let follows ← onMem bufGetBool
  setKex fun kex => { kex with firstKexPacketFollows := follows }
  let _ ← onMem bufGetU32
  pure ()

/-! Negotiation. -/

def COMMA : UInt8 := 44

/-- The name at `p`, up to the next comma or the end. -/
def nameAt (p : List UInt8) : List UInt8 := p.takeWhile (· ≠ COMMA)

/-- `p = comma + 1`, or NULL when there is no comma. -/
def afterComma (p : List UInt8) : Option (List UInt8) :=
  match p.drop (nameAt p).length with
  | [] => none
  | _ :: rest => some rest

theorem afterComma_length {p rest : List UInt8} (comma : afterComma p = some rest) : rest.length < p.length := by
  unfold afterComma at comma
  have length := congrArg List.length (List.take_append_drop (nameAt p).length p)
  split at comma
  · cases comma
  · next found =>
    cases comma
    rw [found, List.length_append, List.length_cons] at length
    omega

/-- `strncmp(a, b, n) == 0` on strings given by the characters before their NUL. -/
def strncmpEq (a b : List UInt8) (n : Nat) : Bool := a.take n == b.take n

/-- The loop of `list_contains`. -/
def containsFrom (p item : List UInt8) (itemLen : Nat) : Bool :=
  if p = [] then false
  else if (nameAt p).length = itemLen ∧ strncmpEq p item (nameAt p).length then true
  else
    match _comma : afterComma p with
    | none => false
    | some rest => containsFrom rest item itemLen
termination_by p.length
decreasing_by exact afterComma_length _comma

def listContains (list : Option (List UInt8)) (item : List UInt8) (itemLen : Nat) : Bool :=
  match list with
  | none => false
  | some list => if itemLen = 0 then false else containsFrom (cString list) item itemLen

/-- `malloc`, with NULL for a refusal. -/
def mallocCopy (bytes : List UInt8) : Call Heap (Option (List UInt8)) := do
  let heap ← get
  set heap.alloc.2
  pure (if heap.alloc.1 then some bytes else none)

/-- The loop of `match_list`. -/
def matchFrom (p : List UInt8) (serverList : List UInt8) : Call Heap (Option (List UInt8)) :=
  if p = [] then pure none
  else if (nameAt p).length > 0 ∧ listContains (some serverList) p (nameAt p).length then mallocCopy (nameAt p)
  else
    match _comma : afterComma p with
    | none => pure none
    | some rest => matchFrom rest serverList
termination_by p.length
decreasing_by exact afterComma_length _comma

def matchList (clientList serverList : Option (List UInt8)) : Call Heap (Option (List UInt8)) :=
  match clientList, serverList with
  | some clientList, some serverList => matchFrom (cString clientList) serverList
  | _, _ => pure none

def SshKexProposal.complete (p : SshKexProposal) : Bool :=
  p.kex.isSome && p.hostKey.isSome && p.cipherC2s.isSome && p.cipherS2c.isSome &&
    p.macC2s.isSome && p.macS2c.isSome && p.compC2s.isSome && p.compS2c.isSome

/-- Code 0 or -1, and what is left in `chosen`; a failed proposal is freed. -/
def kexNegotiate (c s : SshKexInit) : Call Heap (Bool × SshKexProposal) := do
  let kex ← matchList c.kexAlgorithms s.kexAlgorithms
  let hostKey ← matchList c.serverHostKeyAlgorithms s.serverHostKeyAlgorithms
  let cipherC2s ← matchList c.encryptionAlgorithmsClientToServer s.encryptionAlgorithmsClientToServer
  let cipherS2c ← matchList c.encryptionAlgorithmsServerToClient s.encryptionAlgorithmsServerToClient
  let macC2s ← matchList c.macAlgorithmsClientToServer s.macAlgorithmsClientToServer
  let macS2c ← matchList c.macAlgorithmsServerToClient s.macAlgorithmsServerToClient
  let compC2s ← matchList c.compressionAlgorithmsClientToServer s.compressionAlgorithmsClientToServer
  let compS2c ← matchList c.compressionAlgorithmsServerToClient s.compressionAlgorithmsServerToClient
  let chosen : SshKexProposal := ⟨kex, hostKey, cipherC2s, cipherS2c, macC2s, macS2c, compC2s, compS2c⟩
  if chosen.complete then pure (true, chosen) else pure (false, zeroProposal)

end Coalesce.Kex
