import Coalesce.ClearPhase
import Coalesce.KexDefault
import Coalesce.KeyDerivation
import Coalesce.MpintForm
import Coalesce.X25519

/-! From two scalars to a channel: X25519, the encoding of the shared number, key derivation,
key installation and packets, each end with buffers, storage and old keys of its own. -/

namespace Coalesce.SharedChannel
open Library.CallResult Library.ByteNumber Library.LadderCurve Edwards25519 Buffer BufferBytes BufferReaders Net Session SessionReceive SessionExchange SessionNetwork
open SessionDeliver (freshState)
open Ident (literal)
open Codec Kex KexChoice KexDefault KeyDerivation MpintForm Curve25519 X25519 HostileStream ClearPhase
open Rekey (install)

/-- `buf_put_mpint` of a shared secret, into any empty buffer. -/
def Encodes (secret encoded : List UInt8) : Prop :=
  ∃ s t : BufState, Sound s.buf ∧ s.buf.len = 0 ∧ bufPutMpint (some secret) secret.length s = .ok () t ∧ encoded = contents t.buf

/-- `kex_derive_key` into any storage. -/
def Derives (letter : UInt8) (encoded h sessionId : List UInt8) (size : Nat) (key : List UInt8) : Prop :=
  ∃ storage after, size ≤ storage.length ∧ kexDeriveKey letter (some encoded) encoded.length (some h) h.length (some sessionId)
    sessionId.length (some storage) size = some after ∧ key = after.take size

theorem mpintBytes_length (magnitude : List UInt8) : (mpintBytes magnitude).length ≤ magnitude.length + 5 := by
  have body := mpintBody_length magnitude
  rw [mpintBytes, List.length_append, be32_length]
  omega

theorem Encodes.bytes {secret encoded : List UInt8} (encodes : Encodes secret encoded) (short : secret.length < 2 ^ 32) :
    encoded = mpintBytes secret := by
  obtain ⟨s, t, sound, empty, returned, rfl⟩ := encodes
  have nothing : contents s.buf = [] := by rw [contents, empty, List.take_zero]
  have size := mpintBytes_length secret
  rcases puts_mpint secret s sound (by omega) with ⟨u, returned', bytes, -⟩ | ⟨-, u, failed⟩
  · rw [returned] at returned'
    cases returned'
    rw [bytes, nothing, List.nil_append]
  · rw [returned] at failed
    cases failed

section
variable {letter : UInt8} {encoded h sessionId key : List UInt8} {size : Nat}

theorem Derives.bytes (derives : Derives letter encoded h sessionId size key) (positive : 0 < size)
    (short : encoded.length + h.length + sessionId.length + size < 2 ^ 60) :
    key = (keyMaterial letter encoded h sessionId size).take size ∧ key.length = size := by
  obtain ⟨storage, after, space, returned, rfl⟩ := derives
  obtain ⟨after', returned', derived⟩ := @kexDeriveKey_derived letter encoded h sessionId storage size positive space short
  rw [returned] at returned'
  cases returned'
  refine ⟨derived.bytes size (Nat.le_mul_of_pos_left _ (by decide)), ?_⟩
  rw [List.length_take, derived.length, Nat.min_eq_left space]

end

/-- What both ends know beside the secret, with the algorithms that they have agreed on. -/
structure Agreed where
  h : List UInt8
  sessionId : List UInt8
  cipher : List UInt8
  mac : List UInt8

/-- The letters for initial vector, key and MAC key of one direction. -/
structure Letters where
  iv : UInt8
  key : UInt8
  mac : UInt8

/-- The arguments that a party makes for one direction, from its own scalar and the public
value of the other. -/
def Made (scalar peer : List UInt8) (agreed : Agreed) (letters : Letters) (args : KeyArgs) : Prop :=
  ∃ encoded keyBits iv key macKey, Encodes (curve25519Eval scalar peer) encoded ∧ cipherBits (nameOf agreed.cipher) = some keyBits ∧
    Derives letters.iv encoded agreed.h agreed.sessionId SSH_CIPHER_BLOCK iv ∧
    Derives letters.key encoded agreed.h agreed.sessionId (keyBits / 8) key ∧
    Derives letters.mac encoded agreed.h agreed.sessionId SSH_MAC_KEY_MAX macKey ∧
    args = chosenArgs agreed.cipher agreed.mac iv key macKey

/-- The secret that a party comes to, as a multiple of the base point. -/
theorem secret_eq (a b : Vector UInt8 32) : curve25519Eval a.toList (curve25519Base b.toList) =
    encodeUCoordinate (uCoordinate ((decodeScalar b.toList * decodeScalar a.toList) • B)) := by
  rw [curve25519Base_eq Vector.length_toList, curve25519Eval_point Vector.length_toList, ← mul_nsmul]

theorem secret_length (a b : Vector UInt8 32) : (curve25519Eval a.toList (curve25519Base b.toList)).length = 32 := by
  rw [secret_eq, encodeUCoordinate, leBytes_length]

theorem secret_shared (a b : Vector UInt8 32) :
    curve25519Eval a.toList (curve25519Base b.toList) = curve25519Eval b.toList (curve25519Base a.toList) := by
  rw [secret_eq, secret_eq, Nat.mul_comm]

/-- Key sizes of the default ciphers, in bytes. -/
theorem known_size {cipher : List UInt8} (member : cipher ∈ known .cipherC2s) :
    ∃ bits, cipherBits (nameOf cipher) = some bits ∧ 0 < bits / 8 ∧ bits / 8 ≤ 32 := by
  have sizes : ∀ name ∈ known .cipherC2s, (cipherBits (nameOf name)).any fun bits => 0 < bits / 8 ∧ bits / 8 ≤ 32 := by decide +kernel
  obtain ⟨bits, size, range⟩ := (Option.any_eq_true _ _).mp (sizes cipher member)
  exact ⟨bits, size, of_decide_eq_true range⟩

section
variable {scalar peer : List UInt8} {agreed : Agreed} {letters : Letters} {args : KeyArgs}

/-- The arguments as key material of the standard. -/
theorem Made.material (made : Made scalar peer agreed letters args) (knownCipher : agreed.cipher ∈ known .cipherC2s)
    (secret : (curve25519Eval scalar peer).length = 32) (short : agreed.h.length + agreed.sessionId.length < 2 ^ 59) :
    ∃ keyBits, cipherBits (nameOf agreed.cipher) = some keyBits ∧ ∃ iv key macKey,
      args = chosenArgs agreed.cipher agreed.mac iv key macKey ∧
      (iv = (keyMaterial letters.iv (mpintBytes (curve25519Eval scalar peer)) agreed.h agreed.sessionId 16).take 16 ∧ iv.length = 16) ∧
      (key = (keyMaterial letters.key (mpintBytes (curve25519Eval scalar peer)) agreed.h agreed.sessionId (keyBits / 8)).take
        (keyBits / 8) ∧ key.length = keyBits / 8) ∧
      macKey = (keyMaterial letters.mac (mpintBytes (curve25519Eval scalar peer)) agreed.h agreed.sessionId 32).take 32 ∧
        macKey.length = 32 := by
  obtain ⟨encoded, keyBits, iv, key, macKey, encodes, size, ivs, keys, macs, rfl⟩ := made
  obtain ⟨bits, size', positive⟩ := known_size knownCipher
  obtain rfl : keyBits = bits := Option.some.inj (size.symm.trans size')
  obtain rfl := encodes.bytes (by omega)
  have long := mpintBytes_length (curve25519Eval scalar peer)
  exact ⟨keyBits, size, iv, key, macKey, rfl, ivs.bytes (by decide) (by rw [SSH_CIPHER_BLOCK]; omega), keys.bytes positive.1 (by omega),
    macs.bytes (by decide) (by rw [SSH_MAC_KEY_MAX]; omega)⟩

end

/-- The two ends of a key exchange come to the same arguments, whatever buffers and storage
they work in. -/
theorem made_alike {a b : Vector UInt8 32} {agreed : Agreed} {letters : Letters} {args args' : KeyArgs}
    (first : Made a.toList (curve25519Base b.toList) agreed letters args)
    (second : Made b.toList (curve25519Base a.toList) agreed letters args') (knownCipher : agreed.cipher ∈ known .cipherC2s)
    (short : agreed.h.length + agreed.sessionId.length < 2 ^ 59) : args = args' := by
  obtain ⟨keyBits, size, iv, key, macKey, rfl, ⟨ivs, -⟩, ⟨keys, -⟩, macs, -⟩ := first.material knownCipher (secret_length a b) short
  obtain ⟨keyBits', size', iv', key', macKey', rfl, ⟨ivs', -⟩, ⟨keys', -⟩, macs', -⟩ :=
    second.material knownCipher (secret_length b a) short
  obtain rfl : keyBits = keyBits' := Option.some.inj (size.symm.trans size')
  rw [ivs, ivs', keys, keys', macs, macs', secret_shared a b]

/-- They are accepted by every direction, and replace the whole of its keys. -/
theorem made_installs {a b : Vector UInt8 32} {agreed : Agreed} {letters : Letters} {args : KeyArgs}
    (made : Made a.toList (curve25519Base b.toList) agreed letters args) (knownCipher : agreed.cipher ∈ known .cipherC2s)
    (knownMac : agreed.mac ∈ known .macC2s) (short : agreed.h.length + agreed.sessionId.length < 2 ^ 59) (d : SshDirection) :
    ∃ e, install args d = .ok () e ∧ Armed args d e ∧ e.macKeyLen.val = SSH_MAC_KEY_MAX := by
  obtain ⟨keyBits, size, iv, key, macKey, rfl, ⟨-, ivLen⟩, ⟨-, keyLen⟩, -, macLen⟩ :=
    made.material knownCipher (secret_length a b) short
  obtain ⟨bits, size', installs⟩ := known_installs knownCipher knownMac
  obtain rfl : keyBits = bits := Option.some.inj (size.symm.trans size')
  obtain ⟨e, installed, length⟩ := installs d iv key macKey ivLen keyLen (by omega) (by rw [macLen])
  have hmac : nameOf agreed.mac = "hmac-sha2-256" := by
    have only : ∀ name ∈ known .macC2s, nameOf name = "hmac-sha2-256" := by decide +kernel
    exact only agreed.mac knownMac
  exact ⟨e, installed, install_armed (congrArg some hmac) installed, length.trans macLen⟩

/-- Two directions that have counted alike are one and the same under such keys. -/
theorem armed_equal {args : KeyArgs} {d d' e e' : SshDirection} (first : Armed args d e) (second : Armed args d' e')
    (whole : e.macKeyLen.val = SSH_MAC_KEY_MAX) (counted : d.seq = d'.seq) : sessionActivate e = sessionActivate e' := by
  obtain ⟨ctr, key⟩ := armed_alike first second
  have lengths : e.macKeyLen = e'.macKeyLen := Fin.ext (first.macKeyLen.trans second.macKeyLen.symm)
  have keys : e.macKey = e'.macKey := by
    rw [macKeyOf, macKeyOf, ← lengths, whole, List.take_of_length_le (by rw [Vector.length_toList]),
      List.take_of_length_le (by rw [Vector.length_toList])] at key
    exact Vector.toList_inj.mp key
  have numbers : e.seq = e'.seq := first.seq.trans (counted.trans second.seq.symm)
  rw [sessionActivate, sessionActivate, ctr, lengths, keys, numbers]

/-! Two sessions. -/

/-- Nothing is on its way, paired directions have counted alike, and memory and sockets give what
is asked of them. Keys and modes may be anything. -/
structure Quiet (n : Network) : Prop where
  counted : ∀ role, (n.party role).sess.out.seq = (n.party role.peer).sess.inn.seq
  rx : ∀ role, (n.party role).sess.sock.rx = []
  tx : ∀ role, (n.party role).sess.sock.tx = []
  log : ∀ role, n.log role = []
  outPos : ∀ role, n.outPos role = 0
  inPos : ∀ role, n.inPos role = 0
  sent : ∀ role, n.sent role = []
  got : ∀ role, n.got role = []
  works : n.failed = false
  valid : ∀ role, Valid (n.party role).buf
  plenty : ∀ role, Plenty (n.party role).heap
  accepting : ∀ role, Accepting (n.party role).sess.sock

/-- `session_set_keys` and `session_activate` on all four directions. The arguments are those
of a holder, for the direction of a sender. -/
def opened (start : Network) (made : SshRole → SshRole → KeyArgs) : Network :=
  { start with party := fun role => { start.party role with sess := { (start.party role).sess with
      out := sessionActivate (stateOf (install (made role role) (start.party role).sess.out))
      inn := sessionActivate (stateOf (install (made role role.peer) (start.party role).sess.inn)) } } }

/-- Two ends with any scalars, of which each knows the public value of the other. They agree on
exchange hash, session identifier, letters and two of the default algorithms, and nothing
else. Then the keys that they make are accepted in all four directions, all of them then
encrypt with a MAC, and in every run that follows, in whatever order the two send and
receive, no call fails and what one receives is the first of what the other sends. -/
theorem exchange_opens_channel (scalar : SshRole → Vector UInt8 32) (agreed : Agreed) (letters : SshRole → Letters)
    (made : SshRole → SshRole → KeyArgs)
    (derived : ∀ holder sender, Made (scalar holder).toList (curve25519Base (scalar holder.peer).toList) agreed (letters sender)
      (made holder sender))
    (knownCipher : agreed.cipher ∈ known .cipherC2s) (knownMac : agreed.mac ∈ known .macC2s)
    (short : agreed.h.length + agreed.sessionId.length < 2 ^ 59) (start : Network) (quiet : Quiet start) :
    (∀ holder sender d, ∃ e, install (made holder sender) d = .ok () e) ∧
    (∀ role, ((opened start made).party role).sess.out.encrypted = true ∧
      0 < ((opened start made).party role).sess.out.macKeyLen.val ∧
      ((opened start made).party role).sess.out = ((opened start made).party role.peer).sess.inn) ∧
    ∀ n, Reachable (opened start made) n → n.failed = false ∧ ∀ role, n.got role.peer <+: n.sent role := by
  have installs (holder sender : SshRole) (d : SshDirection) := made_installs (derived holder sender) knownCipher knownMac short d
  have alike (sender : SshRole) : made sender sender = made sender.peer sender := by
    refine made_alike (derived sender sender) ?_ knownCipher short
    have other := derived sender.peer sender
    rwa [peer_peer] at other
  have equal (role : SshRole) : ((opened start made).party role).sess.out = ((opened start made).party role.peer).sess.inn := by
    obtain ⟨e, installed, armed, whole⟩ := installs role role (start.party role).sess.out
    obtain ⟨e', installed', armed', -⟩ := installs role.peer role (start.party role.peer).sess.inn
    simp only [opened, peer_peer]
    rw [installed, installed']
    rw [← alike] at armed'
    exact armed_equal armed armed' whole (quiet.counted role)
  have paired : Paired (opened start made) :=
    { equal := equal, rx := quiet.rx, tx := quiet.tx, log := quiet.log, outPos := quiet.outPos, inPos := quiet.inPos
      sent := quiet.sent, got := quiet.got, works := quiet.works, valid := quiet.valid, plenty := quiet.plenty
      accepting := quiet.accepting }
  refine ⟨fun holder sender d => ?_, fun role => ⟨rfl, ?_, equal role⟩, fun n reached => ?_⟩
  · obtain ⟨e, installed, -⟩ := installs holder sender d
    exact ⟨e, installed⟩
  · obtain ⟨e, installed, armed, -⟩ := installs role role (start.party role).sess.out
    simp only [opened]
    rw [installed]
    exact armed.macKeyLen ▸ armed.positive
  · have sound := sound_reachable paired reached
    exact ⟨sound.works, fun role => (sound.channel role).got_initial⟩

/-- With memory for the encoding there are such arguments. -/
theorem made_exists (a b : Vector UInt8 32) (agreed : Agreed) (letters : Letters) (knownCipher : agreed.cipher ∈ known .cipherC2s)
    (short : agreed.h.length + agreed.sessionId.length < 2 ^ 59) :
    ∃ args, Made a.toList (curve25519Base b.toList) agreed letters args := by
  obtain ⟨keyBits, size, positive, most⟩ := known_size knownCipher
  have secret_length := secret_length a b
  unfold Made
  generalize curve25519Eval a.toList (curve25519Base b.toList) = secret at secret_length
  have long := mpintBytes_length secret
  have empty : Sound (freshState []).buf := (by decide : Valid (freshState []).buf).sound
  have fresh : (freshState []).buf.len = 0 := rfl
  generalize (freshState []).buf = buf at empty fresh
  rcases puts_mpint secret ⟨[], buf⟩ empty (by rw [fresh]; omega) with ⟨t, returned, put, -⟩ | ⟨scarce, -⟩
  · have bytes : contents t.buf = mpintBytes secret := by
      rw [put, contents, fresh, List.take_zero, List.nil_append]
    have derives (letter : UInt8) (count : Nat) (few : 0 < count ∧ count ≤ 32) :
        ∃ key, Derives letter (contents t.buf) agreed.h agreed.sessionId count key := by
      have total : (contents t.buf).length + agreed.h.length + agreed.sessionId.length + count < 2 ^ 60 := by
        rw [bytes]
        omega
      obtain ⟨after, made, -⟩ := @kexDeriveKey_derived letter (contents t.buf) agreed.h agreed.sessionId (List.replicate count 0) count
        few.1 (by simp) total
      exact ⟨_, _, after, by simp, made, rfl⟩
    obtain ⟨iv, ivs⟩ := derives letters.iv SSH_CIPHER_BLOCK (by decide)
    obtain ⟨key, keys⟩ := derives letters.key (keyBits / 8) ⟨positive, most⟩
    obtain ⟨macKey, macs⟩ := derives letters.mac SSH_MAC_KEY_MAX (by decide)
    exact ⟨_, _, keyBits, iv, key, macKey, ⟨⟨[], buf⟩, t, empty, fresh, returned, rfl⟩, size, ivs, keys, macs, rfl⟩
  · exact absurd (by decide : Plenty []) scarce

/-- The bytes 1 to 32 at the client, 33 to 64 at the server. -/
def someScalar : SshRole → Vector UInt8 32
  | .client => Vector.ofFn fun i => UInt8.ofNat (i.val + 1)
  | .server => Vector.ofFn fun i => UInt8.ofNat (i.val + 33)

/-- `A`, `C` and `E` for what the client sends, `B`, `D` and `F` for what the server sends. -/
def sshLetters : SshRole → Letters
  | .client => { iv := 65, key := 67, mac := 69 }
  | .server => { iv := 66, key := 68, mac := 70 }

def someAgreed : Agreed :=
  { h := List.replicate 32 7, sessionId := List.replicate 32 7, cipher := literal "aes256-ctr", mac := literal "hmac-sha2-256" }

theorem freshNetwork_quiet : Quiet freshNetwork where
  counted _ := rfl
  rx _ := rfl
  tx _ := rfl
  log _ := rfl
  outPos _ := rfl
  inPos _ := rfl
  sent _ := rfl
  got _ := rfl
  works := rfl
  valid := freshNetwork_paired.valid
  plenty := freshNetwork_paired.plenty
  accepting := freshNetwork_paired.accepting

/-- A first exchange, whose hash is the session identifier. -/
theorem exchange_opens_channel_first_exchange : ∃ made : SshRole → SshRole → KeyArgs,
    (∀ holder sender d, ∃ e, install (made holder sender) d = .ok () e) ∧
    (∀ role, ((opened freshNetwork made).party role).sess.out.encrypted = true ∧
      0 < ((opened freshNetwork made).party role).sess.out.macKeyLen.val ∧
      ((opened freshNetwork made).party role).sess.out = ((opened freshNetwork made).party role.peer).sess.inn) ∧
    ∀ n, Reachable (opened freshNetwork made) n → n.failed = false ∧ ∀ role, n.got role.peer <+: n.sent role := by
  have cipher : someAgreed.cipher ∈ known .cipherC2s := by decide +kernel
  have mac : someAgreed.mac ∈ known .macC2s := by decide +kernel
  have short : someAgreed.h.length + someAgreed.sessionId.length < 2 ^ 59 := by decide +kernel
  have exist (holder sender : SshRole) :=
    made_exists (someScalar holder) (someScalar holder.peer) someAgreed (sshLetters sender) cipher short
  choose made derived using exist
  exact ⟨made, exchange_opens_channel someScalar someAgreed sshLetters made derived cipher mac short freshNetwork
    freshNetwork_quiet⟩

end Coalesce.SharedChannel
