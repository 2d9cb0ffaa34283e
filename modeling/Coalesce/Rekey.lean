import Coalesce.Library.RelatedCalls
import Coalesce.SendRun
import Coalesce.SessionExchange

/-! When new keys take effect. A direction in plaintext does not look at the keys that
are installed on it; an encrypting one has a single place for them, and
`session_set_keys` writes over the keys in use. -/

namespace Coalesce.Rekey
open Library Library.CallResult Library.RelatedCalls Buffer BufferBytes Net Aes Session SessionReceive SessionSend SendRun
open SessionDeliver SessionExchange

def install (args : KeyArgs) : Call SshDirection Unit :=
  sessionSetKeys args.cipherName args.iv args.ivLen args.key args.keyLen args.macName args.macKey args.macKeyLen

/-- No installation on the direction shows before the next activation: whatever is sent then,
the wire carries the same bytes as without it. -/
def KeysWait (d : SshDirection) : Prop :=
  ∀ args d', install args d = .ok () d' → ∀ (s : SessState) (calls : List SendCall),
    (sendAll (withOut s d') calls).sess.sock.tx = (sendAll (withOut s d) calls).sess.sock.tx

/-! In plaintext. -/

/-- A direction in plaintext, twice, with any key material. -/
def SameInPlain (s t : SessState) : Prop :=
  s.sess.out.encrypted = false ∧ ∃ ctr macKey macKeyLen,
    t = withOut s { s.sess.out with ctr := ctr, macKey := macKey, macKeyLen := macKeyLen }

theorem SameInPlain.tx {s t : SessState} (same : SameInPlain s t) : t.sess.sock.tx = s.sess.sock.tx := by
  obtain ⟨-, ctr, macKey, macKeyLen, rfl⟩ := same
  rfl

theorem writeFull_respects (bytes : List UInt8) : Respects SameInPlain (writeFull bytes) := by
  rintro s t ⟨plain, ctr, macKey, macKeyLen, rfl⟩
  rw [writeFull, bind_of_ok (get_apply s), bind_of_ok (get_apply _), bind_of_ok (set_apply _ _), bind_of_ok (set_apply _ _)]
  exact respects_failIf _ _ _ ⟨plain, ctr, macKey, macKeyLen, rfl⟩

theorem sendPacket_plain (p : List UInt8) {s : SessState} (plain : s.sess.out.encrypted = false) :
    sendPacket p s = (writeFull p >>= fun _ => modify fun t =>
      { t with sess := { t.sess with out := { t.sess.out with seq := t.sess.out.seq + 1 } } }) s := by
  rw [sendPacket, bind_of_ok (get_apply s), plain]
  rfl

theorem sendPacket_respects (p : List UInt8) : Respects SameInPlain (sendPacket p) := by
  rintro s t ⟨plain, ctr, macKey, macKeyLen, rfl⟩
  have plain' : (withOut s { s.sess.out with ctr := ctr, macKey := macKey, macKeyLen := macKeyLen }).sess.out.encrypted = false :=
    plain
  rw [sendPacket_plain p plain, sendPacket_plain p plain']
  refine (writeFull_respects p).bind (fun _ => respects_modify ?_) _ _ ⟨plain, ctr, macKey, macKeyLen, rfl⟩
  rintro u v ⟨plain, ctr, macKey, macKeyLen, rfl⟩
  exact ⟨plain, ctr, macKey, macKeyLen, rfl⟩

theorem frame_respects (call : SendCall) : Respects SameInPlain call.frame := by
  refine (respects_failIf _).bind fun _ => respects_get ?_ fun s => ?_
  · rintro s t ⟨-, ctr, macKey, macKeyLen, rfl⟩
    rfl
  · refine (respects_failIf _).bind fun _ => Respects.bind (respects_zoom ?_ ?_) fun _ => ?_
    · rintro u v ⟨-, ctr, macKey, macKeyLen, rfl⟩
      rfl
    · rintro u v memory ⟨plain, ctr, macKey, macKeyLen, rfl⟩
      exact ⟨plain, ctr, macKey, macKeyLen, rfl⟩
    · cases call.rand (paddingSize (blockOf s.sess.out) call.len) with
      | none => exact respects_throw .fail
      | some padding => exact respects_pure _

theorem run_respects (call : SendCall) : Respects SameInPlain call.run := by
  rw [run_eq]
  exact (frame_respects call).bind sendPacket_respects

theorem sendAll_same {s t : SessState} (same : SameInPlain s t) (calls : List SendCall) :
    SameInPlain (sendAll s calls) (sendAll t calls) := by
  induction calls generalizing s t with
  | nil => exact same
  | cons call calls ih => exact ih (run_respects call s t same).state

/-- An installation leaves the mode and the sequence number. -/
theorem install_same {args : KeyArgs} {d d' : SshDirection} (installed : install args d = .ok () d') (s : SessState)
    (plain : d.encrypted = false) : SameInPlain (withOut s d) (withOut s d') := by
  have kept := sessionSetKeys_keeps (show Blind (fun d => (d.encrypted, d.seq)) from fun _ _ _ _ => rfl) args.cipherName
    args.iv args.ivLen args.key args.keyLen args.macName args.macKey args.macKeyLen d
  rw [show sessionSetKeys _ _ _ _ _ _ _ _ d = .ok () d' from installed, stateOf, Prod.mk.injEq] at kept
  refine ⟨plain, d'.ctr, d'.macKey, d'.macKeyLen, ?_⟩
  obtain ⟨encrypted, ctr, macKey, macKeyLen, seq⟩ := d'
  obtain ⟨rfl, rfl⟩ := kept
  rfl

/-! Under earlier keys. -/

def newKeysPacket (d : SshDirection) : List UInt8 := framed [21] (Vector.replicate (paddingSize (blockOf d) 1) 0).toList

/-- One message shows the keys that are installed. -/
theorem tx_newKeys (d : SshDirection) : (sendAll (ready d) [newKeys]).sess.sock.tx = protect d (newKeysPacket d) := by
  have plenty : Plenty (ready d).heap := (by decide : Plenty (freshState []).heap)
  have accepting : Accepting (ready d).sess.sock := (by decide : Accepting (freshState []).sess.sock)
  obtain ⟨t, returned, sent⟩ := @sessionSend_ok (ready d) newKeys.rand [21] _ plenty accepting (by decide) rfl
  have state : sendAll (ready d) [newKeys] = t := congrArg stateOf returned
  rw [state, sent.tx]
  rfl

theorem KeysWait.visible {d d' : SshDirection} {args : KeyArgs} (waits : KeysWait d)
    (installed : install args d = .ok () d') : protect d' (newKeysPacket d') = protect d (newKeysPacket d) := by
  rw [← tx_newKeys, ← tx_newKeys]
  exact waits args d' installed (freshState []) [newKeys]

/-- Keys of zeros for aes128-ctr, with or without a MAC. -/
def zeroKeys (mac : Bool) : KeyArgs :=
  { cipherName := some "aes128-ctr", iv := some (List.replicate 16 0), ivLen := 16
    key := some (List.replicate 16 0), keyLen := 16
    macName := some (if mac then "hmac-sha2-256" else "none"), macKey := some (List.replicate 32 0), macKeyLen := 32 }

theorem install_zeroKeys (mac : Bool) (d : SshDirection) :
    ∃ d', install (zeroKeys mac) d = .ok () d' ∧ d'.encrypted = d.encrypted ∧ (0 < d'.macKeyLen.val ↔ mac = true) := by
  cases mac with
  | true => exact ⟨_, rfl, rfl, iff_of_true (show 0 < 32 by decide) rfl⟩
  | false => exact ⟨_, rfl, rfl, iff_of_false (Nat.lt_irrefl 0) Bool.false_ne_true⟩

/-- An encrypting direction shows an installation at once. -/
theorem plain_of_keysWait {d : SshDirection} (waits : KeysWait d) : d.encrypted = false := by
  by_contra encrypting
  have encrypted : d.encrypted = true := by
    rw [← Bool.not_eq_false]
    exact encrypting
  -- an installation that adds the MAC, or takes it away
  obtain ⟨d', installed, mode, keyed⟩ := install_zeroKeys (decide (d.macKeyLen.val = 0)) d
  have block : blockOf d' = blockOf d := by rw [blockOf, blockOf, mode]
  have packet : newKeysPacket d' = newKeysPacket d := by rw [newKeysPacket, newKeysPacket, block]
  have length := congrArg List.length (waits.visible installed)
  rw [protect_length, protect_length, packet, Nat.add_left_cancel_iff, macLength, macLength, mode] at length
  rw [decide_eq_true_eq] at keyed
  have positive : 0 < Sha256.SHA256_DIGEST_SIZE := by decide
  simp only [encrypted, true_and] at length
  split at length <;> split at length <;> omega

/-- New keys wait for their activation on the directions in plaintext, and on no others. -/
theorem keys_wait_iff (d : SshDirection) : KeysWait d ↔ d.encrypted = false := by
  constructor
  · exact plain_of_keysWait
  · intro plain args d' installed s calls
    exact (sendAll_same (install_same installed s plain) calls).tx

/-- The first byte on the wire is under the installed keys. -/
theorem KeysWait.same_key {d d' : SshDirection} {args : KeyArgs} (waits : KeysWait d)
    (installed : install args d = .ok () d') (encrypted : d.encrypted = true) (encrypted' : d'.encrypted = true) :
    ctrKey d'.ctr = ctrKey d.ctr := by
  have block : blockOf d' = blockOf d := by rw [blockOf, blockOf, encrypted, encrypted']
  have packet : newKeysPacket d' = newKeysPacket d := by rw [newKeysPacket, newKeysPacket, block]
  have same := waits.visible installed
  obtain ⟨byte, rest, cons⟩ : ∃ byte rest, newKeysPacket d = byte :: rest := ⟨_, _, rfl⟩
  rw [packet, cons, protect, protect, if_pos encrypted, if_pos encrypted', aesCtrCrypt_eq, aesCtrCrypt_eq, Keystream.crypt,
    Keystream.crypt, List.cons_append, List.cons_append, List.cons.injEq] at same
  exact (UInt8.xor_right_inj byte).mp same.1

/-- The keys of a first exchange, in use. -/
def live : SshDirection := switchKeys zeroDirection { zeroKeys true with iv := some (List.replicate 16 1) }

/-- A rekey with the same algorithms sends SSH_MSG_NEWKEYS under the new keys. -/
theorem rekey_shows_at_once : ¬∀ d, KeysWait d := by
  intro claimed
  obtain ⟨d', installed, ctr, mode⟩ : ∃ d', install (zeroKeys true) live = .ok () d' ∧
      d'.ctr = (aesCtrInit (List.replicate 16 0) 128 (List.replicate 16 0)).2 ∧ d'.encrypted = true := ⟨_, rfl, rfl, rfl⟩
  have same := (claimed live).same_key installed rfl mode
  have differs : ctrKey (aesCtrInit (List.replicate 16 0) 128 (List.replicate 16 0)).2 ≠ ctrKey live.ctr := by decide +kernel
  rw [ctr] at same
  exact differs same

end Coalesce.Rekey
