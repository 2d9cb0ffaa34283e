import Coalesce.SessionAuthentic
import Coalesce.SessionRun

/-! A receiver with a MAC, and a stream that anyone may have written. Between two receives
the stream, the memory and the buffer may become anything; a receive may fail, and the
session may go on behind the failure. The keys may change on the way, at each end when it
likes and to what it likes. -/

namespace Coalesce.HostileStream
open Library.CallResult Library.ByteNumber Buffer BufferBytes BufferReaders Net Aes Session SessionReceive SessionDeliver
open SessionSend SessionAuthentic SessionFrame
open SessionExchange (KeyArgs)
open SessionNetwork (drawn drawn_length)
open Rekey (install)
open SessionRun (MacOf install_mac install_keeps)
open ProgramCalls (sessionSend_drawn)

/-- What the MAC of a packet is taken over. -/
def macInput (seq : UInt32) (packet : List UInt8) : List UInt8 := beBytes 4 seq.toNat ++ packet

def macKeyOf (d : SshDirection) : List UInt8 := d.macKey.toList.take d.macKeyLen.val

/-- A packet that was let in: the MAC key of the direction, the tag that was read, what this
tag was compared for, and the payload. -/
structure Admitted where
  key : List UInt8
  tag : List UInt8
  input : List UInt8
  payload : List UInt8
  deriving DecidableEq, Repr

/-- The packet in clear that a receive took off the stream, and its tag. -/
def taken (s t : SessState) : List UInt8 × List UInt8 :=
  let consumed := s.sess.sock.rx.take (s.sess.sock.rx.length - t.sess.sock.rx.length)
  let size := consumed.length - Sha256.SHA256_DIGEST_SIZE
  ((aesCtrCrypt s.sess.inn.ctr (consumed.take size)).1, consumed.drop size)

def admitted (s t : SessState) : Admitted :=
  { key := macKeyOf s.sess.inn
    tag := (taken s t).2
    input := macInput s.sess.inn.seq (taken s t).1
    payload := contents t.buf }

/-- Everything that can be done with a direction that goes on asking for a MAC: receives,
whatever the stream of each, keys, accepted or not, and activation. A receive that hangs is
the last. -/
inductive Attacked (start : SshDirection) : SshDirection → List Admitted → Prop
  | start : Attacked start start []
  | admitted {d : SshDirection} {log : List Admitted} {s t : SessState} (reached : Attacked start d log)
      (direction : s.sess.inn = d) (valid : Valid s.buf) (returned : sessionRecv s = .ok () t) :
      Attacked start t.sess.inn (log ++ [admitted s t])
  | refused {d : SshDirection} {log : List Admitted} {s t : SessState} (reached : Attacked start d log)
      (direction : s.sess.inn = d) (valid : Valid s.buf) (failed : sessionRecv s = .error .fail t) :
      Attacked start t.sess.inn log
  | keys {d : SshDirection} {log : List Admitted} (args : KeyArgs) (reached : Attacked start d log)
      (authenticated : args.macName ≠ some "none") : Attacked start (stateOf (install args d)) log
  | activated {d : SshDirection} {log : List Admitted} (reached : Attacked start d log) :
      Attacked start (sessionActivate d) log

/-- Sends one after another, all of them successful, with keys and activations between them:
the payloads, and what the tags were made for. -/
inductive Sending (start : SshDirection) : SshDirection → List (List UInt8) → List (List UInt8) → Prop
  | start : Sending start start [] []
  | sent {d : SshDirection} {payloads inputs : List (List UInt8)} {s t : SessState} {payload : List UInt8}
      {rand : (n : Nat) → Option (Vector UInt8 n)} (reached : Sending start d payloads inputs) (direction : s.sess.out = d)
      (plenty : Plenty s.heap) (accepting : Accepting s.sess.sock) (sendable : Sendable payload)
      (entropy : ∀ n, (rand n).isSome) (returned : sessionSend rand (some payload) payload.length s = .ok () t) :
      Sending start t.sess.out (payloads ++ [payload])
        (inputs ++ [macInput s.sess.out.seq (framed payload (drawn rand s.sess.out payload))])
  | keys {d : SshDirection} {payloads inputs : List (List UInt8)} (args : KeyArgs) (reached : Sending start d payloads inputs)
      (authenticated : args.macName ≠ some "none") : Sending start (stateOf (install args d)) payloads inputs
  | activated {d : SshDirection} {payloads inputs : List (List UInt8)} (reached : Sending start d payloads inputs) :
      Sending start (sessionActivate d) payloads inputs

/-- A tag that is right, for something that the sender has made no tag for, under any key. -/
structure Forged (inputs : List (List UInt8)) (a : Admitted) : Prop where
  verifies : a.tag = Library.Sha2.hmacSha256 a.key a.input
  fresh : a.input ∉ inputs

/-! The receiver. -/

theorem taken_eq {s t : SessState} {p : List UInt8} (encrypted : s.sess.inn.encrypted = true)
    (keyed : 0 < s.sess.inn.macKeyLen.val) (incoming : Incoming s.sess.inn s.sess.sock.rx p) (received : Received s t p) :
    taken s t = (p, packetTag s.sess.inn p) := by
  obtain ⟨cuts, sock⟩ := received.sock
  have mac : macLength s.sess.inn = Sha256.SHA256_DIGEST_SIZE := by simp [macLength, encrypted, keyed]
  have complete := incoming.complete
  have clear := incoming.clear
  have tag := incoming.mac (by rw [mac]; decide)
  rw [clearText, if_pos encrypted] at clear
  rw [mac] at complete sock
  have read : s.sess.sock.rx.length - t.sess.sock.rx.length = p.length + Sha256.SHA256_DIGEST_SIZE := by
    rw [sock]
    change _ - (s.sess.sock.rx.drop _).length = _
    rw [List.length_drop]
    omega
  have size : (s.sess.sock.rx.take (p.length + Sha256.SHA256_DIGEST_SIZE)).length - Sha256.SHA256_DIGEST_SIZE = p.length := by
    rw [List.length_take, Nat.min_eq_left complete, Nat.add_sub_cancel]
  simp only [taken, read, size]
  rw [List.take_take, Nat.min_eq_left (by omega), ← clear, List.drop_take, Nat.add_sub_cancel_left, tag]

/-- What a receive does not change in its direction. -/
def material (s : SessState) : Bool × Fin (SSH_MAC_KEY_MAX + 1) := (s.sess.inn.encrypted, s.sess.inn.macKeyLen)

theorem keeps_material : Keeps material sessionRecv := Unmoved.sessionRecv fun _ _ _ _ _ _ _ => rfl

/-- Keys leave mode and sequence number alone. -/
theorem stateOf_install (args : KeyArgs) (d : SshDirection) :
    (stateOf (install args d)).encrypted = d.encrypted ∧ (stateOf (install args d)).seq = d.seq := by
  have keeps := install_keeps args d
  cases result : install args d with
  | ok value t =>
    rw [result] at keeps
    exact Prod.mk.inj keeps
  | error exit t =>
    rw [result] at keeps
    exact Prod.mk.inj keeps

/-- Keys with a MAC do not take the MAC away, nor do keys that are refused. -/
theorem stateOf_install_keyed {args : KeyArgs} (authenticated : args.macName ≠ some "none") {d : SshDirection}
    (keyed : 0 < d.macKeyLen.val) : 0 < (stateOf (install args d)).macKeyLen.val := by
  obtain ⟨returned, failed⟩ := install_mac args d
  cases result : install args d with
  | ok value t =>
    have mac : MacOf t (some args) := returned t result
    simp only [MacOf] at mac
    split at mac
    · obtain ⟨key, -, length, positive, -⟩ := mac
      exact length ▸ positive
    · exact absurd mac.1 authenticated
  | error exit t =>
    have same := (failed exit t result).2
    exact same ▸ keyed

/-- What everything leaves: a MAC, and a sequence number that counts what was let in, each
packet under its own number and with a tag that is right under the key of its time. -/
structure Counts (start d : SshDirection) (log : List Admitted) : Prop where
  encrypted : d.encrypted = true
  keyed : 0 < d.macKeyLen.val
  seq : d.seq = start.seq + UInt32.ofNat log.length
  entries : ∀ i a, log[i]? = some a → a.tag = Library.Sha2.hmacSha256 a.key a.input ∧
    ∃ p, a.input = macInput (start.seq + UInt32.ofNat i) p ∧ a.payload = payloadOf p

theorem attacked_counts {start d : SshDirection} {log : List Admitted} (encrypted : start.encrypted = true)
    (keyed : 0 < start.macKeyLen.val) (attacked : Attacked start d log) : Counts start d log := by
  induction attacked with
  | start => exact ⟨encrypted, keyed, by simp, by simp⟩
  | @admitted d log s t reached direction valid returned ih =>
    obtain ⟨p, incoming, -, received⟩ := recv_ok valid returned
    obtain ⟨mode, positive, seq, entries⟩ := ih
    have took := taken_eq (by rw [direction, mode]) (by rw [direction]; exact positive) incoming received
    rw [received.inn, direction]
    refine ⟨mode, positive, ?_, ?_⟩
    · change d.seq + 1 = _
      rw [seq, List.length_append, List.length_singleton, UInt32.ofNat_add, UInt32.add_assoc]
      rfl
    · intro i a found
      rcases Nat.lt_trichotomy i log.length with earlier | rfl | later
      · rw [List.getElem?_append_left earlier] at found
        exact entries i a found
      · rw [List.getElem?_append_right (Nat.le_refl _), Nat.sub_self] at found
        rw [← Option.some.inj found, admitted, took, direction, ← seq]
        exact ⟨rfl, p, rfl, received.contents⟩
      · rw [List.getElem?_eq_none (by rw [List.length_append, List.length_singleton]; omega)] at found
        cases found
  | @refused d log s t reached direction valid failed ih =>
    have kept := keeps_material s
    rw [failed] at kept
    have same := (recv_failed valid failed).2.2
    have mode : t.sess.inn.encrypted = s.sess.inn.encrypted := congrArg Prod.fst kept
    have keyLen : t.sess.inn.macKeyLen = s.sess.inn.macKeyLen := congrArg Prod.snd kept
    rw [direction] at mode keyLen same
    exact ⟨mode.trans ih.encrypted, keyLen ▸ ih.keyed, same.trans ih.seq, ih.entries⟩
  | @keys d log args reached authenticated ih =>
    obtain ⟨mode, number⟩ := stateOf_install args d
    exact ⟨mode.trans ih.encrypted, stateOf_install_keyed authenticated ih.keyed, number.trans ih.seq, ih.entries⟩
  | @activated d log reached ih => exact ⟨rfl, ih.keyed, ih.seq, ih.entries⟩

/-! The sender. -/

/-- The tags of a sender are for its packets, each under its own number. -/
structure Tags (start d : SshDirection) (payloads inputs : List (List UInt8)) : Prop where
  seq : d.seq = start.seq + UInt32.ofNat inputs.length
  length : payloads.length = inputs.length
  entries : ∀ i input, inputs[i]? = some input →
    ∃ p, input = macInput (start.seq + UInt32.ofNat i) p ∧ payloads[i]? = some (payloadOf p)

/-- What a successful send has written and counted. -/
theorem sent_packet {s t : SessState} {payload : List UInt8} {rand : (n : Nat) → Option (Vector UInt8 n)} (plenty : Plenty s.heap)
    (accepting : Accepting s.sess.sock) (sendable : Sendable payload) (entropy : ∀ n, (rand n).isSome)
    (returned : sessionSend rand (some payload) payload.length s = .ok () t) :
    Sent s t (framed payload (drawn rand s.sess.out payload)) ∧ (drawn rand s.sess.out payload).length < 256 := by
  obtain ⟨u, returned', sent⟩ := sessionSend_drawn plenty accepting sendable entropy
  rw [returned] at returned'
  cases returned'
  have bounds := paddingSize_bounds s.sess.out payload.length
  have length := drawn_length entropy s.sess.out payload
  exact ⟨sent, by omega⟩

theorem sending_tags {start d : SshDirection} {payloads inputs : List (List UInt8)} (sending : Sending start d payloads inputs) :
    Tags start d payloads inputs := by
  induction sending with
  | start => exact ⟨by simp, rfl, by simp⟩
  | @sent d payloads inputs s t payload rand reached direction plenty accepting sendable entropy returned ih =>
    obtain ⟨sent, short⟩ := sent_packet plenty accepting sendable entropy returned
    have number : s.sess.out.seq = start.seq + UInt32.ofNat inputs.length := by
      rw [direction]
      exact ih.seq
    refine ⟨?_, by rw [List.length_append, List.length_append, ih.length]; rfl, ?_⟩
    · rw [sent.out]
      change s.sess.out.seq + 1 = _
      rw [number, List.length_append, List.length_singleton, UInt32.ofNat_add, UInt32.add_assoc]
      rfl
    · intro i input found
      rcases Nat.lt_trichotomy i inputs.length with earlier | rfl | later
      · rw [List.getElem?_append_left earlier] at found
        rw [List.getElem?_append_left (by rw [ih.length]; exact earlier)]
        exact ih.entries i input found
      · rw [List.getElem?_append_right (Nat.le_refl _), Nat.sub_self] at found
        rw [← ih.length, List.getElem?_append_right (Nat.le_refl _), Nat.sub_self, ih.length]
        refine ⟨framed payload (drawn rand s.sess.out payload), ?_, ?_⟩
        · rw [← Option.some.inj found, number]
        · rw [framed_payload short]
          rfl
      · rw [List.getElem?_eq_none (by rw [List.length_append, List.length_singleton]; omega)] at found
        cases found
  | @keys d payloads inputs args reached authenticated ih =>
    exact ⟨(stateOf_install args d).2.trans ih.seq, ih.length, ih.entries⟩
  | @activated d payloads inputs reached ih => exact ⟨ih.seq, ih.length, ih.entries⟩

/-! Both. -/

theorem macInput_inj {seq seq' : UInt32} {p p' : List UInt8} (same : macInput seq p = macInput seq' p') : seq = seq' ∧ p = p' := by
  obtain ⟨numbers, packets⟩ := List.append_inj same (by rw [beBytes_length, beBytes_length])
  have small (n : UInt32) : n.toNat % 256 ^ 4 = n.toNat := Nat.mod_eq_of_lt n.toNat_lt
  have word := congrArg beNat numbers
  rw [beNat_beBytes, beNat_beBytes, small, small] at word
  exact ⟨UInt32.toNat_inj.mp word, packets⟩

theorem ofNat_inj_of_lt {i j : Nat} (first : i < 2 ^ 32) (second : j < 2 ^ 32) {base : UInt32}
    (same : base + UInt32.ofNat i = base + UInt32.ofNat j) : i = j := by
  have numbers := congrArg UInt32.toNat ((UInt32.add_right_inj base).mp same)
  rw [UInt32.toNat_ofNat_of_lt' first, UInt32.toNat_ofNat_of_lt' second] at numbers
  exact numbers

/-- A packet that was let in with a tag that the sender made: it is the packet of the sender that
has the same number. -/
theorem admitted_known {start start' d e : SshDirection} {log : List Admitted} {payloads inputs : List (List UInt8)}
    (counts : Counts start d log) (tags : Tags start' e payloads inputs) {i : Nat} {a : Admitted} (entry : log[i]? = some a)
    (known : a.input ∈ inputs) :
    ∃ j, payloads[j]? = some a.payload ∧ start.seq + UInt32.ofNat i = start'.seq + UInt32.ofNat j := by
  obtain ⟨-, p, input, payload⟩ := counts.entries i a entry
  obtain ⟨j, found⟩ := List.getElem?_of_mem known
  obtain ⟨q, sent, place⟩ := tags.entries j a.input found
  obtain ⟨numbers, packets⟩ := macInput_inj (input.symm.trans sent)
  refine ⟨j, ?_, numbers⟩
  rw [place, payload, packets]

/-- Otherwise it is a forgery, also where more inputs than those count as known. -/
theorem admitted_forged {start d : SshDirection} {log : List Admitted} {inputs : List (List UInt8)} {known : List UInt8 → Prop}
    (counts : Counts start d log) (made : ∀ input ∈ inputs, known input) (unknown : ¬∀ a ∈ log, known a.input) :
    ∃ a ∈ log, Forged inputs a ∧ ¬known a.input := by
  obtain ⟨a, forged⟩ := Classical.not_forall.mp unknown
  obtain ⟨member, fresh⟩ := Classical.not_imp.mp forged
  obtain ⟨i, found⟩ := List.getElem?_of_mem member
  exact ⟨a, member, ⟨(counts.entries i a found).1, fun old => fresh (made a.input old)⟩, fresh⟩

/-- Up to the wrap of the sequence number, and across all changes of keys, what comes out of a
stream that anyone may have written is the first of what was sent, or one of the packets that
were let in carries a right tag for something that the sender never made a tag for. -/
theorem attack_needs_forgery (start : SshDirection) (encrypted : start.encrypted = true) (keyed : 0 < start.macKeyLen.val)
    (d : SshDirection) (log : List Admitted) (attacked : Attacked start d log) (e : SshDirection)
    (payloads inputs : List (List UInt8)) (sending : Sending start e payloads inputs) (fewLet : log.length ≤ 2 ^ 32)
    (fewSent : payloads.length ≤ 2 ^ 32) :
    log.map Admitted.payload <+: payloads ∨ ∃ a ∈ log, Forged inputs a := by
  have counts := attacked_counts encrypted keyed attacked
  have tags := sending_tags sending
  by_cases known : ∀ a ∈ log, a.input ∈ inputs
  · refine Or.inl (List.prefix_iff_getElem?.mpr fun i inside => ?_)
    rw [List.length_map] at inside
    obtain ⟨j, place, numbers⟩ := admitted_known counts tags (List.getElem?_eq_getElem inside) (known log[i] (List.getElem_mem inside))
    have within : j < payloads.length := (List.getElem?_eq_some_iff.mp place).1
    have index := ofNat_inj_of_lt (by omega) (by omega) numbers
    rw [← index] at place
    rw [List.getElem_map, place]
  · obtain ⟨a, member, forged, -⟩ := admitted_forged counts (fun _ made => made) known
    exact Or.inr ⟨a, member, forged⟩

/-- A packet with a right tag from someone else than a sender who has sent nothing. -/
theorem attack_needs_forgery_stranger : ∃ t, sessionRecv (sealedState sealedDirection sealedPacket) = .ok () t ∧
    (([admitted (sealedState sealedDirection sealedPacket) t].map Admitted.payload <+: []) ∨
      ∃ a ∈ [admitted (sealedState sealedDirection sealedPacket) t], Forged [] a) := by
  have valid : Valid (sealedState sealedDirection sealedPacket).buf := (by decide : Valid (freshState []).buf)
  have plenty : Plenty (sealedState sealedDirection sealedPacket).heap := (by decide : Plenty (freshState []).heap)
  have incoming := incoming_protect sealedDirection sealedPacket [] (by decide) (by decide)
  rw [List.append_nil] at incoming
  obtain ⟨t, returned, -⟩ := recv_delivers (s := sealedState sealedDirection sealedPacket) valid plenty incoming (by decide)
  exact ⟨t, returned, attack_needs_forgery sealedDirection rfl (by decide) _ _ (.admitted .start rfl valid returned)
    sealedDirection [] [] .start (by simp) (by simp)⟩

/-! Getting stuck. -/

/-- A sender's packets leave room for their payloads. -/
theorem sending_good {start d : SshDirection} {payloads inputs : List (List UInt8)} (sending : Sending start d payloads inputs)
    {input : List UInt8} (member : input ∈ inputs) : ∃ seq p, input = macInput seq p ∧ GoodPadding p := by
  induction sending with
  | start => cases member
  | @sent d payloads inputs s t payload rand reached direction plenty accepting sendable entropy returned ih =>
    rcases List.mem_append.mp member with earlier | last
    · exact ih earlier
    · rw [List.mem_singleton.mp last]
      exact ⟨_, _, rfl, (framed_accepted s.sess.out sendable (drawn_length entropy s.sess.out payload)).2.2⟩
  | keys args reached authenticated ih => exact ih member
  | activated reached ih => exact ih member

/-- The packet at the front of the stream, as it would be let in. -/
def offered (s : SessState) (p : List UInt8) : Admitted :=
  { key := macKeyOf s.sess.inn
    tag := (s.sess.sock.rx.drop p.length).take Sha256.SHA256_DIGEST_SIZE
    input := macInput s.sess.inn.seq p
    payload := payloadOf p }

/-- In any run against any streams: a receive that never returns has found a packet whose tag
is right, and which the sender has never made. Traffic of the sender, cut, repeated, reordered
or altered, does not bring the receiver there. -/
theorem hang_needs_forgery (start : SshDirection) (encrypted : start.encrypted = true) (keyed : 0 < start.macKeyLen.val)
    (d : SshDirection) (log : List Admitted) (attacked : Attacked start d log) (e : SshDirection)
    (payloads inputs : List (List UInt8)) (sending : Sending start e payloads inputs) (s t : SessState)
    (direction : s.sess.inn = d) (valid : Valid s.buf) (stuck : sessionRecv s = .error .hang t) :
    ∃ p, Incoming d s.sess.sock.rx p ∧ OverrunPadding p ∧ Forged inputs (offered s p) := by
  obtain ⟨mode, positive, -, -⟩ := attacked_counts encrypted keyed attacked
  have outcome := sessionRecv_outcome valid
  rw [stuck] at outcome
  cases outcome with
  | @stuck p _ incoming overrun =>
    have mac : macLength s.sess.inn = Sha256.SHA256_DIGEST_SIZE := by
      have armed : s.sess.inn.encrypted = true ∧ 0 < s.sess.inn.macKeyLen.val := by
        rw [direction]
        exact ⟨mode, positive⟩
      simp [macLength, armed]
    refine ⟨p, direction ▸ incoming, overrun, ?_, fun made => ?_⟩
    · have tag := incoming.mac (by rw [mac]; decide)
      exact tag
    · obtain ⟨seq, q, input, good⟩ := sending_good sending made
      rw [(macInput_inj input).2] at overrun
      exact good_not_overrun good overrun

/-- A packet that is nothing but padding, with a right tag, from someone else. -/
def overrunPacket : List UInt8 := [0, 0, 0, 12, 12] ++ List.replicate 11 0

theorem hang_needs_forgery_stranger : ∃ t, sessionRecv (sealedState sealedDirection overrunPacket) = .error .hang t ∧
    ∃ p, Incoming sealedDirection (sealedState sealedDirection overrunPacket).sess.sock.rx p ∧ OverrunPadding p ∧
      Forged [] (offered (sealedState sealedDirection overrunPacket) p) := by
  have valid : Valid (sealedState sealedDirection overrunPacket).buf := (by decide : Valid (freshState []).buf)
  have plenty : Plenty (sealedState sealedDirection overrunPacket).heap := (by decide : Plenty (freshState []).heap)
  have incoming := incoming_protect sealedDirection overrunPacket [] (by decide) (by decide)
  rw [List.append_nil] at incoming
  obtain ⟨t, stuck⟩ := overrun_stuck (s := sealedState sealedDirection overrunPacket) valid plenty ⟨_, incoming, by decide⟩
  exact ⟨t, stuck, hang_needs_forgery sealedDirection rfl (by decide) _ _ .start sealedDirection [] [] .start _ t rfl valid stuck⟩

end Coalesce.HostileStream
