import Coalesce.HostileStream

/-! What an attacker can do before the first keys, seen from behind them. In the clear he may
put packets before the receiver that nobody sent and hold back others; neither end notices.
The sequence numbers go on counting when the keys come. -/

namespace Coalesce.ClearPhase
open Library.CallResult Library.ByteNumber Buffer BufferBytes BufferReaders Net Aes Session SessionReceive SessionDeliver
open SessionSend SessionAuthentic SessionExchange SessionRun HostileStream KeyInstall
open SendRun (SendCall)
open SessionNetwork (drawn drawn_length)
open Rekey (install zeroKeys install_zeroKeys)

/-- How many sends have returned 0 in this life. -/
def sentCount (sock : Socket) (turns : List Turn) : Nat := (live (sessionInit sock) turns).1.countP sentOne

/-- How many receives have returned 0 in this life. -/
def receivedCount (sock : Socket) (turns : List Turn) : Nat := (live (sessionInit sock) turns).1.countP receivedOne

theorem seq_of_life (sock : Socket) (turns : List Turn) :
    (live (sessionInit sock) turns).2.out.seq = UInt32.ofNat (sentCount sock turns) ∧
      (live (sessionInit sock) turns).2.inn.seq = UInt32.ofNat (receivedCount sock turns) :=
  have kept := kept_turns (kept_init sock) turns
  ⟨kept.sent, kept.received⟩

theorem add_eq_of_ofNat {m n i j : Nat} (first : m + i < 2 ^ 32) (second : n + j < 2 ^ 32)
    (same : UInt32.ofNat m + UInt32.ofNat i = UInt32.ofNat n + UInt32.ofNat j) : m + i = n + j := by
  rw [← UInt32.ofNat_add, ← UInt32.ofNat_add, ← UInt32.zero_add (UInt32.ofNat (m + i)),
    ← UInt32.zero_add (UInt32.ofNat (n + j))] at same
  exact ofNat_inj_of_lt first second same

/-! Tags of the past. A packet that was sent under a MAC before may still arrive. -/

/-- A send of this life has made a tag for the input, whether it then returned 0 or not. -/
inductive Tagged : History × SshSession → List Turn → List UInt8 → Prop
  | made {life : History × SshSession} {turn : Turn} {turns : List Turn} (call : SendCall) {p : List UInt8} {t : SessState}
      (request : turn.request = .send call.rand call.payload call.len) (encrypted : life.2.out.encrypted = true)
      (keyed : 0 < life.2.out.macKeyLen.val)
      (framed : call.frame ⟨turn.heap, { life.2 with sock := turn.sock }, turn.buf⟩ = .ok p t) :
      Tagged life (turn :: turns) (macInput life.2.out.seq p)
  | later {life : History × SshSession} {turn : Turn} {turns : List Turn} {input : List UInt8}
      (tagged : Tagged (takeTurn life turn) turns input) : Tagged life (turn :: turns) input

theorem countP_turns (event : Request × Bool → Bool) (life : History × SshSession) (turns : List Turn) :
    life.1.countP event ≤ (turns.foldl takeTurn life).1.countP event := by
  induction turns generalizing life with
  | nil => exact Nat.le_refl _
  | cons turn turns ih =>
    refine Nat.le_trans ?_ (ih (takeTurn life turn))
    simp only [takeTurn, List.countP_append]
    exact Nat.le_add_right _ _

/-- Its number is one that the sender had come to. -/
theorem Tagged.number {life : History × SshSession} {turns : List Turn} {input : List UInt8} (tagged : Tagged life turns input)
    (kept : Kept life.1 life.2) :
    ∃ k p, input = macInput (UInt32.ofNat k) p ∧ k ≤ (turns.foldl takeTurn life).1.countP sentOne := by
  induction tagged with
  | @made life turn turns call p t request encrypted keyed framed =>
    exact ⟨life.1.countP sentOne, p, by rw [kept.sent], countP_turns sentOne life (turn :: turns)⟩
  | @later life turn turns input tagged ih => exact ih (kept_turn kept turn)

/-- What was let in, against what was sent: `late` are the tags of the past, and the counts
are what either end had counted by then. -/
structure Relayed (late : List UInt8 → Prop) (sent received : Nat) (payloads : List (List UInt8)) (log : List Admitted) : Prop where
  placed : ∀ i a, log[i]? = some a →
    (late a.input ∧ received + i ≤ sent) ∨ ∃ j, received + i = sent + j ∧ payloads[j]? = some a.payload
  first : (∀ input, ¬late input) → log.map Admitted.payload <+: payloads.drop (received - sent) ∧ (received < sent → log = [])

/-- Without a tag of the past the entries are in their places, one behind the other. -/
theorem relayed_of_placed {late : List UInt8 → Prop} {sent received : Nat} {payloads : List (List UInt8)} {log : List Admitted}
    (placed : ∀ i a, log[i]? = some a →
      (late a.input ∧ received + i ≤ sent) ∨ ∃ j, received + i = sent + j ∧ payloads[j]? = some a.payload) :
    Relayed late sent received payloads log := by
  refine ⟨placed, fun fresh => ?_⟩
  have found (i : Nat) (inside : i < log.length) : ∃ j, received + i = sent + j ∧ payloads[j]? = some log[i].payload := by
    rcases placed i log[i] (List.getElem?_eq_getElem inside) with ⟨old, -⟩ | here
    · exact absurd old (fresh _)
    · exact here
  refine ⟨List.prefix_iff_getElem?.mpr fun i inside => ?_, fun fewer => ?_⟩
  · rw [List.length_map] at inside
    obtain ⟨j, same, place⟩ := found i inside
    -- The first packet that was let in shows that the receiver is not behind.
    obtain ⟨_, first, -⟩ := found 0 (Nat.zero_lt_of_lt inside)
    have index : received - sent + i = j := by omega
    rw [List.getElem?_drop, index, place, List.getElem_map]
  · cases log with
    | nil => rfl
    | cons a log =>
      obtain ⟨j, first, -⟩ := found 0 (Nat.zero_lt_succ _)
      omega

/-- Two sessions with any past, on any streams, and up to the wrap of the sequence numbers.
What the receiver lets in from now on, with a MAC, has the number and the payload of a packet
that the sender sends from now on; or its tag was made before, which takes a receiver that has
counted no more than the sender. Without a tag of the past it is the first of what the sender
sends from now on, less as many packets as the receiver has counted too many, and nothing if he
has counted too few. Anything else takes a forgery. -/
theorem truncation_bounded (ours theirs : Socket) (sends receives : List Turn)
    (encrypted : (live (sessionInit theirs) receives).2.inn.encrypted = true)
    (keyed : 0 < (live (sessionInit theirs) receives).2.inn.macKeyLen.val) (d : SshDirection) (log : List Admitted)
    (attacked : Attacked (live (sessionInit theirs) receives).2.inn d log) (e : SshDirection) (payloads inputs : List (List UInt8))
    (sending : Sending (live (sessionInit ours) sends).2.out e payloads inputs)
    (fewLet : receivedCount theirs receives + log.length ≤ 2 ^ 32) (fewSent : sentCount ours sends + payloads.length < 2 ^ 32) :
    Relayed (Tagged ([], sessionInit ours) sends) (sentCount ours sends) (receivedCount theirs receives) payloads log ∨
      ∃ a ∈ log, Forged inputs a ∧ ¬Tagged ([], sessionInit ours) sends a.input := by
  have counts := attacked_counts encrypted keyed attacked
  have tags := sending_tags sending
  have numbersOut := (seq_of_life ours sends).1
  have numbersIn := (seq_of_life theirs receives).2
  by_cases known : ∀ a ∈ log, a.input ∈ inputs ∨ Tagged ([], sessionInit ours) sends a.input
  · refine Or.inl (relayed_of_placed fun i a entry => ?_)
    have inside : i < log.length := (List.getElem?_eq_some_iff.mp entry).1
    rcases known a (List.mem_of_getElem? entry) with new | old
    · obtain ⟨j, place, numbers⟩ := admitted_known counts tags entry new
      have within : j < payloads.length := (List.getElem?_eq_some_iff.mp place).1
      rw [numbersIn, numbersOut] at numbers
      exact Or.inr ⟨j, add_eq_of_ofNat (by omega) (by omega) numbers, place⟩
    · obtain ⟨k, p, past, counted⟩ := old.number (kept_init ours)
      have earlier : k ≤ sentCount ours sends := counted
      obtain ⟨-, q, input, -⟩ := counts.entries i a entry
      rw [numbersIn] at input
      have numbers := (macInput_inj (input.symm.trans past)).1
      rw [← UInt32.add_zero (UInt32.ofNat k)] at numbers
      have place := add_eq_of_ofNat (j := 0) (by omega) (by omega) numbers
      exact Or.inl ⟨old, by omega⟩
  · obtain ⟨a, member, forged, unknown⟩ := admitted_forged counts (fun _ made => Or.inl made) known
    exact Or.inr ⟨a, member, forged, fun old => unknown (Or.inr old)⟩

def turn (rx : List UInt8) (request : Request) : Turn :=
  { sock := { idle with rx := rx }, heap := [], buf := (freshState []).buf, request := request }

/-- A packet that nobody has sent, and then the keys. -/
def injected : List Turn :=
  [turn (framed [42] (List.replicate 10 0)) .recv, turn [] (.setKeys .inn (zeroKeys true)), turn [] (.activate .inn)]

/-- A packet that does not arrive, and then the keys. -/
def suppressed : List Turn :=
  [turn [] (.send SessionNetwork.noiseless (some [7]) 1), turn [] (.setKeys .out (zeroKeys true)), turn [] (.activate .out)]

/-- The direction behind either. -/
def shifted : SshDirection := (live (sessionInit idle) injected).2.inn

theorem shifted_alike : (live (sessionInit idle) suppressed).2.out = shifted := by decide +kernel

/-- One packet was put in the place of another; behind the keys the next one arrives. -/
theorem truncation_bounded_exchanged : ∃ (s t r u : SessState) (inputs : List (List UInt8)),
    sessionSend SessionNetwork.noiseless (some [1, 2]) 2 s = .ok () t ∧ r.sess.sock.rx = t.sess.sock.tx ∧
      sessionRecv r = .ok () u ∧
      (Relayed (Tagged ([], sessionInit idle) suppressed) (sentCount idle suppressed) (receivedCount idle injected) [[1, 2]]
          [admitted r u] ∨
        ∃ a ∈ [admitted r u], Forged inputs a ∧ ¬Tagged ([], sessionInit idle) suppressed a.input) := by
  let s : SessState := { freshState [] with sess := { (freshState []).sess with out := shifted } }
  have plenty : Plenty s.heap := (by decide : Plenty (freshState []).heap)
  have accepting : Accepting s.sess.sock := (by decide : Accepting (freshState []).sess.sock)
  have sendable : Sendable [1, 2] := by decide
  have entropy (n : Nat) : (SessionNetwork.noiseless n).isSome := rfl
  obtain ⟨t, sent, done⟩ := @ProgramCalls.sessionSend_drawn s _ [1, 2] plenty accepting sendable entropy
  let r : SessState := { freshState t.sess.sock.tx with sess := { (freshState t.sess.sock.tx).sess with inn := shifted } }
  have valid : Valid r.buf := (by decide : Valid (freshState []).buf)
  obtain ⟨size, limits, good⟩ := framed_accepted shifted sendable (drawn_length entropy shifted [1, 2])
  have incoming := incoming_protect shifted (framed [1, 2] (drawn SessionNetwork.noiseless shifted [1, 2])) [] size limits
  rw [List.append_nil] at incoming
  have wire : r.sess.sock.rx = protect shifted (framed [1, 2] (drawn SessionNetwork.noiseless shifted [1, 2])) := by
    rw [show r.sess.sock.rx = t.sess.sock.tx from rfl, done.tx]
    exact List.nil_append _
  rw [← wire] at incoming
  obtain ⟨u, returned, -⟩ := recv_delivers (s := r) valid (by decide : Plenty (freshState []).heap) incoming good
  have encrypted : shifted.encrypted = true := by decide +kernel
  have keyed : 0 < shifted.macKeyLen.val := by decide +kernel
  have counted : receivedCount idle injected = 1 := by decide +kernel
  have sending : Sending (live (sessionInit idle) suppressed).2.out t.sess.out [[1, 2]] _ :=
    .sent .start shifted_alike.symm plenty accepting sendable entropy sent
  exact ⟨s, t, r, u, _, sent, rfl, returned, truncation_bounded idle idle suppressed injected encrypted keyed _ _
    (.admitted .start rfl valid returned) _ _ _ sending (by rw [counted, List.nil_append, List.length_singleton]; decide)
    (by decide +kernel)⟩

/-! The first packet under new keys. -/

theorem take_copyKey (old : Vector UInt8 SSH_MAC_KEY_MAX) (key : List UInt8) {len : Nat} (fits : len ≤ SSH_MAC_KEY_MAX) :
    (copyKey old key len).toList.take len = (List.range len).map fun i => key.getD i 0 := by
  apply List.ext_getElem
  · rw [List.length_take, Vector.length_toList, List.length_map, List.length_range]
    exact Nat.min_eq_left fits
  · intro i inside within
    rw [List.length_map, List.length_range] at within
    have byte := copyKey_getD old key within fits
    have stored : i < (copyKey old key len).toList.length := by
      rw [Vector.length_toList]
      omega
    rw [List.getD_eq_getElem?_getD, List.getElem?_eq_getElem stored, Option.getD_some] at byte
    rw [List.getElem_take, List.getElem_map, List.getElem_range, byte]

/-- What accepted keys with an HMAC leave in a direction. -/
structure Armed (args : KeyArgs) (d e : SshDirection) : Prop where
  ctr : ∃ keyBits iv key, CipherAccepted args keyBits iv key ∧ e.ctr = (aesCtrInit key keyBits iv).2
  macKey : ∃ macKey, args.macKey = some macKey ∧ macKeyOf e = (List.range args.macKeyLen).map fun i => macKey.getD i 0
  macKeyLen : e.macKeyLen.val = args.macKeyLen
  positive : 0 < args.macKeyLen
  seq : e.seq = d.seq

theorem install_armed {args : KeyArgs} (hmac : args.macName = some "hmac-sha2-256") {d e : SshDirection}
    (installed : install args d = .ok () e) : Armed args d e := by
  by_cases accepted : ∃ keyBits iv key macName, CipherAccepted args keyBits iv key ∧ args.macName = some macName
  · obtain ⟨keyBits, iv, key, macName, cipher, -⟩ := accepted
    rw [install_accepted cipher hmac] at installed
    unfold installMac at installed
    rw [if_pos rfl] at installed
    cases given : args.macKey with
    | none =>
      rw [given] at installed
      cases installed
    | some macKey =>
      rw [given] at installed
      by_cases wrong : args.macKeyLen = 0 ∨ args.macKeyLen > SSH_MAC_KEY_MAX
      · simp only [dif_pos wrong] at installed
        cases installed
      · simp only [dif_neg wrong] at installed
        cases installed
        exact ⟨⟨keyBits, iv, key, cipher, rfl⟩, ⟨macKey, given, take_copyKey _ _ (by omega)⟩, rfl, by omega, rfl⟩
  · rw [install_turned_away accepted] at installed
    cases installed

/-- Two directions under the same keys differ in what they have counted. -/
theorem armed_alike {args : KeyArgs} {d d' e e' : SshDirection} (first : Armed args d e) (second : Armed args d' e') :
    e.ctr = e'.ctr ∧ macKeyOf e = macKeyOf e' := by
  obtain ⟨keyBits, iv, key, cipher, ctr⟩ := first.ctr
  obtain ⟨keyBits', iv', key', cipher', ctr'⟩ := second.ctr
  obtain ⟨macKey, given, mac⟩ := first.macKey
  obtain ⟨macKey', given', mac'⟩ := second.macKey
  have bits : keyBits = keyBits' := Option.some.inj (cipher.name.symm.trans cipher'.name)
  have ivs : iv = iv' := Option.some.inj (cipher.iv.symm.trans cipher'.iv)
  have keys : key = key' := Option.some.inj (cipher.key.symm.trans cipher'.key)
  have macs : macKey = macKey' := Option.some.inj (given.symm.trans given')
  exact ⟨by rw [ctr, ctr', bits, ivs, keys], by rw [mac, mac', macs]⟩

/-- Different inputs with one tag. -/
def Collides (key a b : List UInt8) : Prop := a ≠ b ∧ Library.Sha2.hmacSha256 key a = Library.Sha2.hmacSha256 key b

/-- A packet from a direction that has the same keys: the receiver lets it in exactly if its
tag is also right for the number that the receiver has come to. -/
theorem protect_incoming_iff {out inn : SshDirection} (sealing : out.encrypted = true ∧ 0 < out.macKeyLen.val)
    (opening : inn.encrypted = true ∧ 0 < inn.macKeyLen.val) (ctr : out.ctr = inn.ctr) (key : macKeyOf out = macKeyOf inn)
    {p : List UInt8} (size : p.length = 4 + beNat (p.take 4)) (limits : WithinLimits inn (p.length - 4)) (rest q : List UInt8) :
    Incoming inn (protect out p ++ rest) q ↔
      q = p ∧ Library.Sha2.hmacSha256 (macKeyOf inn) (macInput out.seq p) = Library.Sha2.hmacSha256 (macKeyOf inn) (macInput inn.seq p) := by
  have cipher : (aesCtrCrypt inn.ctr p).1.length = p.length := aesCtrCrypt_length _ _
  have sealed : protect out p ++ rest = (aesCtrCrypt inn.ctr p).1 ++ (packetTag out p ++ rest) := by
    rw [protect, if_pos sealing.1, if_pos sealing.2, ctr, List.append_assoc]
  have mac : macLength inn = Sha256.SHA256_DIGEST_SIZE := by simp [macLength, opening]
  have tag : ((protect out p ++ rest).drop p.length).take Sha256.SHA256_DIGEST_SIZE =
      Library.Sha2.hmacSha256 (macKeyOf inn) (macInput out.seq p) := by
    rw [sealed, ← cipher, List.drop_left, ← packetTag_length out p, List.take_left, ← key]
    rfl
  have clear : clearText inn ((protect out p ++ rest).take p.length) = p := by
    rw [sealed, ← cipher, List.take_left, clearText, if_pos opening.1, aesCtrCrypt_crypt]
  have word : announced inn (protect out p ++ rest) = beNat (p.take 4) := by
    have front := clearText_take inn ((protect out p ++ rest).take p.length) 4
    rw [clear, List.take_take, Nat.min_eq_left (by omega)] at front
    rw [announced, ← front]
  constructor
  · intro incoming
    have length : q.length = p.length := by rw [incoming.length, word, ← size]
    have same : q = p := by
      have text := incoming.clear
      rw [length, clear] at text
      exact text
    have right := incoming.mac (by rw [mac]; decide)
    rw [length, tag, same] at right
    exact ⟨same, right⟩
  · rintro ⟨rfl, right⟩
    refine ⟨?_, clear.symm, size, limits, fun _ => tag.trans right⟩
    rw [sealed, List.length_append, List.length_append, cipher, packetTag_length, mac]
    omega

/-- With memory at hand, a stream that no packet can be taken from is refused. -/
theorem recv_refuses {r : SessState} (valid : Valid r.buf) (memory : Plenty r.heap)
    (nothing : ∀ q, ¬Incoming r.sess.inn r.sess.sock.rx q) : ∃ u, sessionRecv r = .error .fail u := by
  have outcome := sessionRecv_outcome valid
  cases result : sessionRecv r with
  | ok value u =>
    rw [result] at outcome
    cases outcome with
    | delivered incoming _ _ => exact absurd incoming (nothing _)
  | error exit u =>
    rw [result] at outcome
    cases outcome with
    | refused _ _ _ => exact ⟨u, rfl⟩
    | scarce scarce _ _ => exact absurd memory scarce
    | stuck incoming _ => exact absurd incoming (nothing _)

/-- Both ends have counted the same number of packets, as far as 32 bits tell, or the MAC
has the same tag for the packet under two numbers. -/
def InStep (key : List UInt8) (sent received : Nat) (p : List UInt8) : Prop :=
  sent % 2 ^ 32 = received % 2 ^ 32 ∨ Collides key (macInput (UInt32.ofNat sent) p) (macInput (UInt32.ofNat received) p)

theorem inStep_iff {key p : List UInt8} {sent received : Nat} :
    InStep key sent received p ↔ Library.Sha2.hmacSha256 key (macInput (UInt32.ofNat sent) p) =
      Library.Sha2.hmacSha256 key (macInput (UInt32.ofNat received) p) := by
  have number : UInt32.ofNat sent = UInt32.ofNat received ↔ sent % 2 ^ 32 = received % 2 ^ 32 := by
    rw [← UInt32.toNat_inj, UInt32.toNat_ofNat', UInt32.toNat_ofNat']
  constructor
  · rintro (counted | collision)
    · rw [number.mpr counted]
    · exact collision.2
  · intro tags
    by_cases counted : sent % 2 ^ 32 = received % 2 ^ 32
    · exact Or.inl counted
    · exact Or.inr ⟨fun same => counted (number.mp (macInput_inj same).1), tags⟩

/-- Two sessions with any past, on any streams, are given the same keys. Then the first packet
of the one goes to the other as it is. It is let in, with the payload that was sent, exactly
if the two have counted the same number of packets up to then, or else the MAC collides; and
otherwise it is refused. So whoever has put packets into the clear, or has taken some out, is
noticed with the first packet that has a tag. -/
theorem tampering_shows (ours theirs : Socket) (sends receives : List Turn) (args : KeyArgs)
    (hmac : args.macName = some "hmac-sha2-256") (out inn : SshDirection)
    (sealing : install args (live (sessionInit ours) sends).2.out = .ok () out)
    (opening : install args (live (sessionInit theirs) receives).2.inn = .ok () inn) (s t r : SessState)
    (sender : s.sess.out = sessionActivate out) (receiver : r.sess.inn = sessionActivate inn) (plenty : Plenty s.heap)
    (accepting : Accepting s.sess.sock) (payload : List UInt8) (sendable : Sendable payload)
    (rand : (n : Nat) → Option (Vector UInt8 n)) (entropy : ∀ n, (rand n).isSome)
    (sent : sessionSend rand (some payload) payload.length s = .ok () t) (valid : Valid r.buf) (memory : Plenty r.heap)
    (rest : List UInt8) (relayed : r.sess.sock.rx = t.sess.sock.tx.drop s.sess.sock.tx.length ++ rest) :
    (InStep (macKeyOf inn) (sentCount ours sends) (receivedCount theirs receives)
        (framed payload (drawn rand (sessionActivate out) payload)) →
      ∃ u, sessionRecv r = .ok () u ∧ contents u.buf = payload) ∧
    (¬InStep (macKeyOf inn) (sentCount ours sends) (receivedCount theirs receives)
        (framed payload (drawn rand (sessionActivate out) payload)) →
      ∃ u, sessionRecv r = .error .fail u) := by
  have sealed := install_armed hmac sealing
  have opened := install_armed hmac opening
  obtain ⟨ctr, key⟩ := armed_alike sealed opened
  obtain ⟨done, short⟩ := sent_packet plenty accepting sendable entropy sent
  obtain ⟨size, limits, good⟩ := framed_accepted s.sess.out sendable (drawn_length entropy s.sess.out payload)
  rw [sender] at short size limits good
  have stream : r.sess.sock.rx =
      protect (sessionActivate out) (framed payload (drawn rand (sessionActivate out) payload)) ++ rest := by
    rw [relayed, done.tx, List.drop_left, sender]
  have armedOut : (sessionActivate out).encrypted = true ∧ 0 < (sessionActivate out).macKeyLen.val :=
    ⟨rfl, sealed.macKeyLen ▸ sealed.positive⟩
  have armedInn : (sessionActivate inn).encrypted = true ∧ 0 < (sessionActivate inn).macKeyLen.val :=
    ⟨rfl, opened.macKeyLen ▸ opened.positive⟩
  have arrives := protect_incoming_iff armedOut armedInn ctr key size limits rest
  rw [← stream, ← receiver] at arrives
  have numbers : (sessionActivate out).seq = UInt32.ofNat (sentCount ours sends) ∧
      r.sess.inn.seq = UInt32.ofNat (receivedCount theirs receives) := by
    rw [receiver]
    exact ⟨sealed.seq.trans (seq_of_life ours sends).1, opened.seq.trans (seq_of_life theirs receives).2⟩
  have material : macKeyOf r.sess.inn = macKeyOf inn := by
    rw [receiver]
    rfl
  rw [numbers.1, numbers.2, material] at arrives
  rw [inStep_iff]
  constructor
  · intro tags
    obtain ⟨u, delivered, received⟩ := recv_delivers valid memory ((arrives _).mpr ⟨rfl, tags⟩) good
    exact ⟨u, delivered, received.contents.trans (framed_payload short)⟩
  · intro differ
    exact recv_refuses valid memory fun q incoming => differ ((arrives q).mp incoming).2

/-- One packet has been put before the receiver. -/
theorem tampering_shows_injected : ∃ (out inn : SshDirection) (r : SessState),
    (InStep (macKeyOf inn) (sentCount idle []) (receivedCount idle (injected.take 1))
        (framed [42] (drawn (fun n => some (Vector.replicate n 0)) (sessionActivate out) [42])) →
      ∃ u, sessionRecv r = .ok () u ∧ contents u.buf = [42]) ∧
    (¬InStep (macKeyOf inn) (sentCount idle []) (receivedCount idle (injected.take 1))
        (framed [42] (drawn (fun n => some (Vector.replicate n 0)) (sessionActivate out) [42])) →
      ∃ u, sessionRecv r = .error .fail u) := by
  obtain ⟨out, sealing, -⟩ := install_zeroKeys true (live (sessionInit idle) []).2.out
  obtain ⟨inn, opening, -⟩ := install_zeroKeys true (live (sessionInit idle) (injected.take 1)).2.inn
  let s : SessState := { freshState [] with sess := { (freshState []).sess with out := sessionActivate out } }
  have plenty : Plenty s.heap := (by decide : Plenty (freshState []).heap)
  have accepting : Accepting s.sess.sock := (by decide : Accepting (freshState []).sess.sock)
  have entropy (n : Nat) : (some (Vector.replicate n (0 : UInt8))).isSome := rfl
  obtain ⟨t, sent, -⟩ := @ProgramCalls.sessionSend_drawn s _ [42] plenty accepting (by decide) entropy
  let r : SessState := { freshState (t.sess.sock.tx.drop s.sess.sock.tx.length) with
    sess := { (freshState (t.sess.sock.tx.drop s.sess.sock.tx.length)).sess with inn := sessionActivate inn } }
  exact ⟨out, inn, r, tampering_shows idle idle [] (injected.take 1) (zeroKeys true) rfl out inn sealing opening s t r rfl rfl plenty
    accepting [42] (by decide) _ entropy sent (by decide : Valid (freshState []).buf) (by decide : Plenty (freshState []).heap) []
    (List.append_nil _).symm⟩

end Coalesce.ClearPhase
