import Coalesce.SessionExchange

/-! Runs of two sessions that send, receive and switch keys in any order. -/

namespace Coalesce.SessionNetwork
open Library.CallResult Library.Lockstep Buffer BufferBytes BufferReaders Net Aes Session SessionReceive
open SessionDeliver SessionSend SessionExchange

inductive SshRole where
  | client
  | server
  deriving DecidableEq, Repr

def SshRole.peer : SshRole → SshRole
  | .client => .server
  | .server => .client

/-- Both ends with what is on its way to them. The rest keeps account of the run: the events
of each direction under the name of its sender, how far either end has come in them, the
payloads of the calls that succeeded, and whether a call has failed. -/
structure Network where
  party : SshRole → SessState
  log : SshRole → List Event
  outPos : SshRole → Nat
  inPos : SshRole → Nat
  sent : SshRole → List (List UInt8)
  got : SshRole → List (List UInt8)
  failed : Bool

inductive Action where
  | send (who : SshRole) (payload : List UInt8) (rand : (n : Nat) → Option (Vector UInt8 n))
  | recv (who : SshRole)
  | switchOut (who : SshRole) (args : KeyArgs)
  | switchIn (who : SshRole) (args : KeyArgs)

/-- A packet may be sent once the key switches that the peer has made are made here too, and
received once those before it are made. A key switch is the next event of its direction. -/
def Enabled (n : Network) : Action → Prop
  | .send who payload rand => Sendable payload ∧ (∀ k, (rand k).isSome) ∧ (n.log who).length = n.outPos who
  | .recv who => ∃ payload padding, (n.log who.peer)[n.inPos who]? = some (.packet payload padding)
  | .switchOut who args => (n.log who)[n.outPos who]? = none ∨ (n.log who)[n.outPos who]? = some (.switch args)
  | .switchIn who args =>
      (n.log who.peer)[n.inPos who]? = none ∨ (n.log who.peer)[n.inPos who]? = some (.switch args)

/-- Bytes that a sender has written reach the socket of its peer. -/
def carry (party : SshRole → SessState) (who : SshRole) (t : SessState) : SshRole → SessState := fun role =>
  if role = who then { t with sess := { t.sess with sock := { t.sess.sock with tx := [] } } }
  else { party role with sess := { (party role).sess with
    sock := { (party role).sess.sock with rx := (party role).sess.sock.rx ++ t.sess.sock.tx } } }

def update {α : Type} (f : SshRole → α) (who : SshRole) (value : α) : SshRole → α :=
  fun role => if role = who then value else f role

/-- Padding that a send draws. -/
def drawn (rand : (n : Nat) → Option (Vector UInt8 n)) (d : SshDirection) (payload : List UInt8) : List UInt8 :=
  ((rand (paddingSize (blockOf d) payload.length)).map Vector.toList).getD []

theorem drawn_length {rand : (n : Nat) → Option (Vector UInt8 n)} (entropy : ∀ n, (rand n).isSome) (d : SshDirection)
    (payload : List UInt8) : (drawn rand d payload).length = paddingSize (blockOf d) payload.length := by
  obtain ⟨padding, gives⟩ := Option.isSome_iff_exists.mp (entropy (paddingSize (blockOf d) payload.length))
  simp [drawn, gives]

/-- The event is entered unless the other end has entered it already. -/
def enter (events : List Event) (position : Nat) (event : Event) : List Event :=
  if position < events.length then events else events ++ [event]

def perform (n : Network) : Action → Network
  | .send who payload rand =>
    match sessionSend rand (some payload) payload.length (n.party who) with
    | .ok _ t => { n with
        party := carry n.party who t
        log := update n.log who (n.log who ++ [.packet payload (drawn rand (n.party who).sess.out payload)])
        outPos := update n.outPos who (n.outPos who + 1)
        sent := update n.sent who (n.sent who ++ [payload]) }
    | .error _ t => { n with party := carry n.party who t, failed := true }
  | .recv who =>
    match sessionRecv (n.party who) with
    | .ok _ t => { n with
        party := update n.party who t
        inPos := update n.inPos who (n.inPos who + 1)
        got := update n.got who (n.got who ++ [contents t.buf]) }
    | .error _ t => { n with party := update n.party who t, failed := true }
  | .switchOut who args => { n with
      party := update n.party who { n.party who with sess := { (n.party who).sess with
        out := switchKeys (n.party who).sess.out args } }
      log := update n.log who (enter (n.log who) (n.outPos who) (.switch args))
      outPos := update n.outPos who (n.outPos who + 1) }
  | .switchIn who args => { n with
      party := update n.party who { n.party who with sess := { (n.party who).sess with
        inn := switchKeys (n.party who).sess.inn args } }
      log := update n.log who.peer (enter (n.log who.peer) (n.inPos who) (.switch args))
      inPos := update n.inPos who (n.inPos who + 1) }

inductive Reachable (start : Network) : Network → Prop
  | start : Reachable start start
  | step {n : Network} {action : Action} (reached : Reachable start n) (enabled : Enabled n action) :
      Reachable start (perform n action)

/-- Paired directions are equal, nothing is on its way and nothing has happened. Memory and
sockets give what is asked of them, in pieces of any size. -/
structure Paired (n : Network) : Prop where
  equal : ∀ role, (n.party role).sess.out = (n.party role.peer).sess.inn
  rx : ∀ role, (n.party role).sess.sock.rx = []
  tx : ∀ role, (n.party role).sess.sock.tx = []
  log : ∀ role, n.log role = []
  outPos : ∀ role, n.outPos role = 0
  inPos : ∀ role, n.inPos role = 0
  sent : ∀ role, n.sent role = []
  got : ∀ role, n.got role = []
  works : n.failed = false
  valid : ∀ role, Valid (n.party role).buf
  plenty : ∀ role, Plenty (n.party role).heap
  accepting : ∀ role, Accepting (n.party role).sess.sock

/-- What every state of a run keeps. -/
structure Sound (start n : Network) : Prop where
  works : n.failed = false
  valid : ∀ role, Valid (n.party role).buf
  plenty : ∀ role, Plenty (n.party role).heap
  accepting : ∀ role, Accepting (n.party role).sess.sock
  tx : ∀ role, (n.party role).sess.sock.tx = []
  channel : ∀ role, Channel (start.party role).sess.out (n.log role) (n.outPos role) (n.inPos role.peer)
    (n.party role).sess.out (n.party role.peer).sess.inn (n.party role.peer).sess.sock.rx (n.sent role) (n.got role.peer)

@[simp] theorem peer_peer (role : SshRole) : role.peer.peer = role := by cases role <;> rfl

theorem peer_ne (role : SshRole) : role.peer ≠ role := by cases role <;> decide

theorem role_cases (who role : SshRole) : role = who ∨ role = who.peer := by cases who <;> cases role <;> decide

section
variable {α : Type} (f : SshRole → α) (who : SshRole) (value : α)

@[simp] theorem update_self : update f who value who = value := if_pos rfl

@[simp] theorem update_peer : update f who value who.peer = f who.peer := if_neg (peer_ne who)

@[simp] theorem update_of_peer : update f who.peer value who = f who := if_neg fun same => peer_ne who same.symm

end

@[simp] theorem carry_self (party : SshRole → SessState) (who : SshRole) (t : SessState) :
    carry party who t who = { t with sess := { t.sess with sock := { t.sess.sock with tx := [] } } } := if_pos rfl

@[simp] theorem carry_peer (party : SshRole → SessState) (who : SshRole) (t : SessState) :
    carry party who t who.peer = { party who.peer with sess := { (party who.peer).sess with
      sock := { (party who.peer).sess.sock with rx := (party who.peer).sess.sock.rx ++ t.sess.sock.tx } } } :=
  if_neg (peer_ne who)

/-- Something holds of both roles. -/
private theorem both {motive : SshRole → Prop} (who : SshRole) (own : motive who) (other : motive who.peer) (role : SshRole) :
    motive role := by
  rcases role_cases who role with rfl | rfl
  · exact own
  · exact other

theorem sound_start {n : Network} (paired : Paired n) : Sound n n := by
  refine ⟨paired.works, paired.valid, paired.plenty, paired.accepting, paired.tx, fun role => ?_⟩
  rw [paired.log, paired.outPos, paired.inPos, paired.rx, paired.sent, paired.got, ← paired.equal]
  exact channel_start _

theorem Sound.recv {start n : Network} (sound : Sound start n) {who : SshRole} (enabled : Enabled n (.recv who)) :
    Sound start (perform n (.recv who)) := by
  obtain ⟨payload, padding, next⟩ := enabled
  have channel := sound.channel who.peer
  rw [peer_peer] at channel
  obtain ⟨incoming, good, same⟩ := channel.front next
  obtain ⟨t, returned, received⟩ := recv_delivers (sound.valid who) (sound.plenty who) incoming good
  obtain ⟨cuts, sock⟩ := received.sock
  obtain ⟨rest, front, moved⟩ := channel.take next
  have rx : t.sess.sock.rx = rest := by
    rw [sock]
    simp only [Socket.after]
    rw [front, emission, ← protect_length, List.drop_left]
  simp only [perform, returned]
  refine ⟨sound.works, both who ?_ ?_, both who ?_ ?_, both who ?_ ?_, both who ?_ ?_, both who ?_ ?_⟩ <;>
    simp only [peer_peer, update_self, update_peer]
  · exact received.valid
  · exact sound.valid _
  · exact received.plenty (sound.plenty _)
  · exact sound.plenty _
  · rw [sock]
    exact sound.accepting _
  · exact sound.accepting _
  · rw [sock]
    exact sound.tx _
  · exact sound.tx _
  · rw [received.out]
    exact sound.channel _
  · rw [rx, received.inn, received.contents, same]
    exact moved

/-- A key switch touches one direction at one end. -/
private theorem Sound.local {start n n' : Network} (sound : Sound start n) (works : n'.failed = n.failed)
    (buf : ∀ role, (n'.party role).buf = (n.party role).buf) (heap : ∀ role, (n'.party role).heap = (n.party role).heap)
    (sock : ∀ role, (n'.party role).sess.sock = (n.party role).sess.sock)
    (channel : ∀ role, Channel (start.party role).sess.out (n'.log role) (n'.outPos role) (n'.inPos role.peer)
      (n'.party role).sess.out (n'.party role.peer).sess.inn (n.party role.peer).sess.sock.rx (n'.sent role) (n'.got role.peer)) :
    Sound start n' := by
  refine ⟨by rw [works, sound.works], fun role => ?_, fun role => ?_, fun role => ?_, fun role => ?_, fun role => ?_⟩
  · rw [buf]
    exact sound.valid role
  · rw [heap]
    exact sound.plenty role
  · rw [sock]
    exact sound.accepting role
  · rw [sock]
    exact sound.tx role
  · rw [sock]
    exact channel role

theorem Sound.switchOut {start n : Network} (sound : Sound start n) {who : SshRole} {args : KeyArgs}
    (enabled : Enabled n (.switchOut who args)) : Sound start (perform n (.switchOut who args)) := by
  have channel := sound.channel who
  have length := channel.linked.length
  refine sound.local rfl (both who ?_ ?_) (both who ?_ ?_) (both who ?_ ?_) (both who ?_ ?_) <;>
    simp only [perform, peer_peer, update_self, update_peer]
  · unfold enter
    rcases enabled with last | next
    · have current : (n.log who).length = n.outPos who := by
        have := List.getElem?_eq_none_iff.mp last
        omega
      rw [if_neg (by omega)]
      have sent := channel.send (.switch args) current (by rintro _ _ ⟨⟩)
      simpa [emission, payloads, Event.payload, afterEvent, List.filterMap_cons] using sent
    · rw [if_pos (List.getElem?_eq_some_iff.mp next).1]
      exact channel.follow next
  · have other := sound.channel who.peer
    rw [peer_peer] at other
    exact other

theorem Sound.switchIn {start n : Network} (sound : Sound start n) {who : SshRole} {args : KeyArgs}
    (enabled : Enabled n (.switchIn who args)) : Sound start (perform n (.switchIn who args)) := by
  have channel := sound.channel who.peer
  rw [peer_peer] at channel
  have length := channel.linked.length
  refine sound.local rfl (both who ?_ ?_) (both who ?_ ?_) (both who ?_ ?_) (both who ?_ ?_) <;>
    simp only [perform, update_self, update_peer, update_of_peer, peer_peer]
  · exact sound.channel who
  · unfold enter
    rcases enabled with last | next
    · have current : (n.log who.peer).length = n.inPos who := by
        have := List.getElem?_eq_none_iff.mp last
        omega
      rw [if_neg (by omega)]
      exact channel.lead current
    · rw [if_pos (List.getElem?_eq_some_iff.mp next).1]
      obtain ⟨rest, front, moved⟩ := channel.take next
      rw [front]
      simpa [emission, payloads, Event.payload, afterEvent, List.filterMap_cons] using moved

theorem Sound.send {start n : Network} (sound : Sound start n) {who : SshRole} {payload : List UInt8}
    {rand : (n : Nat) → Option (Vector UInt8 n)} (enabled : Enabled n (.send who payload rand)) :
    Sound start (perform n (.send who payload rand)) := by
  obtain ⟨sendable, entropy, current⟩ := enabled
  obtain ⟨padding, gives⟩ := Option.isSome_iff_exists.mp (entropy (paddingSize (blockOf (n.party who).sess.out) payload.length))
  obtain ⟨t, returned, same⟩ := sessionSend_ok (sound.plenty who) (sound.accepting who) sendable gives
  have pad : drawn rand (n.party who).sess.out payload = padding.toList := by simp [drawn, gives]
  have sent := (sound.channel who).send (.packet payload padding.toList) current (by
    rintro _ _ ⟨⟩
    exact ⟨sendable, Vector.length_toList⟩)
  have wire : t.sess.sock.tx = protect (n.party who).sess.out (framed payload padding.toList) := by
    rw [same.tx, sound.tx, List.nil_append]
  simp only [perform, returned, pad]
  refine ⟨sound.works, both who ?_ ?_, both who ?_ ?_, both who ?_ ?_, both who ?_ ?_, both who ?_ ?_⟩ <;>
    simp only [peer_peer, update_self, update_peer, carry_self, carry_peer]
  · rw [same.buf]
    exact sound.valid _
  · exact sound.valid _
  · exact same.plenty (sound.plenty _)
  · exact sound.plenty _
  · exact same.accepting
  · exact sound.accepting _
  · exact sound.tx _
  · rw [same.out, wire]
    exact sent
  · have other := sound.channel who.peer
    rw [peer_peer] at other
    rw [same.inn, same.rx]
    exact other

/-- One step keeps what every state of a run keeps. -/
theorem Sound.perform {start n : Network} (sound : Sound start n) {action : Action} (enabled : Enabled n action) :
    Sound start (perform n action) := by
  cases action with
  | send who payload rand => exact sound.send enabled
  | recv who => exact sound.recv enabled
  | switchOut who args => exact sound.switchOut enabled
  | switchIn who args => exact sound.switchIn enabled

theorem sound_reachable {start n : Network} (paired : Paired start) (reached : Reachable start n) : Sound start n := by
  induction reached with
  | start => exact sound_start paired
  | step _ enabled ih => exact ih.perform enabled

/-! What a run shows. -/

/-- No call has failed; the payloads received are the first of those sent; the sequence
numbers differ by the packets on their way; and a direction whose packets are all received
has an empty wire and, with the same key switches made, equal ends. -/
structure InOrder (n : Network) : Prop where
  works : n.failed = false
  ordered : ∀ role, n.got role.peer <+: n.sent role
  inFlight : ∀ role, (n.party role).sess.out.seq - (n.party role.peer).sess.inn.seq =
    UInt32.ofNat ((n.sent role).length - (n.got role.peer).length)
  drained : ∀ role, (n.got role.peer).length = (n.sent role).length →
    (n.party role.peer).sess.sock.rx = [] ∧ (n.party role).sess.sock.tx = []
  equal : ∀ role, (n.got role.peer).length = (n.sent role).length → n.outPos role = n.inPos role.peer →
    (n.party role).sess.out = (n.party role.peer).sess.inn

theorem delivery_in_order (start n : Network) (paired : Paired start) (reached : Reachable start n) : InOrder n := by
  have sound := sound_reachable paired reached
  exact
    { works := sound.works
      ordered := fun role => (sound.channel role).got_initial
      inFlight := fun role => (sound.channel role).seq
      drained := fun role all => ⟨(sound.channel role).idle all, sound.tx role⟩
      equal := fun role _ level => (sound.channel role).linked.equal level }

/-- Two fresh sessions. -/
def freshNetwork : Network :=
  { party := fun _ => freshState [], log := fun _ => [], outPos := fun _ => 0, inPos := fun _ => 0,
    sent := fun _ => [], got := fun _ => [], failed := false }

theorem freshNetwork_paired : Paired freshNetwork :=
  { equal := fun _ => rfl, rx := fun _ => rfl, tx := fun _ => rfl, log := fun _ => rfl, outPos := fun _ => rfl
    inPos := fun _ => rfl, sent := fun _ => rfl, got := fun _ => rfl, works := rfl
    valid := fun _ => (by decide : Valid (freshState []).buf)
    plenty := fun _ => (by decide : Plenty (freshState []).heap)
    accepting := fun _ => (by decide : Accepting (freshState []).sess.sock) }

def noiseless (n : Nat) : Option (Vector UInt8 n) := some (Vector.replicate n 0)

/-! Turns in which nothing is left on its way. -/

/-- Every packet has been received, and every key switch has been made at both ends. -/
def Level (n : Network) : Prop := ∀ role, n.outPos role = (n.log role).length ∧ n.inPos role.peer = (n.log role).length

/-- One packet, sent and received. -/
def relay (n : Network) (who : SshRole) (payload : List UInt8) : Network :=
  perform (perform n (.send who payload noiseless)) (.recv who.peer)

/-- Keys for one direction, put in at both ends. -/
def rekey (n : Network) (who : SshRole) (args : KeyArgs) : Network :=
  perform (perform n (.switchOut who args)) (.switchIn who.peer args)

section
variable {start n : Network} {who : SshRole} {payload : List UInt8}

theorem Sound.perform_send (sound : Sound start n) {rand : (n : Nat) → Option (Vector UInt8 n)}
    (enabled : Enabled n (.send who payload rand)) :
    let m := SessionNetwork.perform n (.send who payload rand)
    m.log = update n.log who (n.log who ++ [.packet payload (drawn rand (n.party who).sess.out payload)]) ∧
      m.outPos = update n.outPos who (n.outPos who + 1) ∧ m.inPos = n.inPos ∧
      m.sent = update n.sent who (n.sent who ++ [payload]) ∧ m.got = n.got := by
  obtain ⟨sendable, entropy, -⟩ := enabled
  obtain ⟨padding, gives⟩ := Option.isSome_iff_exists.mp (entropy (paddingSize (blockOf (n.party who).sess.out) payload.length))
  obtain ⟨t, returned, -⟩ := sessionSend_ok (sound.plenty who) (sound.accepting who) sendable gives
  simp only [SessionNetwork.perform, returned, and_self]

theorem Sound.perform_recv (sound : Sound start n) {padding : List UInt8}
    (next : (n.log who.peer)[n.inPos who]? = some (.packet payload padding)) :
    let m := SessionNetwork.perform n (.recv who)
    m.log = n.log ∧ m.outPos = n.outPos ∧ m.inPos = update n.inPos who (n.inPos who + 1) ∧ m.sent = n.sent ∧
      m.got = update n.got who (n.got who ++ [payload]) := by
  have channel := sound.channel who.peer
  rw [peer_peer] at channel
  obtain ⟨incoming, good, same⟩ := channel.front next
  obtain ⟨t, returned, received⟩ := recv_delivers (sound.valid who) (sound.plenty who) incoming good
  simp only [SessionNetwork.perform, returned, received.contents, same, and_self]

/-- What is sent from a level arrives, whatever keys are in use. -/
theorem Level.relay (level : Level n) (paired : Paired start) (reached : Reachable start n) (who : SshRole)
    (sendable : Sendable payload) :
    Reachable start (relay n who payload) ∧ Level (relay n who payload) ∧
      (relay n who payload).sent = update n.sent who (n.sent who ++ [payload]) ∧
      (relay n who payload).got = update n.got who.peer (n.got who.peer ++ [payload]) := by
  have enabled : Enabled n (.send who payload noiseless) := ⟨sendable, fun _ => rfl, (level who).1.symm⟩
  obtain ⟨log, outPos, inPos, sends, got⟩ := (sound_reachable paired reached).perform_send enabled
  have sent : Reachable start (perform n (.send who payload noiseless)) := .step reached enabled
  have next : ((perform n (.send who payload noiseless)).log who.peer.peer)[
      (perform n (.send who payload noiseless)).inPos who.peer]? =
        some (.packet payload (drawn noiseless (n.party who).sess.out payload)) := by
    rw [log, inPos, peer_peer, update_self, (level who).2]
    exact List.getElem?_concat_length
  obtain ⟨log', outPos', inPos', sends', got'⟩ := (sound_reachable paired sent).perform_recv next
  refine ⟨.step sent ⟨payload, _, next⟩, both who ⟨?_, ?_⟩ ⟨?_, ?_⟩, sends'.trans sends, ?_⟩
  · rw [SessionNetwork.relay, outPos', log', outPos, log, update_self, update_self, List.length_append, (level who).1]
    rfl
  · rw [SessionNetwork.relay, inPos', log', inPos, log, update_self, update_self, List.length_append, (level who).2]
    rfl
  · rw [SessionNetwork.relay, outPos', log', outPos, log, update_peer, update_peer]
    exact (level who.peer).1
  · rw [SessionNetwork.relay, inPos', log', inPos, log, update_peer, update_peer, peer_peer]
    have other := (level who.peer).2
    rwa [peer_peer] at other
  · rw [SessionNetwork.relay, got', got]

theorem Level.rekey (level : Level n) (reached : Reachable start n) (who : SshRole) (args : KeyArgs) :
    Reachable start (rekey n who args) ∧ Level (rekey n who args) ∧ (rekey n who args).got = n.got := by
  have log : (perform n (.switchOut who args)).log = update n.log who (n.log who ++ [.switch args]) := by
    simp only [perform, enter, (level who).1, Nat.lt_irrefl, if_false]
  have first : Enabled n (.switchOut who args) := by
    refine Or.inl ?_
    rw [(level who).1]
    exact List.getElem?_eq_none (Nat.le_refl _)
  have next : ((perform n (.switchOut who args)).log who.peer.peer)[(perform n (.switchOut who args)).inPos who.peer]? =
      some (.switch args) := by
    change ((perform n (.switchOut who args)).log who.peer.peer)[n.inPos who.peer]? = _
    rw [log, peer_peer, update_self, (level who).2]
    exact List.getElem?_concat_length
  have log' : (SessionNetwork.rekey n who args).log = update n.log who (n.log who ++ [.switch args]) := by
    have entered : n.inPos who.peer < (n.log who ++ [Event.switch args]).length := by
      rw [List.length_append, (level who).2]
      exact Nat.lt_succ_self _
    change update (perform n (.switchOut who args)).log who.peer.peer
      (enter ((perform n (.switchOut who args)).log who.peer.peer) (n.inPos who.peer) (.switch args)) = _
    rw [log, peer_peer, update_self, enter, if_pos entered]
    funext role
    unfold update
    split <;> rfl
  refine ⟨.step (.step reached first) (Or.inr next), both who ⟨?_, ?_⟩ ⟨?_, ?_⟩, rfl⟩
  · rw [log', update_self, List.length_append, ← (level who).1]
    exact update_self _ _ _
  · rw [log', update_self, List.length_append, ← (level who).2]
    exact update_self _ _ _
  · rw [log', update_peer]
    exact (update_peer _ _ _).trans (level who.peer).1
  · rw [log', update_peer, peer_peer]
    have other := (level who.peer).2
    rw [peer_peer] at other
    exact (update_of_peer _ _ _).trans other

end

/-- Keys for aes256-ctr with a MAC, all of one byte. -/
def keysOf (byte : UInt8) : KeyArgs :=
  { cipherName := some "aes256-ctr", iv := some (List.replicate 16 byte), ivLen := 16
    key := some (List.replicate 32 byte), keyLen := 32
    macName := some "hmac-sha2-256", macKey := some (List.replicate 32 byte), macKeyLen := 32 }

/-- A packet from each end, in clear. -/
def greeted : Network := relay (relay freshNetwork .client [20, 1]) .server [20, 2]

/-- New keys for each direction, at both of its ends. -/
def rekeyed : Network := rekey (rekey greeted .client (keysOf 1)) .server (keysOf 2)

/-- A packet from each end under the new keys. -/
def conversation : Network := relay (relay rekeyed .client [98, 1]) .server [98, 2, 3]

theorem delivery_in_order_conversation :
    (∀ role, (rekeyed.party role).sess.out.encrypted = true ∧ (rekeyed.party role).sess.out.macKeyLen.val = 32) ∧
      conversation.got .server = [[20, 1], [98, 1]] ∧ conversation.got .client = [[20, 2], [98, 2, 3]] ∧
      InOrder conversation := by
  have level : Level freshNetwork := fun _ => ⟨rfl, rfl⟩
  obtain ⟨reached, level, -, first⟩ := level.relay freshNetwork_paired .start .client (by decide : Sendable [20, 1])
  obtain ⟨reached, level, -, second⟩ := level.relay freshNetwork_paired reached .server (by decide : Sendable [20, 2])
  obtain ⟨reached, level, third⟩ := level.rekey reached .client (keysOf 1)
  obtain ⟨reached, level, fourth⟩ := level.rekey reached .server (keysOf 2)
  obtain ⟨reached, level, -, fifth⟩ := level.relay freshNetwork_paired reached .client (by decide : Sendable [98, 1])
  obtain ⟨reached, level, -, sixth⟩ := level.relay freshNetwork_paired reached .server (by decide : Sendable [98, 2, 3])
  have got : conversation.got = _ := sixth
  rw [fifth, fourth, third, second, first] at got
  refine ⟨fun role => by cases role <;> exact ⟨rfl, rfl⟩, ?_, ?_, delivery_in_order freshNetwork _ freshNetwork_paired reached⟩
  · rw [got]
    rfl
  · rw [got]
    rfl

end Coalesce.SessionNetwork
