import Coalesce.ProgramCalls
import Coalesce.KeyInstall

/-! Whole lives of one session: any calls in any order, each on a stream, an allocator and a
buffer of its own, whether it returns 0 or -1. What the session then holds can be told from
the calls and their return codes. -/

namespace Coalesce.SessionRun
open Library.CallResult Buffer Net Aes Session SessionReceive SessionDeliver SessionFrame
open SessionExchange (KeyArgs sessionSetKeys_keeps)
open Rekey (install)
open KeyInstall
open Ident IdentExchange IdentScan IdentGrammar ProgramCalls

/-- `s->out` or `s->in`. -/
inductive Side where
  | out
  | inn
  deriving DecidableEq, Repr

def Side.direction (side : Side) (s : SshSession) : SshDirection :=
  match side with
  | .out => s.out
  | .inn => s.inn

def Side.replace (side : Side) (s : SshSession) (d : SshDirection) : SshSession :=
  match side with
  | .out => { s with out := d }
  | .inn => { s with inn := d }

/-- The calls of session.h on a session that is set up. -/
inductive Request where
  | exchangeIdent (role : SshRole)
  | send (rand : (n : Nat) → Option (Vector UInt8 n)) (payload : Option (List UInt8)) (len : Nat)
  | recv
  | setKeys (side : Side) (args : KeyArgs)
  | activate (side : Side)

/-- A call and what it finds around the session. -/
structure Turn where
  sock : Socket
  heap : Heap
  buf : SshBuf
  request : Request

/-- The return code, 0 or not, and the state that is left. A receive that never returns leaves
the state in which it is stuck. -/
def ended {σ α : Type} (result : EStateM.Result Exit σ α) : Bool × σ :=
  match result with
  | .ok _ t => (true, t)
  | .error _ t => (false, t)

def answer (s : SessState) : Request → Bool × SshSession
  | .exchangeIdent role => ended (sessionExchangeIdent role s.sess)
  | .send rand payload len => ((ended (sessionSend rand payload len s)).1, (ended (sessionSend rand payload len s)).2.sess)
  | .recv => ((ended (sessionRecv s)).1, (ended (sessionRecv s)).2.sess)
  | .setKeys side args =>
      ((ended (install args (side.direction s.sess))).1,
        side.replace s.sess (ended (install args (side.direction s.sess))).2)
  | .activate side => (true, side.replace s.sess (sessionActivate (side.direction s.sess)))

/-- The calls so far, with their return codes. -/
abbrev History := List (Request × Bool)

def takeTurn (life : History × SshSession) (turn : Turn) : History × SshSession :=
  let answered := answer ⟨turn.heap, { life.2 with sock := turn.sock }, turn.buf⟩ turn.request
  (life.1 ++ [(turn.request, answered.1)], answered.2)

def live (s : SshSession) (turns : List Turn) : History × SshSession := turns.foldl takeTurn ([], s)

/-! What the history tells. -/

def sentOne : Request × Bool → Bool
  | (.send _ _ _, ok) => ok
  | _ => false

def receivedOne : Request × Bool → Bool
  | (.recv, ok) => ok
  | _ => false

def activated (side : Side) : Request × Bool → Bool
  | (.activate which, _) => which == side
  | _ => false

/-- The arguments, when this call installed keys for the side. -/
def installed (side : Side) : Request × Bool → Option KeyArgs
  | (.setKeys which args, true) => if which = side then some args else none
  | _ => none

/-- The MAC of a direction is that of the last keys it was given, if there were any. -/
def MacOf (d : SshDirection) (last : Option KeyArgs) : Prop :=
  match last with
  | none => d.macKeyLen.val = 0
  | some args =>
    if args.macName = some "hmac-sha2-256" then
      ∃ key, args.macKey = some key ∧ d.macKeyLen.val = args.macKeyLen ∧ 0 < args.macKeyLen ∧
        ∀ i < args.macKeyLen, d.macKey.toList.getD i 0 = key.getD i 0
    else args.macName = some "none" ∧ d.macKeyLen.val = 0

/-- An identification slot holds a text that is closed by a NUL, printable and within the limit. -/
def Readable (slot : SshIdent) : Prop :=
  ∃ text, Holds slot text ∧ text.length ≤ 253 ∧ ∀ c ∈ text, CommentChar c

structure Kept (history : History) (s : SshSession) : Prop where
  sent : s.out.seq = UInt32.ofNat (history.countP sentOne)
  received : s.inn.seq = UInt32.ofNat (history.countP receivedOne)
  encrypted : ∀ side : Side, (side.direction s).encrypted = history.any (activated side)
  mac : ∀ side : Side, MacOf (side.direction s) (history.filterMap (installed side)).getLast?
  client : Readable s.vC
  server : Readable s.vS

theorem count_append (history : History) (entry : Request × Bool) (event : Request × Bool → Bool) :
    UInt32.ofNat ((history ++ [entry]).countP event) = UInt32.ofNat (history.countP event) + if event entry then 1 else 0 := by
  rw [List.countP_append, UInt32.ofNat_add]
  by_cases happened : event entry
  · rw [if_pos happened, List.countP_singleton, if_pos happened]
    rfl
  · rw [if_neg happened, List.countP_singleton, if_neg happened]
    rfl

/-- One more entry. -/
theorem Kept.append {history : History} {s t : SshSession} {entry : Request × Bool} (kept : Kept history s)
    (sent : t.out.seq = s.out.seq + if sentOne entry then 1 else 0)
    (received : t.inn.seq = s.inn.seq + if receivedOne entry then 1 else 0)
    (encrypted : ∀ side : Side, (side.direction t).encrypted = ((side.direction s).encrypted || activated side entry))
    (mac : ∀ side : Side, MacOf (side.direction t) ((installed side entry).or (history.filterMap (installed side)).getLast?))
    (client : Readable t.vC) (server : Readable t.vS) : Kept (history ++ [entry]) t where
  sent := by rw [sent, kept.sent, count_append]
  received := by rw [received, kept.received, count_append]
  encrypted side := by
    rw [encrypted, kept.encrypted, List.any_append]
    simp
  mac side := by
    have last := mac side
    rw [List.filterMap_append, List.getLast?_append]
    cases own : installed side entry with
    | none =>
      rw [own] at last
      simpa [own] using last
    | some args =>
      rw [own] at last
      simpa [own] using last
  client := client
  server := server

/-! Packets touch the sequence number of their direction, and nothing else that is kept. -/

def idle : Socket := { rx := [], rxCuts := [], rxReset := false, tx := [], txPlan := [] }

/-- A session without its socket and its cipher states. -/
def ledger (s : SshSession) : SshSession :=
  { s with sock := idle, out := { s.out with ctr := aesCtrZero }, inn := { s.inn with ctr := aesCtrZero } }

def countOut (s : SshSession) : SshSession := { s with out := { s.out with seq := s.out.seq + 1 } }

def countIn (s : SshSession) : SshSession := { s with inn := { s.inn with seq := s.inn.seq + 1 } }

def books (s : SessState) : SshSession := ledger s.sess

theorem keeps_onBuf {α : Type} (call : BufCall α) : Keeps books (onBuf call) := by
  intro s
  cases result : call ⟨s.heap, s.buf⟩ with
  | ok value t =>
    rw [onBuf_of_ok result]
    rfl
  | error exit t =>
    rw [onBuf_of_error result]
    rfl

theorem keeps_writeFull (bytes : List UInt8) : Keeps books (writeFull bytes) := by
  intro s
  rw [writeFull, bind_of_ok (get_apply s), bind_of_ok (set_apply _ _)]
  cases decide ((netWriteFull s.sess.sock bytes).1 ≠ bytes.length) <;> rfl

theorem sendPacket_moves (p : List UInt8) : Moves books countOut (sendPacket p) := by
  have counted : Moves books countOut (modify fun t : SessState =>
      { t with sess := { t.sess with out := { t.sess.out with seq := t.sess.out.seq + 1 } } }) := moves_modify fun _ => rfl
  refine (keeps_get books).moves fun s => ?_
  simp only
  split
  · refine Keeps.moves (fun t => rfl) fun cipher => (keeps_writeFull _).moves fun _ => counted
  · exact (keeps_writeFull p).moves fun _ => counted

theorem sessionSend_moves (rand : (n : Nat) → Option (Vector UInt8 n)) (payload : Option (List UInt8)) (len : Nat) :
    Moves books countOut (sessionSend rand payload len) := by
  refine (keeps_failIf books _).moves fun _ => (keeps_get books).moves fun s => (keeps_failIf books _).moves fun _ =>
    (keeps_onBuf _).moves fun _ => ?_
  split
  · exact moves_throw books countOut .fail
  · exact sendPacket_moves _

theorem keeps_recvPacket : Keeps books recvPacket := by
  intro s
  rcases recvPacket_cases s with ⟨p, heap, cuts, -, -, returned⟩ | ⟨-, heap, count, cuts, ctr, failed⟩
  · rw [returned]
    rfl
  · rw [failed]
    rfl

theorem deliver_moves (p : List UInt8) : Moves books countIn (deliver p) := by
  refine (keeps_failIf books _).moves fun _ => (keeps_failIf books _).moves fun _ => Keeps.moves (keeps_modify fun _ => rfl)
    fun _ => (keeps_onBuf _).moves fun _ => moves_modify fun _ => rfl

theorem sessionRecv_moves : Moves books countIn sessionRecv := keeps_recvPacket.moves deliver_moves

/-! Keys. -/

theorem MacOf.congr {d t : SshDirection} {last : Option KeyArgs} (of : MacOf d last) (key : t.macKey = d.macKey)
    (length : t.macKeyLen = d.macKeyLen) : MacOf t last := by
  cases last with
  | none => exact (congrArg Fin.val length).trans of
  | some args =>
    simp only [MacOf] at of ⊢
    rw [key, length]
    exact of

theorem macOf_hmac {d : SshDirection} {args : KeyArgs} {key : List UInt8} (named : args.macName = some "hmac-sha2-256")
    (given : args.macKey = some key) (length : d.macKeyLen.val = args.macKeyLen) (positive : 0 < args.macKeyLen)
    (bytes : ∀ i < args.macKeyLen, d.macKey.toList.getD i 0 = key.getD i 0) : MacOf d (some args) := by
  change if _ then _ else _
  rw [if_pos named]
  exact ⟨key, given, length, positive, bytes⟩

theorem macOf_none {d : SshDirection} {args : KeyArgs} (named : args.macName = some "none") (length : d.macKeyLen.val = 0) :
    MacOf d (some args) := by
  change if _ then _ else _
  rw [if_neg (by rw [named]; decide)]
  exact ⟨named, length⟩

theorem copyKey_getD (old : Vector UInt8 SSH_MAC_KEY_MAX) (key : List UInt8) {len i : Nat} (inside : i < len)
    (fits : len ≤ SSH_MAC_KEY_MAX) : (copyKey old key len).toList.getD i 0 = key.getD i 0 := by
  have within : i < 32 := Nat.lt_of_lt_of_le inside fits
  rw [copyKey, List.getD_eq_getElem?_getD]
  simp [within, inside]

theorem installMac_mac (args : KeyArgs) {macName : String} (named : args.macName = some macName) (d : SshDirection) :
    (∀ t, installMac macName args.macKey args.macKeyLen d = .ok () t → MacOf t (some args)) ∧
      ∀ exit t, installMac macName args.macKey args.macKeyLen d = .error exit t → t = d := by
  by_cases refused : MacRefused macName args.macKey args.macKeyLen
  · rw [installMac_refused refused]
    refine ⟨fun t returned => ?_, fun exit t failed => ?_⟩
    · cases returned
    · cases failed
      rfl
  · obtain ⟨u, accepted⟩ := installMac_accepted refused d
    refine ⟨fun t returned => ?_, fun exit t failed => ?_⟩
    · unfold installMac at returned
      by_cases hmac : macName = "hmac-sha2-256"
      · rw [if_pos hmac] at returned
        cases given : args.macKey with
        | none =>
          rw [given] at returned
          cases returned
        | some key =>
          rw [given] at returned
          by_cases wrong : args.macKeyLen = 0 ∨ args.macKeyLen > SSH_MAC_KEY_MAX
          · simp only [dif_pos wrong] at returned
            cases returned
          · simp only [dif_neg wrong] at returned
            cases returned
            exact macOf_hmac (by rw [named, hmac]) given rfl (by omega) fun i inside => copyKey_getD d.macKey key inside (by omega)
      · rw [if_neg hmac] at returned
        by_cases none_named : macName = "none"
        · rw [if_pos none_named] at returned
          cases returned
          exact macOf_none (by rw [named, none_named]) rfl
        · rw [if_neg none_named] at returned
          cases returned
    · rw [accepted] at failed
      cases failed

theorem install_mac (args : KeyArgs) (d : SshDirection) :
    (∀ t, install args d = .ok () t → MacOf t (some args)) ∧
      ∀ exit t, install args d = .error exit t → t.macKey = d.macKey ∧ t.macKeyLen = d.macKeyLen := by
  by_cases accepted : ∃ keyBits iv key macName, CipherAccepted args keyBits iv key ∧ args.macName = some macName
  · obtain ⟨keyBits, iv, key, macName, cipher, named⟩ := accepted
    rw [install_accepted cipher named]
    obtain ⟨returned, failed⟩ := installMac_mac args named { d with ctr := (aesCtrInit key keyBits iv).2 }
    refine ⟨returned, fun exit t stopped => ?_⟩
    rw [failed exit t stopped]
    exact ⟨rfl, rfl⟩
  · rw [install_turned_away accepted]
    refine ⟨fun t returned => ?_, fun exit t failed => ?_⟩
    · cases returned
    · cases failed
      exact ⟨rfl, rfl⟩

/-- Mode and sequence number stay with a direction whatever keys it is given. -/
theorem install_keeps (args : KeyArgs) : Keeps (fun d : SshDirection => (d.encrypted, d.seq)) (install args) :=
  sessionSetKeys_keeps (fun _ _ _ _ => rfl) _ _ _ _ _ _ _ _

theorem ended_state {σ α : Type} (result : EStateM.Result Exit σ α) : (ended result).2 = stateOf result := by
  cases result <;> rfl

/-! Identification strings. -/

theorem readable_stored (old : SshIdent) {line : List UInt8} (valid : sessionIdentCheck line line.length = 0) :
    Readable (storeIdent old line (identStripCrlf line line.length)) := by
  have short := identCheck_length valid
  have held := storeIdent_holds old (stripped_length_le line) (by omega)
  rw [take_stripped] at held
  rw [identStripCrlf_length]
  exact ⟨stripped line, held, short, identification_printable valid⟩

theorem zeroIdent_readable : Readable zeroIdent :=
  ⟨[], ⟨rfl, rfl, by decide⟩, by decide, fun c member => absurd member List.not_mem_nil⟩

/-- Both slots of a session. -/
def BothReadable (s : SshSession) : Prop := Readable s.vC ∧ Readable s.vS

theorem bothReadable_storeOwn (role : SshRole) {s : SshSession} (both : BothReadable s) {line : List UInt8}
    (valid : sessionIdentCheck line line.length = 0) :
    BothReadable (storeOwn role s line (identStripCrlf line line.length)) := by
  cases role with
  | client =>
    simp only [BothReadable, storeOwn]
    exact ⟨readable_stored s.vC valid, both.2⟩
  | server =>
    simp only [BothReadable, storeOwn]
    exact ⟨both.1, readable_stored s.vS valid⟩

theorem bothReadable_storePeer (role : SshRole) {s : SshSession} (both : BothReadable s) {line : List UInt8}
    (valid : sessionIdentCheck line line.length = 0) :
    BothReadable (storePeer role s line (identStripCrlf line line.length)) := by
  cases role with
  | client =>
    simp only [BothReadable, storePeer]
    exact ⟨both.1, readable_stored s.vS valid⟩
  | server =>
    simp only [BothReadable, storePeer]
    exact ⟨readable_stored s.vC valid, both.2⟩

theorem own_valid : sessionIdentCheck IDENT_STRING IDENT_STRING.length = 0 := by decide +kernel

/-- An exchange fills slots; directions are none of its business. -/
theorem exchange_keeps (role : SshRole) (s : SshSession) (both : BothReadable s) :
    (stateOf (sessionExchangeIdent role s)).out = s.out ∧ (stateOf (sessionExchangeIdent role s)).inn = s.inn ∧
      BothReadable (stateOf (sessionExchangeIdent role s)) := by
  rw [sessionExchangeIdent, bind_of_ok (get_apply s), bind_of_ok (set_apply _ _)]
  cases decide ((netWriteFull s.sock IDENT_STRING).1 ≠ (IDENT_STRING.length : Int)) with
  | true =>
    rw [bind_of_error (failIf_true _)]
    exact ⟨rfl, rfl, both⟩
  | false =>
    rw [bind_of_ok (failIf_false _)]
    cases decide (identStripCrlf IDENT_STRING IDENT_STRING.length > SSH_IDENT_MAX - 2) with
    | true =>
      rw [bind_of_error (failIf_true _)]
      exact ⟨rfl, rfl, both⟩
    | false =>
      rw [bind_of_ok (failIf_false _), bind_of_ok (modify_apply _ _)]
      have stored := bothReadable_storeOwn role (s := { s with sock := (netWriteFull s.sock IDENT_STRING).2 }) both own_valid
      obtain ⟨-, ownOut, ownInn⟩ := storeOwn_keeps role { s with sock := (netWriteFull s.sock IDENT_STRING).2 } IDENT_STRING
        (identStripCrlf IDENT_STRING IDENT_STRING.length)
      generalize storeOwn role { s with sock := (netWriteFull s.sock IDENT_STRING).2 } IDENT_STRING
        (identStripCrlf IDENT_STRING IDENT_STRING.length) = u at stored ownOut ownInn
      rcases readIdent_cases role 50 u with ⟨before, line, rest, cuts, answered, found⟩ | ⟨-, lines, rest, cuts, -, -, -, stopped⟩
      · rw [found]
        obtain ⟨-, peerOut, peerInn⟩ := storePeer_keeps role { u with sock := u.sock.after (before.flatten ++ line).length cuts }
          line (identStripCrlf line line.length)
        exact ⟨peerOut.trans ownOut, peerInn.trans ownInn,
          bothReadable_storePeer role (s := { u with sock := u.sock.after (before.flatten ++ line).length cuts }) stored
            answered.valid⟩
      · rw [stopped]
        exact ⟨ownOut, ownInn, stored⟩

/-! One turn, and all of them. -/

section
variable {history : History} {s : SshSession}

/-- An entry that is about packets or identifications leaves mode and MAC of both sides. -/
theorem Kept.traffic (kept : Kept history s) {t : SshSession} {entry : Request × Bool}
    (sent : t.out.seq = s.out.seq + if sentOne entry then 1 else 0)
    (received : t.inn.seq = s.inn.seq + if receivedOne entry then 1 else 0)
    (modes : ∀ side : Side, (side.direction t).encrypted = (side.direction s).encrypted ∧
      (side.direction t).macKey = (side.direction s).macKey ∧ (side.direction t).macKeyLen = (side.direction s).macKeyLen)
    (quiet : ∀ side, activated side entry = false ∧ installed side entry = none) (both : BothReadable t) :
    Kept (history ++ [entry]) t := by
  refine kept.append sent received (fun side => ?_) (fun side => ?_) both.1 both.2
  · rw [(modes side).1, (quiet side).1, Bool.or_false]
  · rw [(quiet side).2, Option.none_or]
    exact (kept.mac side).congr (modes side).2.1 (modes side).2.2

/-- What is kept can be read off the ledger. -/
theorem Kept.of_ledger {t : SshSession} (kept : Kept history s) (same : ledger t = ledger s) : Kept history t := by
  have field {β : Type} (view : SshSession → β) : view (ledger t) = view (ledger s) := congrArg view same
  refine ⟨?_, ?_, fun side => ?_, fun side => ?_, ?_, ?_⟩
  · exact (field fun u => u.out.seq).trans kept.sent
  · exact (field fun u => u.inn.seq).trans kept.received
  · cases side
    · exact (field fun u => u.out.encrypted).trans (kept.encrypted .out)
    · exact (field fun u => u.inn.encrypted).trans (kept.encrypted .inn)
  · cases side
    · exact (kept.mac .out).congr (field fun u => u.out.macKey) (field fun u => u.out.macKeyLen)
    · exact (kept.mac .inn).congr (field fun u => u.inn.macKey) (field fun u => u.inn.macKeyLen)
  · have slot := field fun u => u.vC
    change t.vC = s.vC at slot
    rw [slot]
    exact kept.client
  · have slot := field fun u => u.vS
    change t.vS = s.vS at slot
    rw [slot]
    exact kept.server

/-- A packet has gone out. -/
theorem Kept.sends (kept : Kept history s) (rand : (n : Nat) → Option (Vector UInt8 n)) (payload : Option (List UInt8))
    (len : Nat) : Kept (history ++ [(.send rand payload len, true)]) (countOut s) :=
  kept.traffic rfl (UInt32.add_zero _).symm (fun side => by cases side <;> exact ⟨rfl, rfl, rfl⟩) (fun _ => ⟨rfl, rfl⟩)
    ⟨kept.client, kept.server⟩

/-- A packet has come in. -/
theorem Kept.receives (kept : Kept history s) : Kept (history ++ [(.recv, true)]) (countIn s) :=
  kept.traffic (UInt32.add_zero _).symm rfl (fun side => by cases side <;> exact ⟨rfl, rfl, rfl⟩) (fun _ => ⟨rfl, rfl⟩)
    ⟨kept.client, kept.server⟩

/-- A call that counts nothing. -/
theorem Kept.passes (kept : Kept history s) {entry : Request × Bool} (sent : sentOne entry = false)
    (received : receivedOne entry = false) (quiet : ∀ side, activated side entry = false ∧ installed side entry = none) :
    Kept (history ++ [entry]) s := by
  refine kept.traffic ?_ ?_ (fun side => ⟨rfl, rfl, rfl⟩) quiet ⟨kept.client, kept.server⟩
  · rw [sent, if_neg (by decide), UInt32.add_zero]
  · rw [received, if_neg (by decide), UInt32.add_zero]

theorem Kept.send (kept : Kept history s) {start : SessState} (same : ledger start.sess = ledger s)
    (rand : (n : Nat) → Option (Vector UInt8 n)) (payload : Option (List UInt8)) (len : Nat) :
    Kept (history ++ [(.send rand payload len, (answer start (.send rand payload len)).1)])
      (answer start (.send rand payload len)).2 := by
  obtain ⟨returned, failed⟩ := sessionSend_moves rand payload len start
  cases result : sessionSend rand payload len start with
  | ok value t =>
    have moved := returned value t result
    simp only [answer, result, ended]
    exact (kept.sends rand payload len).of_ledger (moved.trans (congrArg countOut same))
  | error exit t =>
    have still := failed exit t result
    simp only [answer, result, ended]
    exact (kept.passes rfl rfl fun _ => ⟨rfl, rfl⟩).of_ledger (still.trans same)

theorem Kept.recv (kept : Kept history s) {start : SessState} (same : ledger start.sess = ledger s) :
    Kept (history ++ [(.recv, (answer start .recv).1)]) (answer start .recv).2 := by
  obtain ⟨returned, failed⟩ := sessionRecv_moves start
  cases result : sessionRecv start with
  | ok value t =>
    have moved := returned value t result
    simp only [answer, result, ended]
    exact kept.receives.of_ledger (moved.trans (congrArg countIn same))
  | error exit t =>
    have still := failed exit t result
    simp only [answer, result, ended]
    exact (kept.passes rfl rfl fun _ => ⟨rfl, rfl⟩).of_ledger (still.trans same)

theorem Kept.exchange (kept : Kept history s) (role : SshRole) :
    Kept (history ++ [(.exchangeIdent role, (ended (sessionExchangeIdent role s)).1)])
      (ended (sessionExchangeIdent role s)).2 := by
  obtain ⟨out, inn, both⟩ := exchange_keeps role s ⟨kept.client, kept.server⟩
  rw [ended_state]
  refine kept.traffic ?_ ?_ (fun side => ?_) (fun _ => ⟨rfl, rfl⟩) both
  · rw [out]
    exact (UInt32.add_zero _).symm
  · rw [inn]
    exact (UInt32.add_zero _).symm
  · cases side
    · exact ⟨congrArg _ out, congrArg _ out, congrArg _ out⟩
    · exact ⟨congrArg _ inn, congrArg _ inn, congrArg _ inn⟩

/-- A direction is replaced. -/
theorem Kept.replace (kept : Kept history s) {side : Side} {d : SshDirection} {entry : Request × Bool}
    (seq : d.seq = (side.direction s).seq) (sent : sentOne entry = false) (received : receivedOne entry = false)
    (encrypted : d.encrypted = ((side.direction s).encrypted || activated side entry))
    (mac : MacOf d ((installed side entry).or (history.filterMap (installed side)).getLast?))
    (other : ∀ which ≠ side, activated which entry = false ∧ installed which entry = none) :
    Kept (history ++ [entry]) (side.replace s d) := by
  refine kept.append ?_ ?_ (fun which => ?_) (fun which => ?_) ?_ ?_
  · rw [sent, if_neg (by decide), UInt32.add_zero]
    cases side
    · exact seq
    · rfl
  · rw [received, if_neg (by decide), UInt32.add_zero]
    cases side
    · rfl
    · exact seq
  · by_cases own : which = side
    · subst own
      cases which <;> exact encrypted
    · rw [(other which own).1, Bool.or_false]
      cases which <;> cases side <;> first | rfl | exact absurd rfl own
  · by_cases own : which = side
    · subst own
      cases which <;> exact mac
    · rw [(other which own).2, Option.none_or]
      have before := kept.mac which
      cases which <;> cases side <;> first | exact before | exact absurd rfl own
  · cases side <;> exact kept.client
  · cases side <;> exact kept.server

theorem Kept.setKeys (kept : Kept history s) (side : Side) (args : KeyArgs) :
    Kept (history ++ [(.setKeys side args, (ended (install args (side.direction s))).1)])
      (side.replace s (ended (install args (side.direction s))).2) := by
  obtain ⟨returned, failed⟩ := install_mac args (side.direction s)
  have keeps := install_keeps args (side.direction s)
  cases result : install args (side.direction s) with
  | ok value t =>
    rw [result] at keeps
    obtain ⟨encrypted, seq⟩ := Prod.mk.inj keeps
    refine kept.replace seq rfl rfl (encrypted.trans (Bool.or_false _).symm) ?_ fun which other => ⟨rfl, ?_⟩
    · simp only [installed, ended, if_true, Option.some_or]
      exact returned t result
    · exact if_neg fun same => other same.symm
  | error exit t =>
    rw [result] at keeps
    obtain ⟨encrypted, seq⟩ := Prod.mk.inj keeps
    refine kept.replace seq rfl rfl (encrypted.trans (Bool.or_false _).symm) ?_ fun which other => ⟨rfl, rfl⟩
    exact (kept.mac side).congr (failed exit t result).1 (failed exit t result).2

theorem Kept.activate (kept : Kept history s) (side : Side) :
    Kept (history ++ [(.activate side, true)]) (side.replace s (sessionActivate (side.direction s))) := by
  refine kept.replace rfl rfl rfl ?_ ((kept.mac side).congr rfl rfl) fun which other => ⟨?_, rfl⟩
  · simp [activated, sessionActivate]
  · simp [activated, Ne.symm other]

end

theorem kept_turn {life : History × SshSession} (kept : Kept life.1 life.2) (turn : Turn) :
    Kept (takeTurn life turn).1 (takeTurn life turn).2 := by
  have moved : Kept life.1 { life.2 with sock := turn.sock } := kept.of_ledger rfl
  obtain ⟨sock, heap, buf, request⟩ := turn
  cases request with
  | exchangeIdent role => exact moved.exchange role
  | send rand payload len => exact kept.send rfl rand payload len
  | recv => exact kept.recv rfl
  | setKeys side args => exact moved.setKeys side args
  | activate side => exact moved.activate side

theorem kept_turns {life : History × SshSession} (kept : Kept life.1 life.2) (turns : List Turn) :
    Kept (turns.foldl takeTurn life).1 (turns.foldl takeTurn life).2 := by
  induction turns generalizing life with
  | nil => exact kept
  | cons turn turns ih => exact ih (kept_turn kept turn)

theorem kept_init (sock : Socket) : Kept [] (sessionInit sock) where
  sent := rfl
  received := rfl
  encrypted side := by cases side <;> rfl
  mac side := by cases side <;> rfl
  client := zeroIdent_readable
  server := zeroIdent_readable

/-- Every life of a session from `session_init` on: any calls, in any order, on any streams,
allocators and buffers, and whatever they return. The sequence number of a direction counts
the packets that its calls have returned 0 for, across all key changes; a direction is
encrypted from its first activation on, and never in plain again; its MAC is the one of the
last keys that were accepted for it; and an identification slot always holds a printable text
of at most 253 characters with a NUL behind it. -/
theorem session_keeps_account (sock : Socket) (turns : List Turn) :
    Kept (live (sessionInit sock) turns).1 (live (sessionInit sock) turns).2 :=
  kept_turns (kept_init sock) turns

end Coalesce.SessionRun
