import Coalesce.Library.RelatedCalls
import Coalesce.Ident
import Coalesce.Packet
import Coalesce.SessionReceive

/-! The pieces in which a stream comes and goes do not show. Two sockets over one
stream that differ in their schedules only are told apart by no receiver, by no
exchange of banners and by no write. -/

namespace Coalesce.Fragmentation
open Library.CallResult Library.RelatedCalls Buffer Net Session SessionReceive Packet Ident

/-- One stream in both directions; the schedules are free, but that no write is refused. -/
structure SameStream (sock sock' : Socket) : Prop where
  rx : sock'.rx = sock.rx
  rxReset : sock'.rxReset = sock.rxReset
  tx : sock'.tx = sock.tx
  accepting : Accepting sock
  accepting' : Accepting sock'

/-- Sessions that are equal up to the schedules of their sockets. -/
def SameSession (s t : SshSession) : Prop := ∃ sock, t = { s with sock := sock } ∧ SameStream s.sock sock

def SameSess (s t : SessState) : Prop :=
  ∃ sock, t = { s with sess := { s.sess with sock := sock } } ∧ SameStream s.sess.sock sock

def SamePkt (s t : PktState) : Prop := ∃ sock, t = { s with sock := sock } ∧ SameStream s.sock sock

/-! The functions of net.c. -/

theorem SameStream.after {sock sock' : Socket} (same : SameStream sock sock') (count : Nat) (cuts cuts' : List Nat) :
    SameStream (sock.after count cuts) (sock'.after count cuts') :=
  ⟨by simp only [Socket.after, same.rx], same.rxReset, same.tx, same.accepting, same.accepting'⟩

/-- Result and bytes of a full read depend on the stream alone. -/
theorem netReadFull_same {sock sock' : Socket} (same : SameStream sock sock') (n : Nat) :
    (netReadFull sock' n).1 = (netReadFull sock n).1 ∧ (netReadFull sock' n).2.1 = (netReadFull sock n).2.1 ∧
      SameStream (netReadFull sock n).2.2 (netReadFull sock' n).2.2 := by
  by_cases present : n ≤ sock.rx.length
  · obtain ⟨cuts, read⟩ := netReadFull_whole sock n present
    obtain ⟨cuts', read'⟩ := netReadFull_whole sock' n (by rw [same.rx]; exact present)
    rw [read, read']
    exact ⟨rfl, by rw [same.rx], same.after n cuts cuts'⟩
  · obtain ⟨cuts, read⟩ := netReadFull_short sock n (by omega)
    obtain ⟨cuts', read'⟩ := netReadFull_short sock' n (by rw [same.rx]; omega)
    rw [read, read']
    refine ⟨by simp only [endCode, same.rxReset], same.rx, ?_⟩
    rw [same.rx]
    exact same.after _ cuts cuts'

theorem lineLoop_same {sock sock' : Socket} (same : SameStream sock sock') (line : List UInt8) (left : Nat) :
    (lineLoop sock' line left).1 = (lineLoop sock line left).1 ∧
      (lineLoop sock' line left).2.1 = (lineLoop sock line left).2.1 ∧
      SameStream (lineLoop sock line left).2.2 (lineLoop sock' line left).2.2 := by
  induction left generalizing sock sock' line with
  | zero => exact ⟨rfl, rfl, same⟩
  | succ left ih =>
    cases stream : sock.rx with
    | nil =>
      have stream' : sock'.rx = [] := by rw [same.rx, stream]
      have ends : endCode sock' = endCode sock := by simp only [endCode, same.rxReset]
      rw [lineLoop, lineLoop, recv_none stream, recv_none stream', ends]
      simp only [if_pos (endCode_nonpos sock)]
      exact ⟨trivial, trivial, same⟩
    | cons byte rest =>
      have stream' : sock'.rx = byte :: rest := by rw [same.rx, stream]
      rw [lineLoop_cons stream, lineLoop_cons stream']
      by_cases found : byte = LF
      · rw [if_pos found, if_pos found]
        exact ⟨rfl, rfl, same.after 1 _ _⟩
      · rw [if_neg found, if_neg found]
        exact ih (same.after 1 _ _) (line ++ [byte])

theorem netReadLine_same {sock sock' : Socket} (same : SameStream sock sock') (max : Nat) :
    (netReadLine sock' max).1 = (netReadLine sock max).1 ∧ (netReadLine sock' max).2.1 = (netReadLine sock max).2.1 ∧
      SameStream (netReadLine sock max).2.2 (netReadLine sock' max).2.2 :=
  lineLoop_same same [] (max - 1)

theorem netWriteFull_same {sock sock' : Socket} (same : SameStream sock sock') (bytes : List UInt8) :
    (netWriteFull sock' bytes).1 = (netWriteFull sock bytes).1 ∧
      SameStream (netWriteFull sock bytes).2 (netWriteFull sock' bytes).2 := by
  obtain ⟨plan, written, clear⟩ := netWriteFull_whole sock bytes same.accepting
  obtain ⟨plan', written', clear'⟩ := netWriteFull_whole sock' bytes same.accepting'
  rw [written, written']
  exact ⟨rfl, same.rx, same.rxReset, by rw [same.tx], clear, clear'⟩

/-! Receiving packets. -/

theorem readFull_respects (n : Nat) : Respects SameSess (readFull n) := by
  rintro s t ⟨sock, rfl, same⟩
  obtain ⟨result, bytes, after⟩ := netReadFull_same same n
  rw [readFull, bind_of_ok (get_apply s), bind_of_ok (get_apply _), bind_of_ok (set_apply _ _), bind_of_ok (set_apply _ _)]
  simp only [result, bytes]
  exact (respects_failIf _).bind (fun _ => respects_pure _) _ _ ⟨_, rfl, after⟩

theorem onBuf_respects {α : Type} (call : BufCall α) : Respects SameSess (onBuf call) := by
  refine respects_zoom ?_ ?_
  · rintro s t ⟨sock, rfl, -⟩
    rfl
  · rintro s t u ⟨sock, rfl, same⟩
    exact ⟨sock, rfl, same⟩

theorem cryptIn_respects (data : List UInt8) : Respects SameSess (cryptIn data) := by
  rintro s t ⟨sock, rfl, same⟩
  exact ⟨rfl, sock, rfl, same⟩

/-- An update that leaves the socket and does not look at it. -/
theorem modify_respects {f : SessState → SessState}
    (blind : ∀ s sock, f { s with sess := { s.sess with sock := sock } } =
      { f s with sess := { (f s).sess with sock := sock } }) (keeps : ∀ s, (f s).sess.sock = s.sess.sock) :
    Respects SameSess (modify f) := by
  apply respects_modify
  rintro s t ⟨sock, rfl, same⟩
  exact ⟨sock, blind s sock, by rw [keeps s]; exact same⟩

theorem inn_alike {s t : SessState} (related : SameSess s t) : s.sess.inn = t.sess.inn := by
  obtain ⟨sock, rfl, -⟩ := related
  rfl

theorem recvPlain_respects : Respects SameSess recvPlain := by
  refine (readFull_respects 4).bind fun head => ?_
  refine (respects_failIf _).bind fun _ => ?_
  refine (onBuf_respects alloc).bind fun _ => ?_
  exact (readFull_respects _).bind fun _ => respects_pure _

theorem checkMac_respects (pkt : List UInt8) : Respects SameSess (checkMac pkt) := by
  refine respects_get ?_ fun s => ?_
  · intro s t related
    rw [inn_alike related]
  · exact Respects.ite ((readFull_respects _).bind fun _ => respects_failIf _) (respects_pure ())

theorem recvEncrypted_respects : Respects SameSess recvEncrypted := by
  refine (readFull_respects _).bind fun cipher => ?_
  refine (cryptIn_respects cipher).bind fun first => ?_
  refine (respects_failIf _).bind fun _ => ?_
  refine (respects_failIf _).bind fun _ => ?_
  refine (onBuf_respects alloc).bind fun _ => ?_
  refine Respects.ite ?_ ?_
  · refine (readFull_respects _).bind fun cipher => ?_
    refine (cryptIn_respects cipher).bind fun tail => ?_
    exact (checkMac_respects _).bind fun _ => respects_pure _
  · exact (checkMac_respects _).bind fun _ => respects_pure _

theorem deliver_respects (pkt : List UInt8) : Respects SameSess (deliver pkt) := by
  refine (respects_failIf _).bind fun _ => ?_
  refine (respects_failIf _).bind fun _ => ?_
  refine Respects.bind (modify_respects ?_ ?_) fun _ => ?_
  · intro s sock
    rfl
  · intro s
    rfl
  refine (onBuf_respects _).bind fun _ => ?_
  apply modify_respects
  · intro s sock
    rfl
  · intro s
    rfl

theorem sessionRecv_respects : Respects SameSess sessionRecv := by
  refine Respects.bind ?_ deliver_respects
  refine respects_get ?_ fun s => ?_
  · intro s t related
    rw [inn_alike related]
  · exact Respects.ite recvEncrypted_respects recvPlain_respects

theorem pktReadFull_respects (n : Nat) : Respects SamePkt (pktReadFull n) := by
  rintro s t ⟨sock, rfl, same⟩
  obtain ⟨result, bytes, after⟩ := netReadFull_same same n
  rw [pktReadFull, bind_of_ok (get_apply s), bind_of_ok (get_apply _), bind_of_ok (set_apply _ _), bind_of_ok (set_apply _ _)]
  simp only [result, bytes]
  exact (respects_failIf _).bind (fun _ => respects_pure _) _ _ ⟨_, rfl, after⟩

theorem onPayload_respects {α : Type} (call : BufCall α) : Respects SamePkt (onPayload call) := by
  refine respects_zoom ?_ ?_
  · rintro s t ⟨sock, rfl, -⟩
    rfl
  · rintro s t u ⟨sock, rfl, same⟩
    exact ⟨sock, rfl, same⟩

theorem modifyPkt_respects (put : SshPkt → SshPkt) : Respects SamePkt (modify fun s => { s with pkt := put s.pkt }) := by
  apply respects_modify
  rintro s t ⟨sock, rfl, same⟩
  exact ⟨sock, rfl, same⟩

theorem countPacket_respects : Respects SamePkt countPacket := by
  apply respects_modify
  rintro s t ⟨sock, rfl, same⟩
  exact ⟨sock, rfl, same⟩

theorem pktParse_respects (packetLength : UInt32) (body : List UInt8) : Respects SamePkt (pktParse packetLength body) := by
  refine (respects_failIf _).bind fun _ => ?_
  refine (modifyPkt_respects fun pkt => { pkt with packetLength := packetLength, paddingLength := body.getD 0 0 }).bind fun _ => ?_
  exact Respects.ite (onPayload_respects _) (respects_pure ())

theorem pktRecv_respects (blockSize : Nat) : Respects SamePkt (pktRecv blockSize) := by
  refine (modifyPkt_respects pktReset).bind fun _ => ?_
  refine (pktReadFull_respects 4).bind fun lenBuf => ?_
  refine (respects_failIf _).bind fun _ => ?_
  refine (onPayload_respects alloc).bind fun _ => ?_
  refine (pktReadFull_respects _).bind fun body => ?_
  exact (pktParse_respects _ body).bind fun _ => countPacket_respects

/-! Exchanging banners. -/

theorem storePeer_same {role : SshRole} {s t : SshSession} (related : SameSession s t) (line : List UInt8) (len : Nat) :
    SameSession (storePeer role s line len) (storePeer role t line len) := by
  obtain ⟨sock, rfl, same⟩ := related
  cases role <;> simp only [storePeer] <;> exact ⟨sock, rfl, same⟩

theorem storeOwn_same {role : SshRole} {s t : SshSession} (related : SameSession s t) (line : List UInt8) (len : Nat) :
    SameSession (storeOwn role s line len) (storeOwn role t line len) := by
  obtain ⟨sock, rfl, same⟩ := related
  cases role <;> simp only [storeOwn] <;> exact ⟨sock, rfl, same⟩

theorem readIdent_respects (role : SshRole) (attempts : Nat) : Respects SameSession (readIdent role attempts) := by
  induction attempts with
  | zero => exact respects_throw .fail
  | succ attempts ih =>
    rintro s t ⟨sock, rfl, same⟩
    obtain ⟨result, line, after⟩ := netReadLine_same same (SSH_IDENT_MAX + 2)
    rw [readIdent, bind_of_ok (get_apply s), bind_of_ok (get_apply _), bind_of_ok (set_apply _ _), bind_of_ok (set_apply _ _)]
    simp only [result, line]
    refine (respects_failIf _).bind (fun _ => ?_) _ _ ⟨_, rfl, after⟩
    refine (respects_failIf _).bind fun _ => ?_
    refine Respects.ite ih ?_
    refine (respects_failIf _).bind fun _ => respects_modify ?_
    intro u v related
    exact storePeer_same related _ _

theorem sessionExchangeIdent_respects (role : SshRole) : Respects SameSession (sessionExchangeIdent role) := by
  rintro s t ⟨sock, rfl, same⟩
  obtain ⟨result, after⟩ := netWriteFull_same same IDENT_STRING
  rw [sessionExchangeIdent, bind_of_ok (get_apply s), bind_of_ok (get_apply _), bind_of_ok (set_apply _ _),
    bind_of_ok (set_apply _ _)]
  simp only [result]
  refine (respects_failIf _).bind (fun _ => ?_) _ _ ⟨_, rfl, after⟩
  refine (respects_failIf _).bind fun _ => ?_
  refine Respects.bind (respects_modify ?_) fun _ => readIdent_respects role 50
  intro u v related
  exact storeOwn_same related _ _

/-- Every receiver ends in the same way, with the same code and the same state down to the
unread rest of the stream; a full read returns its size exactly when the bytes are there, and
a full write puts out all bytes once and in order. -/
theorem fragmentation_invisible (sock sock' : Socket) (same : SameStream sock sock') :
    (∀ role (s : SshSession), SameEnd SameSession (sessionExchangeIdent role { s with sock := sock })
        (sessionExchangeIdent role { s with sock := sock' })) ∧
      (∀ s : SessState, SameEnd SameSess (sessionRecv { s with sess := { s.sess with sock := sock } })
        (sessionRecv { s with sess := { s.sess with sock := sock' } })) ∧
      (∀ blockSize (s : PktState), SameEnd SamePkt (pktRecv blockSize { s with sock := sock })
        (pktRecv blockSize { s with sock := sock' })) ∧
      (∀ n, ((netReadFull sock n).1 = n ↔ n ≤ sock.rx.length) ∧
        ((netReadFull sock n).1 = n → (netReadFull sock n).2.1 = sock.rx.take n)) ∧
      (∀ bytes, (netWriteFull sock bytes).1 = bytes.length ∧ (netWriteFull sock bytes).2.tx = sock.tx ++ bytes) := by
  refine ⟨fun role s => ?_, fun s => ?_, fun blockSize s => ?_, fun n => ?_, fun bytes => ?_⟩
  · exact sessionExchangeIdent_respects role _ _ ⟨sock', rfl, same⟩
  · exact sessionRecv_respects _ _ ⟨sock', rfl, same⟩
  · exact pktRecv_respects blockSize _ _ ⟨sock', rfl, same⟩
  · by_cases present : n ≤ sock.rx.length
    · obtain ⟨cuts, read⟩ := netReadFull_whole sock n present
      rw [read]
      exact ⟨⟨fun _ => present, fun _ => rfl⟩, fun _ => rfl⟩
    · obtain ⟨cuts, read⟩ := netReadFull_short sock n (by omega)
      have nonpos := endCode_nonpos sock
      have differs : endCode sock ≠ (n : Int) := by omega
      rw [read]
      exact ⟨⟨fun whole => absurd whole differs, fun whole => absurd whole present⟩, fun whole => absurd whole differs⟩
  · obtain ⟨plan, written, -⟩ := netWriteFull_whole sock bytes same.accepting
    rw [written]
    exact ⟨rfl, rfl⟩

/-- One stream, once a byte at a time and once at a stroke. -/
theorem fragmentation_invisible_bytewise :
    let sock : Socket := { rx := [0, 0, 0, 6], rxCuts := [1, 1, 1, 1], rxReset := false, tx := [], txPlan := [some 1] }
    let sock' : Socket := { sock with rxCuts := [], txPlan := [] }
    (∀ role (s : SshSession), SameEnd SameSession (sessionExchangeIdent role { s with sock := sock })
        (sessionExchangeIdent role { s with sock := sock' })) ∧
      (∀ s : SessState, SameEnd SameSess (sessionRecv { s with sess := { s.sess with sock := sock } })
        (sessionRecv { s with sess := { s.sess with sock := sock' } })) ∧
      (∀ blockSize (s : PktState), SameEnd SamePkt (pktRecv blockSize { s with sock := sock })
        (pktRecv blockSize { s with sock := sock' })) ∧
      (∀ n, ((netReadFull sock n).1 = n ↔ n ≤ sock.rx.length) ∧
        ((netReadFull sock n).1 = n → (netReadFull sock n).2.1 = sock.rx.take n)) ∧
      (∀ bytes, (netWriteFull sock bytes).1 = bytes.length ∧ (netWriteFull sock bytes).2.tx = sock.tx ++ bytes) :=
  fragmentation_invisible _ _ ⟨rfl, rfl, rfl, by decide, by decide⟩

end Coalesce.Fragmentation
