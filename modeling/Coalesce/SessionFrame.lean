import Coalesce.SessionReceive

/-! What a receive leaves alone, however it ends. -/

namespace Coalesce.SessionFrame
open Library.CallResult Buffer Net Aes Session SessionReceive

/-- What does not look at memory and buffer, at the stream, or at the cipher state and the
sequence number of the direction of receiving. -/
def Unmoved {ρ : Type} (view : SessState → ρ) : Prop :=
  ∀ (s : SessState) (heap : Heap) (buf : SshBuf) (count : Nat) (cuts : List Nat) (ctr : AesCtrCtx) (seq : UInt32),
    view { heap := heap
           sess := { s.sess with sock := s.sess.sock.after count cuts, inn := { s.sess.inn with ctr := ctr, seq := seq } }
           buf := buf } = view s

theorem keeps_get {σ ρ : Type} (view : σ → ρ) : Keeps view (get : Call σ σ) := fun _ => rfl

section
variable {ρ : Type} {view : SessState → ρ}

theorem Unmoved.readFull (unmoved : Unmoved view) (n : Nat) : Keeps view (readFull n) := by
  intro s
  rcases readFull_cases s n with ⟨-, cuts, read⟩ | ⟨-, count, cuts, failed⟩
  · rw [read]
    exact unmoved s s.heap s.buf n cuts s.sess.inn.ctr s.sess.inn.seq
  · rw [failed]
    exact unmoved s s.heap s.buf count cuts s.sess.inn.ctr s.sess.inn.seq

theorem Unmoved.onBuf {α : Type} (unmoved : Unmoved view) (call : BufCall α) : Keeps view (onBuf call) := by
  intro s
  have moved (t : BufState) : view { s with heap := t.heap, buf := t.buf } = view s :=
    unmoved s t.heap t.buf 0 s.sess.sock.rxCuts s.sess.inn.ctr s.sess.inn.seq
  cases result : call ⟨s.heap, s.buf⟩ with
  | ok value t =>
    rw [onBuf_of_ok result]
    exact moved t
  | error exit t =>
    rw [onBuf_of_error result]
    exact moved t

theorem Unmoved.cryptIn (unmoved : Unmoved view) (data : List UInt8) : Keeps view (cryptIn data) := by
  intro s
  rw [cryptIn_eq]
  exact unmoved s s.heap s.buf 0 s.sess.sock.rxCuts (aesCtrCrypt s.sess.inn.ctr data).2 s.sess.inn.seq

theorem Unmoved.checkMac (unmoved : Unmoved view) (pkt : List UInt8) : Keeps view (checkMac pkt) := by
  refine (keeps_get view).bind fun s => ?_
  split
  · exact (unmoved.readFull _).bind fun got => keeps_failIf view _
  · exact keeps_pure view ()

theorem Unmoved.recvEncrypted (unmoved : Unmoved view) : Keeps view recvEncrypted := by
  refine (unmoved.readFull _).bind fun cipher => (unmoved.cryptIn _).bind fun first => (keeps_failIf view _).bind fun _ =>
    (keeps_failIf view _).bind fun _ => (unmoved.onBuf _).bind fun _ => ?_
  simp only
  split
  · exact (unmoved.readFull _).bind fun cipher => (unmoved.cryptIn _).bind fun tail => (unmoved.checkMac _).bind fun _ =>
      keeps_pure view _
  · exact (unmoved.checkMac _).bind fun _ => keeps_pure view _

theorem Unmoved.recvPlain (unmoved : Unmoved view) : Keeps view recvPlain :=
  (unmoved.readFull _).bind fun _ => (keeps_failIf view _).bind fun _ => (unmoved.onBuf _).bind fun _ =>
    (unmoved.readFull _).bind fun _ => keeps_pure view _

theorem Unmoved.deliver (unmoved : Unmoved view) (pkt : List UInt8) : Keeps view (deliver pkt) := by
  refine (keeps_failIf view _).bind fun _ => (keeps_failIf view _).bind fun _ => Keeps.bind ?_ fun _ =>
    (unmoved.onBuf _).bind fun _ => ?_
  · exact keeps_modify fun s => unmoved s s.heap (bufReset s.buf) 0 s.sess.sock.rxCuts s.sess.inn.ctr s.sess.inn.seq
  · exact keeps_modify fun s => unmoved s s.heap s.buf 0 s.sess.sock.rxCuts s.sess.inn.ctr (s.sess.inn.seq + 1)

theorem Unmoved.sessionRecv (unmoved : Unmoved view) : Keeps view sessionRecv := by
  refine Keeps.bind ((keeps_get view).bind fun s => ?_) fun pkt => unmoved.deliver pkt
  split
  · exact unmoved.recvEncrypted
  · exact unmoved.recvPlain

end

end Coalesce.SessionFrame
