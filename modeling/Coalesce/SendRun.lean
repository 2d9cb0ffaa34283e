import Coalesce.SessionSend

/-! Runs of `session_send` calls on one session. A call that fails leaves its state to
the next one. Before the socket is touched a call only frames its packet; after that
the cipher has moved on whatever becomes of the write. -/

namespace Coalesce.SendRun
open Library.CallResult Buffer Net Aes Session SessionReceive SessionDeliver SessionSend

/-- Arguments of one `session_send`, and what `rand_bytes` answers to it. -/
structure SendCall where
  rand : (n : Nat) → Option (Vector UInt8 n)
  payload : Option (List UInt8)
  len : Nat
  readable : ∀ bytes, payload = some bytes → len ≤ bytes.length

def SendCall.run (call : SendCall) : SessCall Unit := sessionSend call.rand call.payload call.len

/-- The state that a call leaves, returned or failed. -/
def sendOne (s : SessState) (call : SendCall) : SessState := stateOf (call.run s)

def sendAll (s : SessState) (calls : List SendCall) : SessState := calls.foldl sendOne s

/-- `session_send` up to the packet in clear. -/
def SendCall.frame (call : SendCall) : SessCall (List UInt8) := do
  failIf (call.payload.isNone || call.len = 0 || call.len > MAX_PAYLOAD_SIZE)
  let s ← get
  let pad := paddingSize (blockOf s.sess.out) call.len
  let packetLength := UInt32.ofNat (1 + call.len + pad)
  failIf (4 + packetLength.toNat > MAX_PACKET_SIZE)
  onBuf alloc
  match call.rand pad with
  | none => throw .fail
  | some padding => pure (be32 packetLength ++ [UInt8.ofNat pad] ++ (call.payload.getD []).take call.len ++ padding.toList)

theorem run_eq (call : SendCall) : call.run = call.frame >>= sendPacket := by
  unfold SendCall.run SendCall.frame sessionSend
  simp only [bind_assoc]
  refine bind_congr fun _ => bind_congr fun s => bind_congr fun _ => bind_congr fun _ => ?_
  cases call.rand (paddingSize (blockOf s.sess.out) call.len) with
  | none => rfl
  | some padding => rw [pure_bind]

/-- Without a packet only the allocator has moved; a packet is framed for the mode of the direction. -/
theorem frame_cases (call : SendCall) (s : SessState) :
    (∃ heap, call.frame s = .error .fail { s with heap := heap }) ∨
    ∃ heap payload padding, call.frame s = .ok (framed payload padding) { s with heap := heap } ∧ Sendable payload ∧
      padding.length = paddingSize (blockOf s.sess.out) payload.length := by
  unfold SendCall.frame
  cases bad : (call.payload.isNone || decide (call.len = 0) || decide (call.len > MAX_PAYLOAD_SIZE)) with
  | true => exact Or.inl ⟨s.heap, bind_of_error (failIf_true s)⟩
  | false =>
    rw [bind_of_ok (failIf_false s), bind_of_ok (get_apply s)]
    rw [Bool.or_eq_false_iff, Bool.or_eq_false_iff, decide_eq_false_iff_not, decide_eq_false_iff_not] at bad
    obtain ⟨⟨given, positive⟩, short⟩ := bad
    obtain ⟨bytes, payload⟩ := Option.isSome_iff_exists.mp (Option.isNone_eq_false_iff.mp given)
    have readable := call.readable bytes payload
    cases large : decide (4 + (UInt32.ofNat (1 + call.len + paddingSize (blockOf s.sess.out) call.len)).toNat > MAX_PACKET_SIZE) with
    | true => exact Or.inl ⟨s.heap, bind_of_error (failIf_true s)⟩
    | false =>
      rw [bind_of_ok (failIf_false s)]
      rcases onBuf_alloc_cases s with ⟨heap, granted, -⟩ | ⟨heap, refused, -⟩
      swap
      · exact Or.inl ⟨heap, bind_of_error refused⟩
      rw [bind_of_ok granted]
      have length : (bytes.take call.len).length = call.len := by rw [List.length_take, Nat.min_eq_left readable]
      cases call.rand (paddingSize (blockOf s.sess.out) call.len) with
      | none => exact Or.inl ⟨heap, rfl⟩
      | some padding =>
        refine Or.inr ⟨heap, bytes.take call.len, padding.toList, ?_, ?_, ?_⟩
        · rw [framed, length, Vector.length_toList, payload]
          rfl
        · unfold Sendable
          omega
        · rw [Vector.length_toList, length]

theorem framed_short (d : SshDirection) {payload padding : List UInt8} (sendable : Sendable payload)
    (pad : padding.length = paddingSize (blockOf d) payload.length) : (framed payload padding).length < 2 ^ 32 := by
  obtain ⟨-, atMost, -⟩ := paddingSize_bounds d payload.length
  unfold Sendable MAX_PAYLOAD_SIZE at sendable
  rw [framed_length]
  omega

private theorem writeFull_counted (s : SessState) (bytes : List UInt8) :
    ∃ seq, stateOf ((writeFull bytes >>= fun _ => modify fun t =>
        { t with sess := { t.sess with out := { t.sess.out with seq := t.sess.out.seq + 1 } } }) s) =
      { s with sess := { s.sess with
        sock := (netWriteFull s.sess.sock bytes).2
        out := { s.sess.out with seq := seq } } } := by
  rw [bind_apply, writeFull, bind_of_ok (get_apply s), bind_of_ok (set_apply _ _)]
  cases decide ((netWriteFull s.sess.sock bytes).1 ≠ bytes.length) with
  | true => exact ⟨s.sess.out.seq, rfl⟩
  | false => exact ⟨s.sess.out.seq + 1, rfl⟩

/-- The cipher has moved past the packet and the socket was given all of it, whatever it took. -/
theorem sendPacket_leaves (s : SessState) {p : List UInt8} (short : p.length < 2 ^ 32) :
    ∃ seq, stateOf (sendPacket p s) = { s with sess := { s.sess with
      sock := (netWriteFull s.sess.sock (protect s.sess.out p)).2
      out := { s.sess.out with ctr := ctrBehind s.sess.out p, seq := seq } } } := by
  rw [sendPacket, bind_of_ok (get_apply s)]
  by_cases encrypted : s.sess.out.encrypted = true
  · simp only [if_pos encrypted]
    rw [bind_of_ok (show cryptOut p s = _ from rfl), packetMac_eq _ short]
    rw [protect, if_pos encrypted, ctrBehind, if_pos encrypted]
    exact writeFull_counted _ _
  · simp only [if_neg encrypted]
    rw [protect, if_neg encrypted, ctrBehind, if_neg encrypted]
    exact writeFull_counted _ _

/-! A message for runs on fixed inputs. -/

def withOut (s : SessState) (d : SshDirection) : SessState := { s with sess := { s.sess with out := d } }

/-- A session that can send. -/
def ready (d : SshDirection) : SessState := withOut (freshState []) d

/-- SSH_MSG_NEWKEYS, with padding of zeros. -/
def newKeys : SendCall :=
  { rand := fun n => some (Vector.replicate n 0), payload := some [21], len := 1
    readable := by
      rintro bytes ⟨⟩
      exact Nat.le_refl 1 }

end Coalesce.SendRun
