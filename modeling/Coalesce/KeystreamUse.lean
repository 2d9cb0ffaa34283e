import Coalesce.CounterMode
import Coalesce.Library.Lockstep
import Coalesce.SendRun

/-! Which keystream a run of sends uses. A packet that reached the cipher has used up its
blocks, whether or not the socket took it, and every packet is a number of whole blocks. -/

namespace Coalesce.KeystreamUse
open Library Library.CallResult Library.Lockstep Net Aes Session SessionReceive SessionSend AesPermutation CounterMode SendRun

/-- The packet of a call in clear, and the bytes that are handed to the socket for it;
`none` when the call fails before that. -/
def handed (s : SessState) (call : SendCall) : Option (List UInt8 × List UInt8) :=
  match call.frame s with
  | .ok p t => some (p, protect t.sess.out p)
  | .error _ _ => none

/-- What is XORed into the packet of a call, block by block. -/
def callBlocks (s : SessState) (call : SendCall) : List (List UInt8) :=
  match handed s call with
  | some (clear, sent) => blocksOf (List.zipWith (· ^^^ ·) clear sent)
  | none => []

def usedBlocks (s : SessState) (calls : List SendCall) : List (List UInt8) := emitted sendOne callBlocks s calls

/-- A call fails before the cipher, or its whole packet goes through the cipher to the socket. -/
theorem sendOne_cases (s : SessState) (call : SendCall) :
    (handed s call = none ∧ ∃ heap, sendOne s call = { s with heap := heap }) ∨
    ∃ payload padding heap seq, Sendable payload ∧ padding.length = paddingSize (blockOf s.sess.out) payload.length ∧
      handed s call = some (framed payload padding, protect s.sess.out (framed payload padding)) ∧
      sendOne s call = { s with
        heap := heap
        sess := { s.sess with
          sock := (netWriteFull s.sess.sock (protect s.sess.out (framed payload padding))).2
          out := { s.sess.out with ctr := ctrBehind s.sess.out (framed payload padding), seq := seq } } } := by
  unfold handed sendOne
  rw [run_eq]
  rcases frame_cases call s with ⟨heap, failed⟩ | ⟨heap, payload, padding, framed, sendable, pad⟩
  · rw [failed, bind_of_error failed]
    exact Or.inl ⟨rfl, heap, rfl⟩
  · obtain ⟨seq, left⟩ := sendPacket_leaves { s with heap := heap } (framed_short s.sess.out sendable pad)
    rw [framed, bind_of_ok framed, left]
    exact Or.inr ⟨payload, padding, heap, seq, sendable, pad, rfl, rfl⟩

/-- The socket behind a call has had what was handed to it, if anything. -/
theorem sendOne_sock (s : SessState) (call : SendCall) :
    (sendOne s call).sess.sock = match handed s call with
      | some (_, sent) => (netWriteFull s.sess.sock sent).2
      | none => s.sess.sock := by
  rcases sendOne_cases s call with ⟨unsent, heap, left⟩ | ⟨payload, padding, heap, seq, -, -, sent, left⟩
  · rw [left, unsent]
  · rw [left, sent]

/-- An encrypting direction whose next keystream block is block `k`. -/
structure Drawing (aes : AesCtx) (iv : Block) (k : Nat) (s : SessState) : Prop where
  encrypted : s.sess.out.encrypted = true
  ctr : AtBlock aes iv k s.sess.out.ctr

variable {aes : AesCtx} {iv : Block} {k : Nat} {s : SessState}

/-- XORing a packet with its protected form uncovers whole blocks of keystream. -/
theorem keystream_packet (drawing : Drawing aes iv k s) {p : List UInt8} {count : Nat} (whole : p.length = 16 * count) :
    blocksOf (List.zipWith (· ^^^ ·) p (protect s.sess.out p)) = (List.range' k count).map (keystreamBlock aes iv) ∧
      AtBlock aes iv (k + count) (ctrBehind s.sess.out p) := by
  obtain ⟨blocks, later⟩ := stream_blocks drawing.ctr count
  have uncovered : List.zipWith (· ^^^ ·) p (protect s.sess.out p) = ((List.range' k count).map (keystreamBlock aes iv)).flatten := by
    have tag : ∀ mac, List.zipWith (· ^^^ ·) p ((aesCtrCrypt s.sess.out.ctr p).1 ++ mac) =
        List.zipWith (· ^^^ ·) p (aesCtrCrypt s.sess.out.ctr p).1 := by
      intro mac
      have joined := @List.zipWith_append _ _ _ (· ^^^ ·) p [] _ mac (aesCtrCrypt_length s.sess.out.ctr p).symm
      rw [List.append_nil, List.zipWith_nil_left, List.append_nil] at joined
      exact joined
    rw [protect, if_pos drawing.encrypted, tag, aesCtrCrypt_eq, Keystream.zipWith_crypt, whole, blocks]
  constructor
  · rw [uncovered, blocksOf_flatten]
    intro block member
    obtain ⟨j, -, rfl⟩ := List.mem_map.mp member
    exact keystreamBlock_length aes iv j
  · rw [ctrBehind, if_pos drawing.encrypted, aesCtrCrypt_state, whole]
    exact later

/-- One call, failed or not, draws the next blocks in turn. -/
theorem sendOne_draws (drawing : Drawing aes iv k s) (call : SendCall) :
    callBlocks s call = (List.range' k (callBlocks s call).length).map (keystreamBlock aes iv) ∧
      Drawing aes iv (k + (callBlocks s call).length) (sendOne s call) := by
  rcases sendOne_cases s call with ⟨unsent, heap, left⟩ | ⟨payload, padding, heap, seq, -, pad, sent, left⟩
  · rw [callBlocks, unsent, left]
    exact ⟨rfl, drawing.encrypted, drawing.ctr⟩
  · obtain ⟨-, -, multiple⟩ := paddingSize_bounds s.sess.out payload.length
    have block : blockOf s.sess.out = 16 := by rw [blockOf, if_pos drawing.encrypted, SSH_CIPHER_BLOCK]
    have whole : (framed payload padding).length = 16 * ((framed payload padding).length / 16) := by
      rw [framed_length, pad]
      rw [block] at multiple
      rw [block]
      omega
    obtain ⟨blocks, later⟩ := keystream_packet drawing whole
    have drawn : callBlocks s call =
        (List.range' k ((framed payload padding).length / 16)).map (keystreamBlock aes iv) := by
      rw [callBlocks, sent]
      exact blocks
    rw [drawn, left, List.length_map, List.length_range']
    exact ⟨rfl, drawing.encrypted, later⟩

theorem run_draws (drawing : Drawing aes iv k s) (calls : List SendCall) :
    usedBlocks s calls = (List.range' k (usedBlocks s calls).length).map (keystreamBlock aes iv) ∧
      Drawing aes iv (k + (usedBlocks s calls).length) (sendAll s calls) := by
  induction calls generalizing k s with
  | nil => exact ⟨rfl, drawing⟩
  | cons call calls ih =>
    obtain ⟨first, next⟩ := sendOne_draws drawing call
    obtain ⟨rest, last⟩ := ih next
    have split : usedBlocks s (call :: calls) = callBlocks s call ++ usedBlocks (sendOne s call) calls := rfl
    rw [split, List.length_append]
    constructor
    · conv_lhs => rw [first, rest]
      rw [List.range'_append_1.symm, List.map_append]
    · rw [← Nat.add_assoc]
      exact last

/-- As many counter values from the initial one on as the run uses blocks. -/
def countersOf (s : SessState) (calls : List SendCall) : List Block :=
  (List.range (usedBlocks s calls).length).map (counterAt s.sess.out.ctr.nonceCounter)

/-- The blocks are the encryptions of successive counter values with no value and no block twice,
every packet starts on a fresh block, and the packets are what the socket was handed. -/
structure NeverReused (s : SessState) (calls : List SendCall) : Prop where
  blocks : usedBlocks s calls = (countersOf s calls).map fun ctr => (aesEncryptBlock s.sess.out.ctr.aes ctr).toList
  counters : (countersOf s calls).Nodup
  distinct : (usedBlocks s calls).Nodup
  injective : Function.Injective (aesEncryptBlock s.sess.out.ctr.aes)
  aligned : ∀ first call rest, calls = first ++ call :: rest →
    (sendAll s first).sess.out.ctr.aes = s.sess.out.ctr.aes ∧ (sendAll s first).sess.out.ctr.streamOffset = 0
  socket : ∀ first call rest, calls = first ++ call :: rest →
    (sendAll s (first ++ [call])).sess.sock = match handed (sendAll s first) call with
      | some (_, sent) => (netWriteFull (sendAll s first).sess.sock sent).2
      | none => (sendAll s first).sess.sock

/-- Fewer than 2 ^ 128 blocks under one key are all different. -/
theorem keystream_never_reused (s : SessState) (calls : List SendCall) (encrypted : s.sess.out.encrypted = true)
    (fresh : s.sess.out.ctr.streamOffset = 0) (few : (usedBlocks s calls).length < 2 ^ 128) : NeverReused s calls := by
  have start : Drawing s.sess.out.ctr.aes s.sess.out.ctr.nonceCounter 0 s :=
    ⟨encrypted, rfl, (counterAt_zero _).symm, fresh⟩
  have drawn := (run_draws start calls).1
  rw [← List.range_eq_range'] at drawn
  have counters : (countersOf s calls).Nodup := counterAt_nodup _ (Nat.le_of_lt few)
  have blocks : usedBlocks s calls = (countersOf s calls).map fun ctr => (aesEncryptBlock s.sess.out.ctr.aes ctr).toList := by
    rw [countersOf, List.map_map]
    exact drawn
  have injective := aesEncryptBlock_injective s.sess.out.ctr.aes
  refine ⟨blocks, counters, ?_, injective, ?_, ?_⟩
  · rw [blocks]
    exact counters.map fun _ _ same => injective (Vector.toList_inj.mp same)
  · intro first call rest _
    have before := (run_draws start first).2
    exact ⟨before.ctr.aes, before.ctr.fresh⟩
  · intro first call rest _
    rw [sendAll, List.foldl_append]
    exact sendOne_sock _ call

/-- A direction that encrypts under keys of zeros. -/
def zeroKeyed : SshDirection :=
  { zeroDirection with encrypted := true, ctr := (aesCtrInit (List.replicate 16 0) 128 (List.replicate 16 0)).2 }

theorem keystream_never_reused_two_calls : NeverReused (ready zeroKeyed) [newKeys, newKeys] :=
  keystream_never_reused (ready zeroKeyed) [newKeys, newKeys] rfl rfl (by decide +kernel)

end Coalesce.KeystreamUse
