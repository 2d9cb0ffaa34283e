import Coalesce.BufferReaders
import Coalesce.Session

/-! What `session_recv` does on every stream. The packet at the front of the
stream is described first, without the reads and the pieces in which they come;
then every path of the code is measured against it. -/

namespace Coalesce.SessionReceive
open Library.CallResult Library.ByteNumber Buffer BufferBytes BufferReaders Net Aes Session

/-- Length of the MAC field behind each packet. -/
def macLength (d : SshDirection) : Nat :=
  if d.encrypted = true ∧ 0 < d.macKeyLen.val then Sha256.SHA256_DIGEST_SIZE else 0

/-- HMAC of the standard over sequence number and packet. -/
def packetTag (d : SshDirection) (p : List UInt8) : List UInt8 :=
  Library.Sha2.hmacSha256 (d.macKey.toList.take d.macKeyLen.val) (beBytes 4 d.seq.toNat ++ p)

theorem packetTag_length (d : SshDirection) (p : List UInt8) : (packetTag d p).length = Sha256.SHA256_DIGEST_SIZE :=
  Library.Sha2.sha256_length _

def clearText (d : SshDirection) (bytes : List UInt8) : List UInt8 :=
  if d.encrypted then (aesCtrCrypt d.ctr bytes).1 else bytes

/-- Limits on `packet_length` in the mode of the direction. -/
def WithinLimits (d : SshDirection) (packetLength : Nat) : Prop :=
  if d.encrypted then 12 ≤ packetLength ∧ packetLength ≤ MAX_PACKET_SIZE ∧ (4 + packetLength) % 16 = 0
  else 6 ≤ packetLength ∧ packetLength ≤ MAX_PACKET_SIZE

instance (d : SshDirection) (packetLength : Nat) : Decidable (WithinLimits d packetLength) :=
  inferInstanceAs (Decidable (if d.encrypted = true
    then 12 ≤ packetLength ∧ packetLength ≤ MAX_PACKET_SIZE ∧ (4 + packetLength) % 16 = 0
    else 6 ≤ packetLength ∧ packetLength ≤ MAX_PACKET_SIZE))

/-- The stream starts with a complete packet `p` in clear that is within the limits and
carries its MAC when one is active. -/
structure Incoming (d : SshDirection) (stream p : List UInt8) : Prop where
  complete : p.length + macLength d ≤ stream.length
  clear : p = clearText d (stream.take p.length)
  field : p.length = 4 + beNat (p.take 4)
  limits : WithinLimits d (p.length - 4)
  mac : 0 < macLength d → (stream.drop p.length).take Sha256.SHA256_DIGEST_SIZE = packetTag d p

/-- `packet_length` and `padding_length` of a packet in clear. -/
def packetLength (p : List UInt8) : Nat := p.length - 4

def paddingLength (p : List UInt8) : Nat := (p.getD 4 0).toNat

/-- The bytes between header and padding. -/
def payloadOf (p : List UInt8) : List UInt8 := (p.drop 5).take (packetLength p - 1 - paddingLength p)

/-- The state with bytes read off the socket and the cipher moved on. -/
def after (s : SessState) (heap : Heap) (count : Nat) (cuts : List Nat) (ctr : AesCtrCtx) : SessState :=
  { s with
    heap := heap
    sess := { s.sess with sock := s.sess.sock.after count cuts, inn := { s.sess.inn with ctr := ctr } } }

@[simp] theorem after_after (s : SessState) (h₁ h₂ : Heap) (n₁ n₂ : Nat) (k₁ k₂ : List Nat) (c₁ c₂ : AesCtrCtx) :
    after (after s h₁ n₁ k₁ c₁) h₂ n₂ k₂ c₂ = after s h₂ (n₁ + n₂) k₂ c₂ := by
  simp [after, Socket.after, List.drop_drop]

@[simp] theorem after_heap (s : SessState) (h : Heap) (n : Nat) (k : List Nat) (c : AesCtrCtx) :
    (after s h n k c).heap = h := rfl

@[simp] theorem after_buf (s : SessState) (h : Heap) (n : Nat) (k : List Nat) (c : AesCtrCtx) :
    (after s h n k c).buf = s.buf := rfl

@[simp] theorem after_rx (s : SessState) (h : Heap) (n : Nat) (k : List Nat) (c : AesCtrCtx) :
    (after s h n k c).sess.sock.rx = s.sess.sock.rx.drop n := rfl

@[simp] theorem after_inn (s : SessState) (h : Heap) (n : Nat) (k : List Nat) (c : AesCtrCtx) :
    (after s h n k c).sess.inn = { s.sess.inn with ctr := c } := rfl

@[simp] theorem after_realloc (s : SessState) (h h' : Heap) (n : Nat) (k : List Nat) (c : AesCtrCtx) :
    { after s h n k c with heap := h' } = after s h' n k c := rfl

/-! The calls of which the receiver is made. -/

theorem readFull_cases (s : SessState) (n : Nat) :
    (n ≤ s.sess.sock.rx.length ∧
      ∃ cuts, readFull n s = .ok (s.sess.sock.rx.take n) (after s s.heap n cuts s.sess.inn.ctr)) ∨
    (s.sess.sock.rx.length < n ∧
      ∃ count cuts, readFull n s = .error .fail (after s s.heap count cuts s.sess.inn.ctr)) := by
  by_cases present : n ≤ s.sess.sock.rx.length
  · obtain ⟨cuts, whole⟩ := netReadFull_whole s.sess.sock n present
    refine Or.inl ⟨present, cuts, ?_⟩
    rw [readFull, bind_of_ok (get_apply s), whole, bind_of_ok (set_apply _ _)]
    simp only [ne_eq, not_true_eq_false, decide_false]
    rw [bind_of_ok (failIf_false _)]
    rfl
  · obtain ⟨cuts, short⟩ := netReadFull_short s.sess.sock n (by omega)
    refine Or.inr ⟨by omega, s.sess.sock.rx.length, cuts, ?_⟩
    have nonpos := endCode_nonpos s.sess.sock
    have differs : endCode s.sess.sock ≠ (n : Int) := by omega
    rw [readFull, bind_of_ok (get_apply s), short, bind_of_ok (set_apply _ _)]
    simp only [differs, ne_eq, not_false_eq_true, decide_true]
    rw [bind_of_error (failIf_true _)]
    rfl

theorem onBuf_of_ok {α : Type} {call : BufCall α} {s : SessState} {t : BufState} {value : α}
    (returned : call ⟨s.heap, s.buf⟩ = .ok value t) :
    onBuf call s = .ok value { s with heap := t.heap, buf := t.buf } := zoom_of_ok returned

theorem onBuf_of_error {α : Type} {call : BufCall α} {s : SessState} {t : BufState} {exit : Exit}
    (stopped : call ⟨s.heap, s.buf⟩ = .error exit t) :
    onBuf call s = .error exit { s with heap := t.heap, buf := t.buf } := zoom_of_error stopped

theorem onBuf_alloc_cases (s : SessState) :
    (∃ heap, onBuf alloc s = .ok () { s with heap := heap } ∧ (Plenty s.heap → Plenty heap)) ∨
    (∃ heap, onBuf alloc s = .error .fail { s with heap := heap } ∧ ¬Plenty s.heap) := by
  rcases alloc_cases ⟨s.heap, s.buf⟩ with ⟨-, given⟩ | ⟨scarce, refused⟩
  · exact Or.inl ⟨s.heap.alloc.2, onBuf_of_ok given, fun plenty => (plenty_alloc plenty).2⟩
  · exact Or.inr ⟨s.heap.alloc.2, onBuf_of_error refused, scarce⟩

theorem cryptIn_eq (s : SessState) (data : List UInt8) :
    cryptIn data s = .ok (aesCtrCrypt s.sess.inn.ctr data).1
      (after s s.heap 0 s.sess.sock.rxCuts (aesCtrCrypt s.sess.inn.ctr data).2) := rfl

theorem getBe32_toNat {p : List UInt8} (header : 4 ≤ p.length) : (getBe32 p).toNat = beNat (p.take 4) := by
  have bytes : p.take 4 = [p.getD 0 0, p.getD 1 0, p.getD 2 0, p.getD 3 0] := by
    rcases p with _ | ⟨b0, _ | ⟨b1, _ | ⟨b2, _ | ⟨b3, rest⟩⟩⟩⟩ <;> simp_all
  rw [getBe32, ofBe32_eq, ← bytes]
  exact UInt32.toNat_ofNat_of_lt' (stringLength_lt p)

/-- The comparison loop finds no difference exactly when there is none. -/
theorem ctEqual_iff {a b : List UInt8} {n : Nat} (left : a.length = n) (right : b.length = n) :
    ctEqual a b n = true ↔ a = b := by
  rw [ctEqual, beq_iff_eq, Library.Collect.differences_eq_zero left right]

theorem packetMac_eq (d : SshDirection) {p : List UInt8} (short : p.length < 2 ^ 32) :
    packetMac d p = packetTag d p := by
  have key : (d.macKey.toList.take d.macKeyLen.val).length < 2 ^ 61 := by
    rw [List.length_take, Vector.length_toList]
    exact Nat.lt_of_le_of_lt (Nat.min_le_right _ _) (by decide)
  have keyed := ((Sha256.keyed_init _ key).update (be32 d.seq)).update p
  rw [packetMac, keyed.final (by simp; omega), be32_eq]
  rfl

/-! The packet at the front is determined by its first word in clear. -/

theorem clearText_length (d : SshDirection) (bytes : List UInt8) : (clearText d bytes).length = bytes.length := by
  unfold clearText
  split
  · exact aesCtrCrypt_length _ _
  · rfl

theorem clearText_take (d : SshDirection) (bytes : List UInt8) (count : Nat) :
    (clearText d bytes).take count = clearText d (bytes.take count) := by
  unfold clearText
  split
  · by_cases inside : count ≤ bytes.length
    · conv_lhs => rw [← List.take_append_drop count bytes, aesCtrCrypt_append]
      rw [List.take_append_of_le_length (by rw [aesCtrCrypt_length, List.length_take]; omega)]
      exact List.take_of_length_le (by rw [aesCtrCrypt_length, List.length_take]; omega)
    · rw [List.take_of_length_le (by rw [aesCtrCrypt_length]; omega), List.take_of_length_le (by omega)]
  · rfl

def announced (d : SshDirection) (stream : List UInt8) : Nat := beNat (clearText d (stream.take 4))

theorem incoming_iff {d : SshDirection} {stream p : List UInt8} :
    Incoming d stream p ↔
      p = clearText d (stream.take (4 + announced d stream)) ∧ WithinLimits d (announced d stream) ∧
        4 + announced d stream + macLength d ≤ stream.length ∧
        (0 < macLength d →
          (stream.drop (4 + announced d stream)).take Sha256.SHA256_DIGEST_SIZE = packetTag d p) := by
  have word : ∀ count, 4 ≤ count → (clearText d (stream.take count)).take 4 = clearText d (stream.take 4) := by
    intro count long
    rw [clearText_take, List.take_take, Nat.min_eq_left long]
  constructor
  · intro incoming
    have length := incoming.field
    have clear := incoming.clear
    have front := word p.length (by omega)
    rw [← clear] at front
    have size : p.length = 4 + announced d stream := by rw [announced, ← front, ← length]
    have limits := incoming.limits
    have complete := incoming.complete
    have mac := incoming.mac
    rw [size] at clear complete mac
    rw [size, Nat.add_sub_cancel_left] at limits
    exact ⟨clear, limits, complete, mac⟩
  · rintro ⟨clear, limits, complete, mac⟩
    have size : p.length = 4 + announced d stream := by
      rw [clear, clearText_length, List.length_take]
      omega
    refine ⟨by rw [size]; exact complete, by rw [size]; exact clear, ?_, ?_, by rw [size]; exact mac⟩
    · rw [size, announced, clear, word _ (by omega)]
    · rw [size, Nat.add_sub_cancel_left]
      exact limits

theorem Incoming.length {d : SshDirection} {stream p : List UInt8} (incoming : Incoming d stream p) :
    p.length = 4 + announced d stream := by
  obtain ⟨clear, -, complete, -⟩ := incoming_iff.mp incoming
  rw [clear, clearText_length, List.length_take]
  omega

/-- There is one packet at most. -/
theorem Incoming.unique {d : SshDirection} {stream p q : List UInt8} (first : Incoming d stream p)
    (second : Incoming d stream q) : p = q := by
  rw [(incoming_iff.mp first).1, (incoming_iff.mp second).1]

theorem Incoming.bounds {d : SshDirection} {stream p : List UInt8} (incoming : Incoming d stream p) :
    10 ≤ p.length ∧ p.length ≤ 35004 := by
  have field := incoming.field
  have limits := incoming.limits
  unfold WithinLimits MAX_PACKET_SIZE at limits
  split at limits <;> omega

/-- The cipher state behind a packet. -/
def ctrBehind (d : SshDirection) (p : List UInt8) : AesCtrCtx :=
  if d.encrypted then (aesCtrCrypt d.ctr p).2 else d.ctr

/-- How the reads of one packet end. -/
def PacketCases (s : SessState) (result : EStateM.Result Exit SessState (List UInt8)) : Prop :=
  (∃ p heap cuts, Incoming s.sess.inn s.sess.sock.rx p ∧ (Plenty s.heap → Plenty heap) ∧
    result = .ok p (after s heap (p.length + macLength s.sess.inn) cuts (ctrBehind s.sess.inn p))) ∨
  ((Plenty s.heap → ∀ p, ¬Incoming s.sess.inn s.sess.sock.rx p) ∧
    ∃ heap count cuts ctr, result = .error .fail (after s heap count cuts ctr))

theorem recvPlain_cases (s : SessState) (plain : s.sess.inn.encrypted = false) : PacketCases s (recvPlain s) := by
  have clear : ∀ bytes, clearText s.sess.inn bytes = bytes := fun bytes => by simp [clearText, plain]
  have noMac : macLength s.sess.inn = 0 := by simp [macLength, plain]
  have ctr : ∀ p, ctrBehind s.sess.inn p = s.sess.inn.ctr := fun p => by simp [ctrBehind, plain]
  have sought : ∀ p, Incoming s.sess.inn s.sess.sock.rx p ↔
      p = s.sess.sock.rx.take (4 + announced s.sess.inn s.sess.sock.rx) ∧
        (6 ≤ announced s.sess.inn s.sess.sock.rx ∧ announced s.sess.inn s.sess.sock.rx ≤ MAX_PACKET_SIZE) ∧
        4 + announced s.sess.inn s.sess.sock.rx ≤ s.sess.sock.rx.length := by
    intro p
    rw [incoming_iff]
    simp [clear, noMac, WithinLimits, plain]
  unfold PacketCases
  simp only [sought, noMac, ctr, Nat.add_zero]
  have word : announced s.sess.inn s.sess.sock.rx = beNat (s.sess.sock.rx.take 4) := by rw [announced, clear]
  generalize announced s.sess.inn s.sess.sock.rx = n at *
  rw [recvPlain]
  rcases readFull_cases s 4 with ⟨header, cuts, read⟩ | ⟨short, count, cuts, failed⟩
  swap
  · exact Or.inr ⟨fun _ p found => by omega, s.heap, count, cuts, s.sess.inn.ctr, bind_of_error failed⟩
  have field : (getBe32 (s.sess.sock.rx.take 4)).toNat = n := by
    rw [getBe32_toNat (by rw [List.length_take]; omega), List.take_take, Nat.min_self, word]
  rw [bind_of_ok read]
  simp only [field]
  cases limits : (decide (n < 6) || decide (n > MAX_PACKET_SIZE)) with
  | true =>
    rw [bind_of_error (failIf_true _)]
    rw [Bool.or_eq_true, decide_eq_true_eq, decide_eq_true_eq] at limits
    exact Or.inr ⟨fun _ p found => by omega, s.heap, 4, cuts, s.sess.inn.ctr, rfl⟩
  | false =>
    rw [bind_of_ok (failIf_false _)]
    rw [Bool.or_eq_false_iff, decide_eq_false_iff_not, decide_eq_false_iff_not] at limits
    rcases onBuf_alloc_cases (after s s.heap 4 cuts s.sess.inn.ctr) with ⟨heap, given, keeps⟩ | ⟨heap, refused, scarce⟩
    swap
    · exact Or.inr ⟨fun plenty => absurd plenty scarce, heap, 4, cuts, s.sess.inn.ctr, bind_of_error refused⟩
    rw [bind_of_ok given]
    rcases readFull_cases (after s heap 4 cuts s.sess.inn.ctr) n with ⟨body, cuts, read⟩ | ⟨short, count, cuts, failed⟩
    · rw [after_rx, List.length_drop] at body
      refine Or.inl ⟨_, heap, cuts, ⟨rfl, ⟨by omega, by omega⟩, by omega⟩, keeps, ?_⟩
      have size : (s.sess.sock.rx.take (4 + n)).length = 4 + n := by
        rw [List.length_take]
        omega
      rw [after_rx, after_after] at read
      rw [size, List.take_add]
      exact bind_of_ok read
    · rw [after_rx, List.length_drop] at short
      rw [after_after] at failed
      exact Or.inr ⟨fun _ p found => by omega, heap, 4 + count, cuts, s.sess.inn.ctr, bind_of_error failed⟩

theorem checkMac_cases (s : SessState) {p : List UInt8} (encrypted : s.sess.inn.encrypted = true)
    (short : p.length < 2 ^ 32) :
    ((macLength s.sess.inn ≤ s.sess.sock.rx.length ∧
        (0 < macLength s.sess.inn → s.sess.sock.rx.take Sha256.SHA256_DIGEST_SIZE = packetTag s.sess.inn p)) ∧
      ∃ cuts, checkMac p s = .ok () (after s s.heap (macLength s.sess.inn) cuts s.sess.inn.ctr)) ∨
    (¬(macLength s.sess.inn ≤ s.sess.sock.rx.length ∧
        (0 < macLength s.sess.inn → s.sess.sock.rx.take Sha256.SHA256_DIGEST_SIZE = packetTag s.sess.inn p)) ∧
      ∃ count cuts, checkMac p s = .error .fail (after s s.heap count cuts s.sess.inn.ctr)) := by
  by_cases active : s.sess.inn.macKeyLen.val > 0
  · have length : macLength s.sess.inn = Sha256.SHA256_DIGEST_SIZE := by simp [macLength, encrypted, active]
    have positive : 0 < Sha256.SHA256_DIGEST_SIZE := by decide
    rw [checkMac, bind_of_ok (get_apply s), if_pos active, length]
    rcases readFull_cases s Sha256.SHA256_DIGEST_SIZE with ⟨present, cuts, read⟩ | ⟨absent, count, cuts, failed⟩
    · rw [bind_of_ok read]
      have compare := ctEqual_iff (a := packetMac s.sess.inn p) (b := s.sess.sock.rx.take Sha256.SHA256_DIGEST_SIZE)
        (Sha256.hmacSha256Final_length _) (by rw [List.length_take]; omega)
      rw [packetMac_eq _ short] at compare
      rw [packetMac_eq _ short]
      cases same : ctEqual (packetTag s.sess.inn p) (s.sess.sock.rx.take Sha256.SHA256_DIGEST_SIZE)
          Sha256.SHA256_DIGEST_SIZE with
      | true => exact Or.inl ⟨⟨present, fun _ => (compare.mp same).symm⟩, cuts, rfl⟩
      | false =>
        refine Or.inr ⟨fun ⟨_, equal⟩ => ?_, _, cuts, rfl⟩
        rw [compare.mpr (equal positive).symm] at same
        exact absurd same (by decide)
    · exact Or.inr ⟨fun ⟨present, _⟩ => by omega, count, cuts, bind_of_error failed⟩
  · have length : macLength s.sess.inn = 0 := by simp [macLength, active]
    refine Or.inl ⟨⟨by omega, fun positive => by omega⟩, s.sess.sock.rxCuts, ?_⟩
    rw [checkMac, bind_of_ok (get_apply s), if_neg active, length]
    rfl

/-- What is left to do once the whole packet is decrypted. -/
private theorem authenticate_cases (s : SessState) {heap : Heap} {cuts : List Nat} {p : List UInt8}
    (encrypted : s.sess.inn.encrypted = true)
    (clear : p = clearText s.sess.inn (s.sess.sock.rx.take (4 + announced s.sess.inn s.sess.sock.rx)))
    (limits : WithinLimits s.sess.inn (announced s.sess.inn s.sess.sock.rx))
    (size : p.length = 4 + announced s.sess.inn s.sess.sock.rx) (short : p.length < 2 ^ 32)
    (keeps : Plenty s.heap → Plenty heap) {result : EStateM.Result Exit SessState (List UInt8)}
    (same : result = (checkMac p >>= fun _ => pure p) (after s heap p.length cuts (ctrBehind s.sess.inn p))) :
    PacketCases s result := by
  have whole : p.length ≤ s.sess.sock.rx.length := by
    have taken := congrArg List.length clear
    rw [clearText_length, List.length_take] at taken
    omega
  rcases checkMac_cases (after s heap p.length cuts (ctrBehind s.sess.inn p)) encrypted short with
    ⟨⟨present, mac⟩, cuts, checked⟩ | ⟨wrong, count, cuts, failed⟩
  · change macLength s.sess.inn ≤ (s.sess.sock.rx.drop p.length).length at present
    rw [List.length_drop] at present
    refine Or.inl ⟨p, heap, cuts, incoming_iff.mpr ⟨clear, limits, ?_, ?_⟩, keeps, ?_⟩
    · omega
    · rw [← size]
      exact mac
    · rw [same, bind_of_ok checked, after_after]
      rfl
  · refine Or.inr ⟨fun _ q found => wrong ?_, heap, p.length + count, cuts, ctrBehind s.sess.inn p, ?_⟩
    · obtain ⟨clearQ, -, complete, mac⟩ := incoming_iff.mp found
      rw [clearQ, ← clear, ← size] at mac
      refine ⟨?_, mac⟩
      change macLength s.sess.inn ≤ (s.sess.sock.rx.drop p.length).length
      rw [List.length_drop]
      omega
    · rw [same, bind_of_error failed, after_after]
      rfl

private theorem block_multiple {word : UInt32} (_small : word.toNat ≤ MAX_PACKET_SIZE) :
    (4 + word) % 16 = 0 ↔ (4 + word.toNat) % 16 = 0 := by
  unfold MAX_PACKET_SIZE at _small
  rw [← UInt32.toNat_inj, UInt32.toNat_mod, UInt32.toNat_add]
  simp only [UInt32.reduceToNat]
  omega

/-- What is left to do once the first block is decrypted and the length in it is within the
limits: the rest of the packet, if there is more of it, and the MAC. -/
private theorem remainder_cases (s : SessState) {n : Nat} {heap : Heap} {cuts : List Nat}
    (encrypted : s.sess.inn.encrypted = true) (field : announced s.sess.inn s.sess.sock.rx = n) (least : 12 ≤ n)
    (small : n ≤ MAX_PACKET_SIZE) (blocks : (4 + n) % 16 = 0) (present : 16 ≤ s.sess.sock.rx.length)
    (keeps : Plenty s.heap → Plenty heap) :
    PacketCases s ((if 4 + n - 16 > 0 then do
        let cipher ← readFull (4 + n - 16)
        let tail ← cryptIn cipher
        checkMac ((aesCtrCrypt s.sess.inn.ctr (s.sess.sock.rx.take 16)).1 ++ tail)
        pure ((aesCtrCrypt s.sess.inn.ctr (s.sess.sock.rx.take 16)).1 ++ tail)
      else do
        checkMac (aesCtrCrypt s.sess.inn.ctr (s.sess.sock.rx.take 16)).1
        pure (aesCtrCrypt s.sess.inn.ctr (s.sess.sock.rx.take 16)).1)
      (after s heap 16 cuts (aesCtrCrypt s.sess.inn.ctr (s.sess.sock.rx.take 16)).2)) := by
  have clear : ∀ bytes, clearText s.sess.inn bytes = (aesCtrCrypt s.sess.inn.ctr bytes).1 :=
    fun bytes => by simp [clearText, encrypted]
  have ctr : ∀ p, ctrBehind s.sess.inn p = (aesCtrCrypt s.sess.inn.ctr p).2 := fun p => by simp [ctrBehind, encrypted]
  have limits : WithinLimits s.sess.inn n := by
    simp only [WithinLimits, encrypted, if_true]
    exact ⟨least, small, blocks⟩
  have finish := fun heap cuts p => @authenticate_cases s heap cuts p encrypted
  have numeral : MAX_PACKET_SIZE = 35000 := rfl
  simp only [clear, ctr, field] at finish
  by_cases more : 4 + n - 16 > 0
  · rw [if_pos more]
    rcases readFull_cases (after s heap 16 cuts (aesCtrCrypt s.sess.inn.ctr (s.sess.sock.rx.take 16)).2) (4 + n - 16) with
      ⟨body, cuts, read⟩ | ⟨short, count, cuts, failed⟩
    · rw [after_rx, List.length_drop] at body
      rw [after_rx, after_heap, after_after, after_inn, Nat.add_sub_cancel' (by omega)] at read
      have halves : s.sess.sock.rx.take (4 + n) =
          s.sess.sock.rx.take 16 ++ (s.sess.sock.rx.drop 16).take (4 + n - 16) := by
        rw [← List.take_add, Nat.add_sub_cancel' (by omega)]
      have joined := aesCtrCrypt_append s.sess.inn.ctr (s.sess.sock.rx.take 16)
        ((s.sess.sock.rx.drop 16).take (4 + n - 16))
      simp only [← halves, Prod.ext_iff] at joined
      have size : (aesCtrCrypt s.sess.inn.ctr (s.sess.sock.rx.take (4 + n))).1.length = 4 + n := by
        rw [aesCtrCrypt_length, List.length_take]
        omega
      rw [bind_of_ok read, bind_of_ok (cryptIn_eq _ _)]
      simp only [after_inn, after_after, after_heap]
      simp only [← joined.1, ← joined.2]
      refine finish heap cuts _ rfl limits size (by omega) keeps ?_
      rw [size, aesCtrCrypt_state _ (aesCtrCrypt _ _).1, aesCtrCrypt_length, ← aesCtrCrypt_state]
      rfl
    · rw [after_rx, List.length_drop] at short
      rw [after_heap, after_after] at failed
      refine Or.inr ⟨fun _ p found => ?_, heap, _, _, _, bind_of_error failed⟩
      obtain ⟨-, -, complete, -⟩ := incoming_iff.mp found
      omega
  · have last : 4 + n = 16 := by omega
    have size : (aesCtrCrypt s.sess.inn.ctr (s.sess.sock.rx.take 16)).1.length = 16 := by
      rw [aesCtrCrypt_length, List.length_take]
      omega
    rw [if_neg more]
    refine finish heap cuts _ (by rw [last]) limits (by omega) (by omega) keeps ?_
    rw [size, aesCtrCrypt_state _ (aesCtrCrypt _ _).1, aesCtrCrypt_length, aesCtrCrypt_state]

theorem recvEncrypted_cases (s : SessState) (encrypted : s.sess.inn.encrypted = true) :
    PacketCases s (recvEncrypted s) := by
  have clear : ∀ bytes, clearText s.sess.inn bytes = (aesCtrCrypt s.sess.inn.ctr bytes).1 :=
    fun bytes => by simp [clearText, encrypted]
  have barred : ¬((12 ≤ announced s.sess.inn s.sess.sock.rx ∧ announced s.sess.inn s.sess.sock.rx ≤ MAX_PACKET_SIZE ∧
      (4 + announced s.sess.inn s.sess.sock.rx) % 16 = 0) ∧
      4 + announced s.sess.inn s.sess.sock.rx ≤ s.sess.sock.rx.length) → ∀ p, ¬Incoming s.sess.inn s.sess.sock.rx p := by
    intro outside p found
    obtain ⟨-, limits, complete, -⟩ := incoming_iff.mp found
    exact outside ⟨by simpa [WithinLimits, encrypted] using limits, by omega⟩
  have word : announced s.sess.inn s.sess.sock.rx = beNat ((aesCtrCrypt s.sess.inn.ctr (s.sess.sock.rx.take 16)).1.take 4) := by
    rw [announced, ← clear, clearText_take, List.take_take, Nat.min_eq_left (by decide)]
  have remainder (n : Nat) (heap : Heap) (cuts : List Nat) := @remainder_cases s n heap cuts encrypted
  generalize announced s.sess.inn s.sess.sock.rx = n at *
  rw [recvEncrypted, SSH_CIPHER_BLOCK]
  rcases readFull_cases s 16 with ⟨header, cuts, read⟩ | ⟨short, count, cuts, failed⟩
  swap
  · exact Or.inr ⟨fun _ => barred (by omega), s.heap, count, cuts, s.sess.inn.ctr, bind_of_error failed⟩
  have field : (getBe32 (aesCtrCrypt s.sess.inn.ctr (s.sess.sock.rx.take 16)).1).toNat = n := by
    rw [getBe32_toNat (by rw [aesCtrCrypt_length, List.length_take]; omega), word]
  rw [bind_of_ok read, bind_of_ok (cryptIn_eq _ _)]
  simp only [after_inn, after_after, after_heap, field]
  cases limits : (decide (n < 12) || decide (n > MAX_PACKET_SIZE)) with
  | true =>
    rw [bind_of_error (failIf_true _)]
    rw [Bool.or_eq_true, decide_eq_true_eq, decide_eq_true_eq] at limits
    exact Or.inr ⟨fun _ => barred (by omega), _, _, _, _, rfl⟩
  | false =>
    rw [bind_of_ok (failIf_false _)]
    rw [Bool.or_eq_false_iff, decide_eq_false_iff_not, decide_eq_false_iff_not] at limits
    have multiple := @block_multiple (getBe32 (aesCtrCrypt s.sess.inn.ctr (s.sess.sock.rx.take 16)).1) (by omega)
    simp only [field] at multiple
    simp only [ne_eq, multiple]
    generalize (after s s.heap 16 cuts s.sess.inn.ctr).sess.sock.rxCuts = cuts
    by_cases blocks : (4 + n) % 16 = 0
    swap
    · rw [decide_eq_true blocks, bind_of_error (failIf_true _)]
      exact Or.inr ⟨fun _ => barred (by omega), _, _, _, _, rfl⟩
    rw [decide_eq_false (not_not.mpr blocks), bind_of_ok (failIf_false _)]
    rcases onBuf_alloc_cases (after s s.heap (16 + 0) cuts (aesCtrCrypt s.sess.inn.ctr (s.sess.sock.rx.take 16)).2) with
      ⟨heap, given, keeps⟩ | ⟨heap, refused, scarce⟩
    swap
    · exact Or.inr ⟨fun plenty => absurd plenty scarce, heap, _, _, _, bind_of_error refused⟩
    rw [after_realloc] at given
    rw [bind_of_ok given]
    exact remainder n heap cuts rfl (by omega) (by omega) blocks header keeps

theorem recvPacket_cases (s : SessState) : PacketCases s (recvPacket s) := by
  rw [recvPacket, bind_of_ok (get_apply s)]
  cases mode : s.sess.inn.encrypted with
  | true => exact recvEncrypted_cases s mode
  | false => exact recvPlain_cases s mode

end Coalesce.SessionReceive
