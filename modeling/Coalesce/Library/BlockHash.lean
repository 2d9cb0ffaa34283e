import Mathlib.Data.List.Basic

/-! Iterated hash functions: a compression function folded over the blocks of a
padded message, and the buffered form that takes the message in pieces. -/

namespace Coalesce.Library.BlockHash

variable {σ : Type} (compress : σ → List UInt8 → σ) (size : Nat)

/-- Folds over whole blocks and returns the unused tail. -/
def foldBlocks (s : σ) (message : List UInt8) : σ × List UInt8 :=
  if 0 < size ∧ size ≤ message.length then
    foldBlocks (compress s (message.take size)) (message.drop size)
  else (s, message)
termination_by message.length
decreasing_by
  simp only [List.length_drop]
  omega

theorem foldBlocks_short (s : σ) (message : List UInt8) (short : message.length < size) :
    foldBlocks compress size s message = (s, message) := by
  unfold foldBlocks
  exact if_neg (by omega)

theorem foldBlocks_step (s : σ) (block rest : List UInt8) (positive : 0 < size)
    (whole : block.length = size) :
    foldBlocks compress size s (block ++ rest) = foldBlocks compress size (compress s block) rest := by
  conv_lhs => unfold foldBlocks
  subst whole
  rw [if_pos ⟨positive, by simp⟩, List.take_left, List.drop_left]

theorem foldBlocks_append (s : σ) (first second : List UInt8) :
    foldBlocks compress size s (first ++ second) =
      foldBlocks compress size (foldBlocks compress size s first).1
        ((foldBlocks compress size s first).2 ++ second) := by
  induction s, first using foldBlocks.induct compress size with
  | case1 s first whole ih =>
    have split : first ++ second = first.take size ++ (first.drop size ++ second) := by
      rw [← List.append_assoc, List.take_append_drop]
    have length : (first.take size).length = size := by
      rw [List.length_take]
      omega
    have first_fold : foldBlocks compress size s first =
        foldBlocks compress size (compress s (first.take size)) (first.drop size) := by
      conv_lhs => unfold foldBlocks
      rw [if_pos whole]
    rw [split, foldBlocks_step compress size s _ _ whole.1 length, ih, first_fold]
  | case2 s first short =>
    have first_fold : foldBlocks compress size s first = (s, first) := by
      unfold foldBlocks
      rw [if_neg short]
    rw [first_fold]

/-- Only the values on whole blocks matter. -/
theorem foldBlocks_congr (other : σ → List UInt8 → σ)
    (agree : ∀ s block, block.length = size → compress s block = other s block) (s : σ) (message : List UInt8) :
    foldBlocks compress size s message = foldBlocks other size s message := by
  induction s, message using foldBlocks.induct compress size with
  | case1 s message whole ih =>
    unfold foldBlocks
    rw [if_pos whole, if_pos whole, ih, agree s _ (by rw [List.length_take]; omega)]
  | case2 s message short =>
    unfold foldBlocks
    rw [if_neg short, if_neg short]

theorem foldBlocks_tail_length (s : σ) (message : List UInt8) (positive : 0 < size) :
    (foldBlocks compress size s message).2.length = message.length % size := by
  induction s, message using foldBlocks.induct compress size with
  | case1 s message whole ih =>
    unfold foldBlocks
    rw [if_pos whole, ih, List.length_drop, ← Nat.mod_eq_sub_mod whole.2]
  | case2 s message short =>
    have small : message.length < size := by omega
    rw [foldBlocks_short compress size s message small]
    exact (Nat.mod_eq_of_lt small).symm

theorem foldBlocks_tail_lt (s : σ) (message : List UInt8) (positive : 0 < size) :
    (foldBlocks compress size s message).2.length < size := by
  rw [foldBlocks_tail_length compress size s message positive]
  exact Nat.mod_lt _ positive

/-- A block buffer: `buf` is a whole block of storage, `buflen` bytes of it in use. -/
structure Hasher (σ : Type) where
  state : σ
  buf : List UInt8
  buflen : Nat

/-- `memcpy` into the buffer. -/
def copyAt (buf : List UInt8) (start : Nat) (bytes : List UInt8) : List UInt8 :=
  buf.take start ++ bytes ++ buf.drop (start + bytes.length)

theorem copyAt_length (buf bytes : List UInt8) (start : Nat) (fits : start + bytes.length ≤ buf.length) :
    (copyAt buf start bytes).length = buf.length := by
  simp only [copyAt, List.length_append, List.length_take, List.length_drop]
  omega

theorem copyAt_take (buf bytes : List UInt8) (start : Nat) (fits : start ≤ buf.length) :
    (copyAt buf start bytes).take (start + bytes.length) = buf.take start ++ bytes := by
  have length : (buf.take start ++ bytes).length = start + bytes.length := by
    rw [List.length_append, List.length_take, Nat.min_eq_left fits]
  rw [copyAt, ← length, List.take_left]

/-- A started block is topped up first, and compressed once it is full. -/
def topUp (h : Hasher σ) (data : List UInt8) : Hasher σ × List UInt8 :=
  if h.buflen > 0 then
    let take := min data.length (size - h.buflen)
    let buf := copyAt h.buf h.buflen (data.take take)
    if h.buflen + take = size then (⟨compress h.state buf, buf, 0⟩, data.drop take)
    else (⟨h.state, buf, h.buflen + take⟩, data.drop take)
  else (h, data)

/-- Whole blocks are taken straight from the data; a tail is stored. -/
def takeBlocks (h : Hasher σ) (data : List UInt8) : Hasher σ :=
  let folded := foldBlocks compress size h.state data
  if folded.2.length > 0 then ⟨folded.1, copyAt h.buf 0 folded.2, folded.2.length⟩
  else ⟨folded.1, h.buf, h.buflen⟩

def absorb (h : Hasher σ) (data : List UInt8) : Hasher σ :=
  let topped := topUp compress size h data
  takeBlocks compress size topped.1 topped.2

/-- The hasher has taken exactly the message: whole blocks are in the state, the
rest is in the buffer. -/
structure Holds (start : σ) (h : Hasher σ) (message : List UInt8) : Prop where
  storage : h.buf.length = size
  state : (foldBlocks compress size start message).1 = h.state
  tail : (foldBlocks compress size start message).2 = h.buf.take h.buflen
  room : h.buflen < size

variable {compress size}

theorem Holds.tail_length {start : σ} {h : Hasher σ} {message : List UInt8}
    (holds : Holds compress size start h message) :
    (foldBlocks compress size start message).2.length = h.buflen := by
  have room := holds.room
  rw [holds.tail, List.length_take, holds.storage]
  omega

theorem Holds.empty (start : σ) (buf : List UInt8) (storage : buf.length = size) (positive : 0 < size) :
    Holds compress size start ⟨start, buf, 0⟩ [] := by
  have short := foldBlocks_short compress size start [] (by simpa using positive)
  exact ⟨storage, by rw [short], by rw [short]; simp, positive⟩

/-- The fold over the stored tail and new data, started from the hasher's state. -/
theorem Holds.append_fold {start : σ} {h : Hasher σ} {message : List UInt8}
    (holds : Holds compress size start h message) (data : List UInt8) :
    foldBlocks compress size start (message ++ data) =
      foldBlocks compress size h.state (h.buf.take h.buflen ++ data) := by
  rw [foldBlocks_append, holds.state, holds.tail]

/-- Topping up takes the front of the data. Either the buffer is empty then, or
the data is used up. -/
theorem Holds.topUp {start : σ} {h : Hasher σ} {message : List UInt8}
    (holds : Holds compress size start h message) (data : List UInt8) :
    ∃ used, data = used ++ (topUp compress size h data).2 ∧
      Holds compress size start (topUp compress size h data).1 (message ++ used) ∧
      ((BlockHash.topUp compress size h data).1.buflen = 0 ∨ (BlockHash.topUp compress size h data).2 = []) := by
  have room := holds.room
  have storage := holds.storage
  unfold BlockHash.topUp
  by_cases started : h.buflen > 0
  · simp only [if_pos started]
    by_cases full : size - h.buflen ≤ data.length
    · rw [Nat.min_eq_right full, if_pos (by omega)]
      refine ⟨data.take (size - h.buflen), (List.take_append_drop _ _).symm, ?_, Or.inl rfl⟩
      have taken : (data.take (size - h.buflen)).length = size - h.buflen := by
        rw [List.length_take, Nat.min_eq_left full]
      generalize data.take (size - h.buflen) = used at taken
      have length : (copyAt h.buf h.buflen used).length = size := by
        rw [copyAt_length _ _ _ (by omega), storage]
      have block : copyAt h.buf h.buflen used = h.buf.take h.buflen ++ used := by
        have stored := copyAt_take h.buf used h.buflen (by omega)
        rwa [taken, Nat.add_sub_cancel' (by omega), ← length, List.take_length] at stored
      have fold := holds.append_fold used
      rw [← block, ← List.append_nil (copyAt h.buf h.buflen used),
        foldBlocks_step _ _ _ _ _ (by omega) length, foldBlocks_short _ _ _ [] (by simp; omega)] at fold
      exact ⟨length, by rw [fold], by rw [fold, List.take_zero], by simp only; omega⟩
    · rw [Nat.min_eq_left (by omega), if_neg (by omega), List.take_length, List.drop_length]
      refine ⟨data, by simp, ?_, Or.inr rfl⟩
      have fold := holds.append_fold data
      have short := foldBlocks_short compress size h.state (h.buf.take h.buflen ++ data)
        (by rw [List.length_append, List.length_take]; omega)
      rw [short] at fold
      exact ⟨by rw [copyAt_length _ _ _ (by omega), storage], by rw [fold],
        by rw [fold, copyAt_take _ _ _ (by omega)], by simp only; omega⟩
  · simp only [if_neg started]
    exact ⟨[], by simp, by simpa using holds, Or.inl (by omega)⟩

theorem Holds.takeBlocks {start : σ} {h : Hasher σ} {message : List UInt8}
    (holds : Holds compress size start h message) (data : List UInt8)
    (idle : h.buflen = 0 ∨ data = []) :
    Holds compress size start (takeBlocks compress size h data) (message ++ data) := by
  have positive : 0 < size := Nat.lt_of_le_of_lt (Nat.zero_le _) holds.room
  rcases idle with empty | rfl
  · have fold := holds.append_fold data
    have small := foldBlocks_tail_lt compress size h.state data positive
    rw [empty, List.take_zero, List.nil_append] at fold
    unfold BlockHash.takeBlocks
    rw [← fold] at small ⊢
    by_cases left : (foldBlocks compress size start (message ++ data)).2.length > 0
    · simp only [if_pos left]
      have stored := copyAt_take h.buf (foldBlocks compress size start (message ++ data)).2 0 (Nat.zero_le _)
      rw [Nat.zero_add, List.take_zero, List.nil_append] at stored
      have storage := holds.storage
      exact ⟨by rw [copyAt_length _ _ _ (by omega), storage], rfl, stored.symm, small⟩
    · simp only [if_neg left]
      have none := List.eq_nil_of_length_eq_zero (Nat.eq_zero_of_not_pos left)
      exact ⟨holds.storage, rfl, by rw [none, empty, List.take_zero], holds.room⟩
  · unfold BlockHash.takeBlocks
    rw [foldBlocks_short _ _ _ [] (by simpa using positive)]
    simpa using holds

theorem Holds.absorb {start : σ} {h : Hasher σ} {message : List UInt8}
    (holds : Holds compress size start h message) (data : List UInt8) :
    Holds compress size start (absorb compress size h data) (message ++ data) := by
  obtain ⟨used, split, topped, idle⟩ := holds.topUp data
  have taken := topped.takeBlocks _ idle
  rwa [List.append_assoc, ← split] at taken

/-- The end of a padded message: one bit, zeros up to a whole number of blocks,
and the length field. -/
def padding (size : Nat) (length : Nat) (field : List UInt8) : List UInt8 :=
  0x80 :: List.replicate ((size - (length + 1 + field.length) % size) % size) 0 ++ field

/-- `0x80`, zeros and the length field are written into the buffer; a block that
has no room for the field is compressed first. -/
def finish (compress : σ → List UInt8 → σ) (size : Nat) (h : Hasher σ) (field : List UInt8) : σ :=
  let room := size - field.length
  let buf := copyAt h.buf h.buflen [0x80]
  let buflen := h.buflen + 1
  let spilled : Hasher σ :=
    if buflen > room then
      let buf := copyAt buf buflen (List.replicate (size - buflen) 0)
      ⟨compress h.state buf, buf, 0⟩
    else ⟨h.state, buf, buflen⟩
  let buf := copyAt spilled.buf spilled.buflen (List.replicate (room - spilled.buflen) 0)
  compress spilled.state (copyAt buf room field)

/-- Bytes copied up to the end of the buffer leave nothing of it behind them. -/
theorem copyAt_full (buf bytes : List UInt8) (start : Nat) (full : start + bytes.length = buf.length) :
    copyAt buf start bytes = buf.take start ++ bytes := by
  have stored := copyAt_take buf bytes start (by omega)
  have length := copyAt_length buf bytes start (by omega)
  rwa [full, ← length, List.take_length] at stored

variable {start : σ} {h : Hasher σ} {message : List UInt8}

/-- The message bytes still in the buffer, then `0x80`. -/
private theorem Holds.marked (holds : Holds compress size start h message) :
    (copyAt h.buf h.buflen [0x80]).length = size ∧
      (copyAt h.buf h.buflen [0x80]).take (h.buflen + 1) = h.buf.take h.buflen ++ [0x80] := by
  have room := holds.room
  have storage := holds.storage
  exact ⟨by rw [copyAt_length _ _ _ (by simp; omega), storage], copyAt_take h.buf [0x80] h.buflen (by omega)⟩

/-- Zeros up to the field and the field fill the buffer. -/
private theorem zeros_field (buf : List UInt8) (used : Nat) (field : List UInt8)
    (storage : buf.length = size) (fits : used + field.length ≤ size) :
    copyAt (copyAt buf used (List.replicate (size - field.length - used) 0)) (size - field.length) field =
      buf.take used ++ List.replicate (size - field.length - used) 0 ++ field := by
  have length : (copyAt buf used (List.replicate (size - field.length - used) 0)).length = size := by
    rw [copyAt_length _ _ _ (by rw [List.length_replicate]; omega), storage]
  have zeros := copyAt_take buf (List.replicate (size - field.length - used) 0) used (by omega)
  rw [List.length_replicate, show used + (size - field.length - used) = size - field.length by omega] at zeros
  rw [copyAt_full _ _ _ (by omega), zeros]

private theorem zeros_within (used : Nat) (positive : 0 < used) (fits : used ≤ size) :
    (size - used % size) % size = size - used := by
  rcases Nat.lt_or_eq_of_le fits with less | rfl
  · rw [Nat.mod_eq_of_lt less, Nat.mod_eq_of_lt (by omega)]
  · simp

private theorem zeros_beyond (used : Nat) (more : size < used) (fits : used ≤ 2 * size) :
    (size - used % size) % size = 2 * size - used := by
  have reduced : used % size = (used - size) % size := Nat.mod_eq_sub_mod (by omega)
  rw [reduced, zeros_within (used - size) (by omega) (by omega)]
  omega

private theorem foldBlocks_one (s : σ) (block : List UInt8) (positive : 0 < size)
    (whole : block.length = size) : foldBlocks compress size s block = (compress s block, []) := by
  have step := foldBlocks_step compress size s block [] positive whole
  rwa [List.append_nil, foldBlocks_short compress size _ [] positive] at step

/-- Finishing a hasher folds the padded message. -/
theorem Holds.finish (holds : Holds compress size start h message) (field : List UInt8)
    (fits : field.length < size) :
    finish compress size h field =
      (foldBlocks compress size start (message ++ padding size message.length field)).1 := by
  have room := holds.room
  have positive : 0 < size := by omega
  obtain ⟨storage, marked⟩ := holds.marked
  have kept : (h.buf.take h.buflen).length = h.buflen := by
    rw [List.length_take, holds.storage]
    omega
  have tail : message.length % size = h.buflen := by
    rw [← foldBlocks_tail_length compress size start message positive, holds.tail_length]
  have used : (message.length + 1 + field.length) % size = (h.buflen + 1 + field.length) % size := by
    rw [← tail, Nat.add_assoc, Nat.add_assoc, Nat.mod_add_mod]
  rw [holds.append_fold, padding, used]
  unfold BlockHash.finish
  by_cases spill : h.buflen + 1 > size - field.length
  · -- two blocks: zeros to the end of the first, zeros and the field in the second
    have first : copyAt (copyAt h.buf h.buflen [0x80]) (h.buflen + 1) (List.replicate (size - (h.buflen + 1)) 0) =
        h.buf.take h.buflen ++ [0x80] ++ List.replicate (size - (h.buflen + 1)) 0 := by
      rw [copyAt_full _ _ _ (by rw [List.length_replicate, storage]; omega), marked]
    have whole : (h.buf.take h.buflen ++ [0x80] ++ List.replicate (size - (h.buflen + 1)) 0).length = size := by
      simp only [List.length_append, List.length_replicate, List.length_singleton, kept]
      omega
    have second := zeros_field (h.buf.take h.buflen ++ [0x80] ++ List.replicate (size - (h.buflen + 1)) 0)
      0 field whole (by omega)
    simp only [if_pos spill, first, second]
    rw [zeros_beyond _ (by omega) (by omega),
      show 2 * size - (h.buflen + 1 + field.length) = (size - (h.buflen + 1)) + (size - field.length - 0) by omega,
      List.replicate_add]
    have split : h.buf.take h.buflen ++ (0x80 :: (List.replicate (size - (h.buflen + 1)) 0 ++
          List.replicate (size - field.length - 0) 0) ++ field) =
        (h.buf.take h.buflen ++ [0x80] ++ List.replicate (size - (h.buflen + 1)) 0) ++
          (List.replicate (size - field.length - 0) 0 ++ field) := by
      simp only [List.append_assoc, List.cons_append, List.nil_append]
    rw [split, foldBlocks_step _ _ _ _ _ positive whole, foldBlocks_one _ _ positive (by simp; omega)]
    simp
  · have block := zeros_field (copyAt h.buf h.buflen [0x80]) (h.buflen + 1) field storage (by omega)
    simp only [if_neg spill, block, marked]
    rw [zeros_within _ (by omega) (by omega),
      show size - (h.buflen + 1 + field.length) = size - field.length - (h.buflen + 1) by omega,
      foldBlocks_one _ _ positive (by simp [kept]; omega)]
    simp

end Coalesce.Library.BlockHash
