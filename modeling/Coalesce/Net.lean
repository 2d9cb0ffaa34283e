import Mathlib.Data.List.Basic

/-! The full reads and writes of net.c over a stream socket. A socket hands out
what is on its way in pieces of any size, and takes what is written in pieces of
any size; both schedules are part of its state. -/

namespace Coalesce.Net

structure Socket where
  /-- Bytes that arrive before the stream ends. -/
  rx : List UInt8
  /-- Most bytes that the coming calls of `recv` return. -/
  rxCuts : List Nat
  /-- The stream ends with an error, not with an orderly shutdown. -/
  rxReset : Bool
  /-- Bytes taken from this end. -/
  tx : List UInt8
  /-- Most bytes that the coming calls of `send` take; `none` is an error. -/
  txPlan : List (Option Nat)
  deriving DecidableEq, Repr

/-- At least one byte, at most what is asked and what there is. -/
def pieceSize (cut asked present : Nat) : Nat := max 1 (min cut (min asked present))

/-- Result and bytes of one `recv`. -/
def recv (sock : Socket) (n : Nat) : Int × List UInt8 × Socket :=
  if sock.rx = [] then (if sock.rxReset then -1 else 0, [], sock)
  else
    let count := pieceSize (sock.rxCuts.headD n) n sock.rx.length
    (count, sock.rx.take count, { sock with rx := sock.rx.drop count, rxCuts := sock.rxCuts.tail })

def send (sock : Socket) (bytes : List UInt8) : Int × Socket :=
  match sock.txPlan with
  | none :: plan => (-1, { sock with txPlan := plan })
  | plan =>
    let count := pieceSize ((plan.headD none).getD bytes.length) bytes.length bytes.length
    (count, { sock with tx := sock.tx ++ bytes.take count, txPlan := plan.tail })

/-- The loop of `net_read_full`, `n` bytes before its end. -/
def readLoop (sock : Socket) (n : Nat) (got : List UInt8) : Int × List UInt8 × Socket :=
  if n = 0 then (got.length, got, sock)
  else
    let (r, bytes, sock) := recv sock n
    if r ≤ 0 then (r, got, sock) else readLoop sock (n - r.toNat) (got ++ bytes)
termination_by n
decreasing_by omega

/-- Result, what was stored at `buf`, and the socket. -/
def netReadFull (sock : Socket) (n : Nat) : Int × List UInt8 × Socket := readLoop sock n []

def writeLoop (sock : Socket) (bytes : List UInt8) (sent : Nat) : Int × Socket :=
  if bytes.length = 0 then (sent, sock)
  else
    let (w, sock) := send sock bytes
    if w ≤ 0 then (w, sock) else writeLoop sock (bytes.drop w.toNat) (sent + w.toNat)
termination_by bytes.length
decreasing_by
  rw [List.length_drop]
  omega

def netWriteFull (sock : Socket) (bytes : List UInt8) : Int × Socket := writeLoop sock bytes 0

def LF : UInt8 := 10

/-- The loop of `net_read_line`, with `left` places before that of the NUL. -/
def lineLoop (sock : Socket) (line : List UInt8) (left : Nat) : Int × List UInt8 × Socket :=
  match left with
  | 0 => (line.length, line, sock)
  | left + 1 =>
    let (r, bytes, sock) := recv sock 1
    if r ≤ 0 then (r, line, sock)
    else if (line ++ bytes).getLastD 0 = LF then ((line ++ bytes).length, line ++ bytes, sock)
    else lineLoop sock (line ++ bytes) left

/-- Result, the characters stored before the NUL, and the socket. -/
def netReadLine (sock : Socket) (max : Nat) : Int × List UInt8 × Socket := lineLoop sock [] (max - 1)

/-- No coming write is refused. -/
def Accepting (sock : Socket) : Prop := ∀ plan ∈ sock.txPlan, plan ≠ none

instance (sock : Socket) : Decidable (Accepting sock) :=
  inferInstanceAs (Decidable (∀ plan ∈ sock.txPlan, plan ≠ none))

/-! The pieces do not show: only what is on its way counts. -/

/-- The socket with some bytes read off. -/
def Socket.after (sock : Socket) (count : Nat) (cuts : List Nat) : Socket :=
  { sock with rx := sock.rx.drop count, rxCuts := cuts }

theorem pieceSize_bounds (cut asked present : Nat) (some_asked : 0 < asked) (some_present : 0 < present) :
    0 < pieceSize cut asked present ∧ pieceSize cut asked present ≤ asked ∧ pieceSize cut asked present ≤ present := by
  unfold pieceSize
  omega

theorem readLoop_whole (sock : Socket) (n : Nat) (got : List UInt8) (present : n ≤ sock.rx.length) :
    ∃ cuts, readLoop sock n got = (((got.length + n : Nat) : Int), got ++ sock.rx.take n, sock.after n cuts) := by
  induction n using Nat.strongRecOn generalizing sock got with
  | ind n ih =>
    rw [readLoop]
    by_cases done : n = 0
    · exact ⟨sock.rxCuts, by simp [done, Socket.after]⟩
    rw [if_neg done]
    have some_left : sock.rx ≠ [] := by
      intro empty
      rw [empty] at present
      exact done (Nat.le_zero.mp present)
    obtain ⟨positive, asked, fits⟩ := pieceSize_bounds (sock.rxCuts.headD n) n sock.rx.length (by omega) (by omega)
    simp only [recv, if_neg some_left]
    generalize pieceSize (sock.rxCuts.headD n) n sock.rx.length = count at *
    rw [if_neg (by omega), Int.toNat_natCast]
    obtain ⟨cuts, rest⟩ := ih (n - count) (by omega) (sock.after count sock.rxCuts.tail) (got ++ sock.rx.take count) (by
      simp only [Socket.after, List.length_drop]
      omega)
    refine ⟨cuts, ?_⟩
    change readLoop (sock.after count sock.rxCuts.tail) (n - count) (got ++ sock.rx.take count) = _
    have joined : sock.rx.take count ++ (sock.rx.drop count).take (n - count) = sock.rx.take n := by
      rw [← List.take_add, Nat.add_sub_cancel' asked]
    have length : (got ++ sock.rx.take count).length + (n - count) = got.length + n := by
      rw [List.length_append, List.length_take]
      omega
    rw [rest, length]
    simp only [Socket.after, List.append_assoc, joined, List.drop_drop, Nat.add_sub_cancel' asked]

/-- What `recv` returns at the end of the stream. -/
def endCode (sock : Socket) : Int := if sock.rxReset then -1 else 0

theorem endCode_nonpos (sock : Socket) : endCode sock ≤ 0 := by
  unfold endCode
  split <;> decide

/-- A stream that is too short is read to its end, and the result says so. -/
theorem readLoop_short (sock : Socket) (n : Nat) (got : List UInt8) (short : sock.rx.length < n) :
    ∃ cuts, readLoop sock n got = (endCode sock, got ++ sock.rx, sock.after sock.rx.length cuts) := by
  induction n using Nat.strongRecOn generalizing sock got with
  | ind n ih =>
    rw [readLoop, if_neg (by omega)]
    by_cases ended : sock.rx = []
    · refine ⟨sock.rxCuts, ?_⟩
      have stops : (if sock.rxReset then -1 else 0 : Int) ≤ 0 := endCode_nonpos sock
      simp only [recv, if_pos ended]
      rw [if_pos stops]
      simp [endCode, Socket.after, ← ended]
    · have present := List.length_pos_iff.mpr ended
      obtain ⟨positive, asked, fits⟩ := pieceSize_bounds (sock.rxCuts.headD n) n sock.rx.length (by omega) present
      simp only [recv, if_neg ended]
      generalize pieceSize (sock.rxCuts.headD n) n sock.rx.length = count at *
      rw [if_neg (by omega), Int.toNat_natCast]
      obtain ⟨cuts, rest⟩ := ih (n - count) (by omega) (sock.after count sock.rxCuts.tail)
        (got ++ sock.rx.take count) (by
          simp only [Socket.after, List.length_drop]
          omega)
      refine ⟨cuts, ?_⟩
      change readLoop (sock.after count sock.rxCuts.tail) (n - count) (got ++ sock.rx.take count) = _
      rw [rest]
      simp only [Socket.after, List.drop_drop, List.length_drop, Nat.add_sub_cancel' fits, List.append_assoc,
        List.take_append_drop]
      rfl

theorem netReadFull_whole (sock : Socket) (n : Nat) (present : n ≤ sock.rx.length) :
    ∃ cuts, netReadFull sock n = ((n : Int), sock.rx.take n, sock.after n cuts) := by
  simpa [netReadFull] using readLoop_whole sock n [] present

theorem netReadFull_short (sock : Socket) (n : Nat) (short : sock.rx.length < n) :
    ∃ cuts, netReadFull sock n = (endCode sock, sock.rx, sock.after sock.rx.length cuts) := by
  simpa [netReadFull] using readLoop_short sock n [] short

/-! One byte at a time. -/

theorem recv_one {sock : Socket} {byte : UInt8} {rest : List UInt8} (stream : sock.rx = byte :: rest) :
    recv sock 1 = (1, [byte], sock.after 1 sock.rxCuts.tail) := by
  have present : sock.rx ≠ [] := by
    rw [stream]
    exact List.cons_ne_nil _ _
  have single : pieceSize (sock.rxCuts.headD 1) 1 sock.rx.length = 1 := by
    unfold pieceSize
    omega
  rw [recv, if_neg present]
  simp only [single]
  simp [Socket.after, stream]

theorem recv_none {sock : Socket} (ended : sock.rx = []) (n : Nat) : recv sock n = (endCode sock, [], sock) := by
  rw [recv, if_pos ended]
  rfl

theorem Socket.after_after (sock : Socket) (first second : Nat) (cuts cuts' : List Nat) :
    (sock.after first cuts).after second cuts' = sock.after (first + second) cuts' := by
  simp only [Socket.after, List.drop_drop]

theorem Socket.after_zero (sock : Socket) : sock.after 0 sock.rxCuts = sock := rfl

theorem lineLoop_cons {sock : Socket} {byte : UInt8} {rest : List UInt8} (stream : sock.rx = byte :: rest)
    (line : List UInt8) (left : Nat) :
    lineLoop sock line (left + 1) =
      if byte = LF then (((line ++ [byte]).length : Int), line ++ [byte], sock.after 1 sock.rxCuts.tail)
      else lineLoop (sock.after 1 sock.rxCuts.tail) (line ++ [byte]) left := by
  rw [lineLoop, recv_one stream]
  simp only [List.getLastD_concat]
  rw [if_neg (by decide)]

/-! Writing. -/

/-- Either everything is on the wire, once and in order, or a refused write stopped the loop
on the way and the result says so. -/
theorem writeLoop_cases (sock : Socket) (bytes : List UInt8) (sent : Nat) :
    (∃ plan, writeLoop sock bytes sent =
        (((sent + bytes.length : Nat) : Int), { sock with tx := sock.tx ++ bytes, txPlan := plan }) ∧
      (Accepting sock → ∀ step ∈ plan, step ≠ none)) ∨
    (¬Accepting sock ∧ ∃ count plan, count < bytes.length ∧
      writeLoop sock bytes sent = (-1, { sock with tx := sock.tx ++ bytes.take count, txPlan := plan })) := by
  induction left : bytes.length using Nat.strongRecOn generalizing sock bytes sent with
  | ind n ih =>
    rw [writeLoop]
    by_cases done : bytes.length = 0
    · exact Or.inl ⟨sock.txPlan, by simp [← left, List.length_eq_zero_iff.mp done], id⟩
    rw [if_neg done]
    by_cases refused : ∃ plan, sock.txPlan = none :: plan
    · obtain ⟨plan, refused⟩ := refused
      refine Or.inr ⟨fun accepting => accepting none (by rw [refused]; exact List.mem_cons_self) rfl, 0, plan, by omega, ?_⟩
      simp [send, refused]
    obtain ⟨positive, asked, -⟩ := pieceSize_bounds ((sock.txPlan.headD none).getD bytes.length) bytes.length
      bytes.length (by omega) (by omega)
    have taken : send sock bytes = (((pieceSize ((sock.txPlan.headD none).getD bytes.length) bytes.length bytes.length : Nat) : Int),
        { sock with
          tx := sock.tx ++ bytes.take (pieceSize ((sock.txPlan.headD none).getD bytes.length) bytes.length bytes.length)
          txPlan := sock.txPlan.tail }) := by
      unfold send
      split
      · next plan same => exact absurd ⟨plan, same⟩ refused
      · rfl
    rw [taken]
    generalize pieceSize ((sock.txPlan.headD none).getD bytes.length) bytes.length bytes.length = count at *
    simp only
    rw [if_neg (by omega), Int.toNat_natCast]
    have tail : Accepting sock → Accepting { sock with tx := sock.tx ++ bytes.take count, txPlan := sock.txPlan.tail } :=
      fun accepting step member => accepting step (List.mem_of_mem_tail member)
    rcases ih (n - count) (by omega) { sock with tx := sock.tx ++ bytes.take count, txPlan := sock.txPlan.tail }
      (bytes.drop count) (sent + count) (by rw [List.length_drop, left]) with
      ⟨plan, rest, clear⟩ | ⟨stopped, more, plan, short, rest⟩
    · refine Or.inl ⟨plan, ?_, fun accepting => clear (tail accepting)⟩
      rw [rest, List.append_assoc, List.take_append_drop, Nat.add_assoc, Nat.add_sub_cancel' (by omega)]
    · refine Or.inr ⟨fun accepting => stopped (tail accepting), count + more, plan, by omega, ?_⟩
      rw [rest, List.append_assoc, List.take_add]

theorem netWriteFull_cases (sock : Socket) (bytes : List UInt8) :
    (∃ plan, netWriteFull sock bytes = ((bytes.length : Int), { sock with tx := sock.tx ++ bytes, txPlan := plan }) ∧
      (Accepting sock → ∀ step ∈ plan, step ≠ none)) ∨
    (¬Accepting sock ∧ ∃ count plan, count < bytes.length ∧
      netWriteFull sock bytes = (-1, { sock with tx := sock.tx ++ bytes.take count, txPlan := plan })) := by
  simpa [netWriteFull] using writeLoop_cases sock bytes 0

theorem netWriteFull_whole (sock : Socket) (bytes : List UInt8) (accepting : Accepting sock) :
    ∃ plan, netWriteFull sock bytes = ((bytes.length : Int), { sock with tx := sock.tx ++ bytes, txPlan := plan }) ∧
      ∀ step ∈ plan, step ≠ none := by
  rcases netWriteFull_cases sock bytes with ⟨plan, written, clear⟩ | ⟨refused, -⟩
  · exact ⟨plan, written, clear accepting⟩
  · exact absurd accepting refused

end Coalesce.Net
