import Coalesce.Ident
import Mathlib.Data.List.DropRight

/-! Which streams make the exchange of identification strings succeed. The stream is
taken apart into lines here; the code reads it byte by byte. -/

namespace Coalesce.IdentExchange
open Library.CallResult Net Session Ident

/-- A line with its line feed, within the limit of the line buffer. -/
def WholeLine (line : List UInt8) : Prop := ∃ body, line = body ++ [LF] ∧ LF ∉ body ∧ line.length ≤ 256

/-- The line that every identification string starts. -/
def Banner (line : List UInt8) : Prop := literal "SSH-" <+: line

/-- The stream goes on with fewer than `attempts` whole lines that are no banner, then with
a banner that passes the check, then with `rest`. -/
structure Answered (attempts : Nat) (stream : List UInt8) (before : List (List UInt8)) (line rest : List UInt8) : Prop where
  stream : stream = before.flatten ++ (line ++ rest)
  count : before.length < attempts
  earlier : ∀ other ∈ before, WholeLine other ∧ ¬Banner other
  whole : WholeLine line
  banner : Banner line
  valid : sessionIdentCheck line line.length = 0

def isLineEnd (byte : UInt8) : Bool := byte = LF ∨ byte = CR

/-- The line without its trailing run of CR and LF. -/
def stripped (line : List UInt8) : List UInt8 := line.rdropWhile isLineEnd

/-- A slot holds a text, closed by a NUL. -/
structure Holds (slot : SshIdent) (text : List UInt8) : Prop where
  len : slot.len = text.length
  chars : slot.chars.toList.take text.length = text
  closed : slot.chars.toList[text.length]? = some 0

def ownSlot (role : SshRole) (s : SshSession) : SshIdent :=
  match role with
  | .client => s.vC
  | .server => s.vS

def peerSlot (role : SshRole) (s : SshSession) : SshIdent :=
  match role with
  | .client => s.vS
  | .server => s.vC

/-! Reading a line. -/

/-- A line feed within reach, a full buffer, or the end of the stream. -/
theorem lineLoop_cases (left : Nat) (sock : Socket) (line : List UInt8) :
    (∃ body rest cuts, sock.rx = body ++ LF :: rest ∧ LF ∉ body ∧ body.length < left ∧
      lineLoop sock line left =
        (((line ++ (body ++ [LF])).length : Int), line ++ (body ++ [LF]), sock.after (body.length + 1) cuts)) ∨
    (∃ body rest cuts, sock.rx = body ++ rest ∧ LF ∉ body ∧ body.length = left ∧
      lineLoop sock line left = (((line ++ body).length : Int), line ++ body, sock.after body.length cuts)) ∨
    (∃ cuts, LF ∉ sock.rx ∧ sock.rx.length < left ∧
      lineLoop sock line left = (endCode sock, line ++ sock.rx, sock.after sock.rx.length cuts)) := by
  induction left generalizing sock line with
  | zero => exact Or.inr (Or.inl ⟨[], sock.rx, sock.rxCuts, rfl, List.not_mem_nil, rfl, by simp [lineLoop, Socket.after_zero]⟩)
  | succ left ih =>
    cases stream : sock.rx with
    | nil =>
      refine Or.inr (Or.inr ⟨sock.rxCuts, List.not_mem_nil, by simp, ?_⟩)
      rw [lineLoop, recv_none stream]
      simp only [if_pos (endCode_nonpos sock)]
      simp [Socket.after_zero]
    | cons byte rest =>
      rw [lineLoop_cons stream]
      by_cases found : byte = LF
      · refine Or.inl ⟨[], rest, sock.rxCuts.tail, by rw [found]; rfl, List.not_mem_nil, by simp, ?_⟩
        rw [if_pos found, found]
        rfl
      · rw [if_neg found]
        have moved : (sock.after 1 sock.rxCuts.tail).rx = rest := by simp [Socket.after, stream]
        have other : LF ≠ byte := Ne.symm found
        rcases ih (sock.after 1 sock.rxCuts.tail) (line ++ [byte]) with
          ⟨body, behind, cuts, split, clean, reach, result⟩ | ⟨body, behind, cuts, split, clean, full, result⟩ |
            ⟨cuts, clean, short, result⟩
        · rw [moved] at split
          refine Or.inl ⟨byte :: body, behind, cuts, by rw [split]; rfl, by simp [other, clean], by simp [reach], ?_⟩
          rw [result, Socket.after_after, List.append_assoc, Nat.add_comm 1]
          rfl
        · rw [moved] at split
          refine Or.inr (Or.inl ⟨byte :: body, behind, cuts, by rw [split]; rfl, by simp [other, clean], by simp [full], ?_⟩)
          rw [result, Socket.after_after, List.append_assoc, Nat.add_comm 1]
          rfl
        · rw [moved] at clean short
          refine Or.inr (Or.inr ⟨cuts, by simp [other, clean], by simp [short], ?_⟩)
          rw [result, Socket.after_after, moved, List.append_assoc, Nat.add_comm 1]
          rfl

/-- Two lines that start one stream are the same. -/
theorem line_unique {first second rest rest' : List UInt8} (clean : LF ∉ first) (clean' : LF ∉ second)
    (same : first ++ LF :: rest = second ++ LF :: rest') : first = second ∧ rest = rest' := by
  induction first generalizing second with
  | nil =>
    cases second with
    | nil => exact ⟨rfl, by simpa using same⟩
    | cons byte second =>
      rw [List.nil_append, List.cons_append, List.cons.injEq] at same
      exact absurd (by rw [same.1]; exact List.mem_cons_self) clean'
  | cons byte first ih =>
    cases second with
    | nil =>
      rw [List.nil_append, List.cons_append, List.cons.injEq] at same
      exact absurd (by rw [← same.1]; exact List.mem_cons_self) clean
    | cons other second =>
      rw [List.cons_append, List.cons_append, List.cons.injEq] at same
      obtain ⟨tail, rests⟩ := ih (fun member => clean (List.mem_cons_of_mem _ member))
        (fun member => clean' (List.mem_cons_of_mem _ member)) same.2
      exact ⟨by rw [same.1, tail], rests⟩

/-! Stripping, comparing and storing. -/

theorem identStripCrlf_eq {line : List UInt8} {len : Nat} (within : len ≤ line.length) :
    identStripCrlf line len = (stripped (line.take len)).length := by
  induction len with
  | zero => rfl
  | succ len ih =>
    have last := Library.ByteNumber.take_succ_getD within
    rw [identStripCrlf, last, stripped, List.rdropWhile_concat, ih (by omega)]
    by_cases ends : line.getD len 0 = LF ∨ line.getD len 0 = CR
    · have dropped : isLineEnd (line.getD len 0) = true := decide_eq_true ends
      rw [if_pos ends, if_pos dropped]
      rfl
    · have stays : ¬isLineEnd (line.getD len 0) = true := by simpa [isLineEnd] using ends
      rw [if_neg ends, if_neg stays, List.length_append, List.length_take, List.length_singleton]
      omega

theorem identStripCrlf_length (line : List UInt8) : identStripCrlf line line.length = (stripped line).length := by
  rw [identStripCrlf_eq (Nat.le_refl _), List.take_length]

theorem take_stripped (line : List UInt8) : line.take (stripped line).length = stripped line := by
  have initial : stripped line <+: line := List.rdropWhile_prefix _ _
  exact (List.prefix_iff_eq_take.mp initial).symm

theorem stripped_length_le (line : List UInt8) : (stripped line).length ≤ line.length := by
  have initial : stripped line <+: line := List.rdropWhile_prefix _ _
  exact initial.length_le

/-- A comparison that stops at the end of the text asks for the text as a prefix. -/
theorem charsAt_zero {line : List UInt8} {text : String} : charsAt line 0 text = true ↔ literal text <+: line := by
  rw [charsAt, List.drop_zero, beq_iff_eq, List.prefix_iff_eq_take, eq_comm]

theorem storeIdent_holds (old : SshIdent) {line : List UInt8} {len : Nat} (within : len ≤ line.length)
    (fits : len ≤ 255) : Holds (storeIdent old line len) (line.take len) := by
  have length : (line.take len).length = len := by rw [List.length_take, Nat.min_eq_left within]
  have char (i : Nat) (inside : i < 256) : (storeIdent old line len).chars.toList[i]? =
      some (if i < len then line.getD i 0 else if i = len then 0 else old.chars.get ⟨i, inside⟩) := by
    rw [storeIdent]
    simp [inside]
  refine ⟨length.symm, ?_, ?_⟩
  · apply List.ext_getElem?
    intro i
    rw [length]
    by_cases before : i < len
    · rw [List.getElem?_take_of_lt before, char i (by omega), if_pos before, List.getElem?_take_of_lt before,
        List.getD_eq_getElem?_getD, List.getElem?_eq_getElem (by omega)]
      rfl
    · rw [List.getElem?_eq_none (by rw [List.length_take]; omega), List.getElem?_eq_none (by rw [length]; omega)]
  · rw [length, char len (by omega), if_neg (by omega), if_pos rfl]

/-- What passes the check has an identification of 8 to 253 characters. -/
theorem identCheck_length {line : List UInt8} (valid : sessionIdentCheck line line.length = 0) :
    (stripped line).length ≤ 253 := by
  rw [sessionIdentCheck, identStripCrlf_length] at valid
  simp only at valid
  by_contra long
  have refused : (stripped line).length > SSH_IDENT_MAX - 2 := by
    change 253 < (stripped line).length
    omega
  rw [if_pos (Or.inr refused)] at valid
  exact absurd valid (by decide)

/-! The reading loop. -/

theorem readIdent_line {role : SshRole} {s : SshSession} {attempts : Nat} {body : List UInt8} {cuts : List Nat}
    (read : netReadLine s.sock (SSH_IDENT_MAX + 2) =
      (((body ++ [LF]).length : Int), body ++ [LF], s.sock.after (body.length + 1) cuts)) :
    readIdent role (attempts + 1) s =
      if charsAt (body ++ [LF]) 0 "SSH-" = false then
        readIdent role attempts { s with sock := s.sock.after (body.length + 1) cuts }
      else if sessionIdentCheck (body ++ [LF]) (body ++ [LF]).length ≠ 0 then
        .error .fail { s with sock := s.sock.after (body.length + 1) cuts }
      else
        .ok () (storePeer role { s with sock := s.sock.after (body.length + 1) cuts } (body ++ [LF])
          (identStripCrlf (body ++ [LF]) (body ++ [LF]).length)) := by
  have some_chars : ¬(((body ++ [LF]).length : Nat) : Int) ≤ 0 := by
    rw [List.length_append, List.length_singleton]
    omega
  have last : (body ++ [LF]).getD ((body ++ [LF]).length - 1) 0 = LF := by
    rw [List.length_append, List.length_singleton, Nat.add_sub_cancel, List.getD_eq_getElem?_getD,
      List.getElem?_append_right (Nat.le_refl _), Nat.sub_self]
    rfl
  rw [readIdent, bind_of_ok (get_apply s), read, bind_of_ok (set_apply _ _)]
  simp only [Int.toNat_natCast, last, some_chars, decide_false, ne_eq, not_true_eq_false]
  rw [bind_of_ok (failIf_false _), bind_of_ok (failIf_false _)]
  by_cases banner : charsAt (body ++ [LF]) 0 "SSH-" = false
  · rw [if_pos banner, if_pos banner]
  · rw [if_neg banner, if_neg banner]
    by_cases valid : sessionIdentCheck (body ++ [LF]) (body ++ [LF]).length = 0
    · rw [decide_eq_false (by simpa using valid), bind_of_ok (failIf_false _), if_neg (by simpa using valid)]
      rfl
    · rw [decide_eq_true valid, bind_of_error (failIf_true _), if_pos valid]

/-- Lines of the stream as a reader of at most 256 bytes at a time takes them. -/
def Pieces (lines : List (List UInt8)) : Prop :=
  ∀ line ∈ lines, line.length ≤ 256 ∧ LF ∉ line.dropLast

/-- The loop gave up: it has read so many pieces at most, and changed nothing else. -/
def GaveUp (attempts : Nat) (s : SshSession) (result : EStateM.Result Exit SshSession Unit) : Prop :=
  ∃ lines rest cuts, lines.length ≤ attempts ∧ Pieces lines ∧ s.sock.rx = lines.flatten ++ rest ∧
    result = .error .fail { s with sock := s.sock.after lines.flatten.length cuts }

theorem gaveUp_piece {s : SshSession} {piece rest : List UInt8} {cuts : List Nat} (attempts : Nat)
    (stream : s.sock.rx = piece ++ rest) (short : piece.length ≤ 256) (clean : LF ∉ piece.dropLast) :
    GaveUp (attempts + 1) s (.error .fail { s with sock := s.sock.after piece.length cuts }) := by
  refine ⟨[piece], rest, cuts, by simp, ?_, by simpa using stream, by simp⟩
  intro line member
  rw [List.mem_singleton] at member
  rw [member]
  exact ⟨short, clean⟩

theorem GaveUp.line {s : SshSession} {piece rest : List UInt8} {cuts : List Nat} {attempts : Nat}
    {result : EStateM.Result Exit SshSession Unit} (stream : s.sock.rx = piece ++ rest)
    (short : piece.length ≤ 256) (clean : LF ∉ piece.dropLast)
    (later : GaveUp attempts { s with sock := s.sock.after piece.length cuts } result) : GaveUp (attempts + 1) s result := by
  obtain ⟨lines, behind, cuts', count, pieces, tail, stopped⟩ := later
  change s.sock.rx.drop piece.length = lines.flatten ++ behind at tail
  rw [stream, List.drop_left] at tail
  refine ⟨piece :: lines, behind, cuts', by simp [count], ?_, ?_, ?_⟩
  · intro line member
    rcases List.mem_cons.mp member with rfl | member
    · exact ⟨short, clean⟩
    · exact pieces line member
  · rw [stream, tail, List.flatten_cons, List.append_assoc]
  · rw [stopped, List.flatten_cons, List.length_append]
    exact congrArg (fun sock => EStateM.Result.error Exit.fail { s with sock := sock }) (Socket.after_after _ _ _ _ _)

/-- What starts the stream of an answer is a line. -/
theorem Answered.first {attempts : Nat} {stream line rest : List UInt8} {before : List (List UInt8)}
    (answered : Answered attempts stream before line rest) :
    ∃ body behind, stream = body ++ LF :: behind ∧ LF ∉ body ∧ body.length < 256 ∧
      (before.head?.getD line = body ++ [LF]) := by
  have stream := answered.stream
  cases before with
  | nil =>
    obtain ⟨body, rfl, clean, short⟩ := answered.whole
    rw [List.length_append, List.length_singleton] at short
    exact ⟨body, rest, by rw [stream]; simp, clean, by omega, rfl⟩
  | cons first before =>
    obtain ⟨body, rfl, clean, short⟩ := (answered.earlier first List.mem_cons_self).1
    rw [List.length_append, List.length_singleton] at short
    exact ⟨body, before.flatten ++ (line ++ rest), by rw [stream]; simp, clean, by omega, rfl⟩

/-- What is left of an answer behind a line that is no banner. -/
theorem answered_cons {attempts : Nat} {body behind line rest : List UInt8} {before : List (List UInt8)} (clean : LF ∉ body)
    (other : ¬Banner (body ++ [LF])) (answered : Answered (attempts + 1) (body ++ LF :: behind) before line rest) :
    ∃ before', before = (body ++ [LF]) :: before' ∧ Answered attempts behind before' line rest := by
  obtain ⟨body', behind', split, clean', -, first⟩ := answered.first
  obtain ⟨rfl, rfl⟩ := line_unique clean clean' split
  cases before with
  | nil =>
    rw [show line = body ++ [LF] from first] at answered
    exact absurd answered.banner other
  | cons first' before =>
    have same : first' = body ++ [LF] := first
    subst same
    refine ⟨before, rfl, ?_, by simpa using answered.count, fun later member => answered.earlier later (List.mem_cons_of_mem _ member),
      answered.whole, answered.banner, answered.valid⟩
    have stream := answered.stream
    rw [List.flatten_cons, List.append_assoc, List.append_assoc, List.singleton_append] at stream
    exact List.cons_inj_right LF |>.mp (List.append_cancel_left stream)

theorem answered_nil {attempts : Nat} {body behind line rest : List UInt8} {before : List (List UInt8)} (clean : LF ∉ body)
    (starts : Banner (body ++ [LF])) (answered : Answered attempts (body ++ LF :: behind) before line rest) :
    before = [] ∧ line = body ++ [LF] ∧ rest = behind := by
  obtain ⟨body', behind', split, clean', -, first⟩ := answered.first
  obtain ⟨rfl, rfl⟩ := line_unique clean clean' split
  cases before with
  | nil =>
    have same : line = body ++ [LF] := first
    have stream := answered.stream
    rw [same, List.flatten_nil, List.nil_append, List.append_assoc, List.singleton_append] at stream
    exact ⟨rfl, same, (List.cons_inj_right LF |>.mp (List.append_cancel_left stream)).symm⟩
  | cons other before =>
    have same : other = body ++ [LF] := first
    subst same
    exact absurd starts (answered.earlier _ List.mem_cons_self).2

/-- A stream has one answer at most. -/
theorem Answered.unique {attempts : Nat} {stream line rest line' rest' : List UInt8} {before before' : List (List UInt8)}
    (first : Answered attempts stream before line rest) (second : Answered attempts stream before' line' rest') :
    before = before' ∧ line = line' ∧ rest = rest' := by
  induction before generalizing attempts stream before' with
  | nil =>
    obtain ⟨body, behind, rfl, clean, -, same⟩ := first.first
    have starts := first.banner
    rw [show line = body ++ [LF] from same] at starts
    obtain ⟨-, line_eq, rest_eq⟩ := answered_nil clean starts first
    obtain ⟨before_eq, line_eq', rest_eq'⟩ := answered_nil clean starts second
    exact ⟨before_eq.symm, line_eq.trans line_eq'.symm, rest_eq.trans rest_eq'.symm⟩
  | cons other before ih =>
    obtain ⟨body, behind, rfl, clean, -, same⟩ := first.first
    have notBanner := (first.earlier other List.mem_cons_self).2
    rw [show other = body ++ [LF] from same] at notBanner
    cases attempts with
    | zero => exact absurd first.count (Nat.not_lt_zero _)
    | succ attempts =>
      obtain ⟨rest₁, split, tail⟩ := answered_cons clean notBanner first
      obtain ⟨rest₂, split', tail'⟩ := answered_cons clean notBanner second
      obtain ⟨rfl, rfl⟩ := List.cons.inj split
      obtain ⟨before_eq, line_eq, rest_eq⟩ := ih tail tail'
      exact ⟨by rw [split', before_eq], line_eq, rest_eq⟩

/-- A reader that finds no line feed where there could be one has no answer. -/
theorem not_answered {attempts : Nat} {body behind : List UInt8} (clean : LF ∉ body)
    (cut : body.length = 256 ∨ behind = []) (before : List (List UInt8)) (line rest : List UInt8) :
    ¬Answered attempts (body ++ behind) before line rest := by
  intro answered
  obtain ⟨body', behind', split, -, short, -⟩ := answered.first
  have inside : body'.length < body.length := by
    rcases cut with full | ended
    · omega
    · have length := congrArg List.length split
      rw [ended, List.append_nil, List.length_append, List.length_cons] at length
      omega
  have found : body[body'.length]? = some LF := by
    rw [← List.getElem?_append_left inside, split, List.getElem?_append_right (Nat.le_refl _), Nat.sub_self]
    rfl
  exact clean (List.mem_of_getElem? found)

/-- A banner at the front that does not pass the check is no answer. -/
theorem not_answered_bad {attempts : Nat} {body behind : List UInt8} (clean : LF ∉ body) (starts : Banner (body ++ [LF]))
    (bad : sessionIdentCheck (body ++ [LF]) (body ++ [LF]).length ≠ 0) (before : List (List UInt8))
    (line rest : List UInt8) : ¬Answered attempts (body ++ LF :: behind) before line rest := by
  intro answered
  obtain ⟨-, rfl, -⟩ := answered_nil clean starts answered
  exact bad answered.valid

/-- A read that fails, or stops before the line feed, ends the loop. -/
theorem readIdent_cut {role : SshRole} {s : SshSession} {attempts count : Nat} {result : Int} {stored : List UInt8}
    {cuts : List Nat} (read : netReadLine s.sock (SSH_IDENT_MAX + 2) = (result, stored, s.sock.after count cuts))
    (cut : result ≤ 0 ∨ stored.getD (result.toNat - 1) 0 ≠ LF) :
    readIdent role (attempts + 1) s = .error .fail { s with sock := s.sock.after count cuts } := by
  rw [readIdent, bind_of_ok (get_apply s), read, bind_of_ok (set_apply _ _)]
  simp only
  by_cases ended : result ≤ 0
  · rw [decide_eq_true ended, bind_of_error (failIf_true _)]
  · have other : stored.getD (result.toNat - 1) 0 ≠ LF := cut.resolve_left ended
    rw [decide_eq_false ended, bind_of_ok (failIf_false _), decide_eq_true other, bind_of_error (failIf_true _)]

/-- A whole line that is no banner, in front of an answer. -/
theorem Answered.behind {attempts : Nat} {other behind line rest : List UInt8} {before : List (List UInt8)}
    (answered : Answered attempts behind before line rest) (whole : WholeLine other) (passed : ¬Banner other) :
    Answered (attempts + 1) (other ++ behind) (other :: before) line rest := by
  refine ⟨?_, Nat.succ_lt_succ answered.count, ?_, answered.whole, answered.banner, answered.valid⟩
  · rw [answered.stream, List.flatten_cons, List.append_assoc]
  · intro later member
    rcases List.mem_cons.mp member with rfl | member
    · exact ⟨whole, passed⟩
    · exact answered.earlier later member

/-- The loop finds the answer when there is one, and gives up otherwise. -/
def LoopEnds (role : SshRole) (attempts : Nat) (s : SshSession) (result : EStateM.Result Exit SshSession Unit) : Prop :=
  (∃ before line rest cuts, Answered attempts s.sock.rx before line rest ∧
    result = .ok () (storePeer role { s with sock := s.sock.after (before.flatten ++ line).length cuts } line
      (identStripCrlf line line.length))) ∨
  ((∀ before line rest, ¬Answered attempts s.sock.rx before line rest) ∧ GaveUp attempts s result)

section
variable {role : SshRole} {s : SshSession} {attempts : Nat} {body behind : List UInt8} {cuts : List Nat}

/-- The loop goes on behind a line that is no banner. -/
theorem loopEnds_passed (front : s.sock.rx = (body ++ [LF]) ++ behind) (clean : LF ∉ body) (short : body.length < 256)
    (other : ¬Banner (body ++ [LF])) {result : EStateM.Result Exit SshSession Unit}
    (later : LoopEnds role attempts { s with sock := s.sock.after (body ++ [LF]).length cuts } result) :
    LoopEnds role (attempts + 1) s result := by
  have length : (body ++ [LF]).length = body.length + 1 := by rw [List.length_append, List.length_singleton]
  have whole : WholeLine (body ++ [LF]) := ⟨body, rfl, clean, by omega⟩
  have tail : LF ∉ (body ++ [LF]).dropLast := by rwa [List.dropLast_concat]
  have moved : (s.sock.after (body ++ [LF]).length cuts).rx = behind := by
    change s.sock.rx.drop (body ++ [LF]).length = behind
    rw [front, List.drop_left]
  rcases later with ⟨before, line, rest, cuts', answered, found⟩ | ⟨absent, gaveUp⟩
  · rw [moved] at answered
    have total : (body ++ [LF]).length + (before.flatten ++ line).length =
        (((body ++ [LF]) :: before).flatten ++ line).length := by
      rw [List.flatten_cons, List.append_assoc, @List.length_append _ (body ++ [LF])]
    refine Or.inl ⟨(body ++ [LF]) :: before, line, rest, cuts', ?_, ?_⟩
    · rw [front]
      exact answered.behind whole other
    · rw [found, Socket.after_after, total]
  · rw [moved] at absent
    refine Or.inr ⟨?_, gaveUp.line front (by omega) tail⟩
    intro before line rest answered
    rw [front, List.append_assoc, List.singleton_append] at answered
    obtain ⟨before', -, later⟩ := answered_cons clean other answered
    exact absent before' line rest later

/-- A banner ends the loop, for better or worse. -/
theorem loopEnds_banner (front : s.sock.rx = (body ++ [LF]) ++ behind) (clean : LF ∉ body) (short : body.length < 256)
    (starts : Banner (body ++ [LF])) :
    LoopEnds role (attempts + 1) s (if sessionIdentCheck (body ++ [LF]) (body ++ [LF]).length ≠ 0 then
        .error .fail { s with sock := s.sock.after (body ++ [LF]).length cuts }
      else
        .ok () (storePeer role { s with sock := s.sock.after (body ++ [LF]).length cuts } (body ++ [LF])
          (identStripCrlf (body ++ [LF]) (body ++ [LF]).length))) := by
  have length : (body ++ [LF]).length = body.length + 1 := by rw [List.length_append, List.length_singleton]
  have whole : WholeLine (body ++ [LF]) := ⟨body, rfl, clean, by omega⟩
  have tail : LF ∉ (body ++ [LF]).dropLast := by rwa [List.dropLast_concat]
  by_cases valid : sessionIdentCheck (body ++ [LF]) (body ++ [LF]).length = 0
  · rw [if_neg (by simpa using valid)]
    exact Or.inl ⟨[], body ++ [LF], behind, cuts, ⟨front, Nat.succ_pos _, by simp, whole, starts, valid⟩, rfl⟩
  · rw [if_pos valid]
    refine Or.inr ⟨?_, gaveUp_piece attempts front (by omega) tail⟩
    rw [front, List.append_assoc, List.singleton_append]
    exact not_answered_bad clean starts valid

end

theorem readIdent_cases (role : SshRole) (attempts : Nat) (s : SshSession) :
    LoopEnds role attempts s (readIdent role attempts s) := by
  induction attempts generalizing s with
  | zero =>
    refine Or.inr ⟨fun before line rest answered => Nat.not_lt_zero _ answered.count,
      [], s.sock.rx, s.sock.rxCuts, Nat.le_refl _, ?_, rfl, rfl⟩
    intro line member
    cases member
  | succ attempts ih =>
    rcases lineLoop_cases 256 s.sock [] with ⟨body, behind, cuts, split, clean, short, read⟩ |
      ⟨body, behind, cuts, split, clean, full, read⟩ | ⟨cuts, clean, short, read⟩
    · rw [List.nil_append] at read
      rw [readIdent_line read, show body.length + 1 = (body ++ [LF]).length by rw [List.length_append]; rfl]
      have front : s.sock.rx = (body ++ [LF]) ++ behind := by rw [split, List.append_assoc, List.singleton_append]
      by_cases banner : charsAt (body ++ [LF]) 0 "SSH-" = false
      · have other : ¬Banner (body ++ [LF]) := by
          rw [Banner, ← charsAt_zero, banner]
          decide
        rw [if_pos banner]
        exact loopEnds_passed front clean short other (ih _)
      · rw [if_neg banner]
        exact loopEnds_banner front clean short (charsAt_zero.mp (by simpa using banner))
    · rw [List.nil_append] at read
      have last : body.getD (((body.length : Nat) : Int).toNat - 1) 0 ≠ LF := by
        rw [Int.toNat_natCast, List.getD_eq_getElem?_getD, List.getElem?_eq_getElem (by omega)]
        intro found
        exact clean (found ▸ List.getElem_mem _)
      rw [readIdent_cut read (Or.inr last)]
      refine Or.inr ⟨?_, gaveUp_piece attempts split (by omega) (fun member => clean (List.mem_of_mem_dropLast member))⟩
      rw [split]
      exact not_answered clean (Or.inl full)
    · have all : s.sock.rx = s.sock.rx ++ [] := (List.append_nil _).symm
      rw [readIdent_cut read (Or.inl (endCode_nonpos s.sock))]
      refine Or.inr ⟨?_, gaveUp_piece attempts all (by omega) (fun member => clean (List.mem_of_mem_dropLast member))⟩
      rw [all]
      exact not_answered clean (Or.inr rfl)

/-! The exchange. -/

/-- Our string ends in one CR LF, and fits its slot. -/
theorem ident_string : IDENT_STRING = stripped IDENT_STRING ++ [CR, LF] ∧ (stripped IDENT_STRING).length ≤ 253 := by
  decide

/-- Our banner is on the wire and in its slot when the reading begins. -/
theorem exchange_read (role : SshRole) {s : SshSession} (accepting : Accepting s.sock) :
    ∃ plan, (∀ step ∈ plan, step ≠ none) ∧ sessionExchangeIdent role s = readIdent role 50 (storeOwn role
      { s with sock := { s.sock with tx := s.sock.tx ++ IDENT_STRING, txPlan := plan } } IDENT_STRING
      (stripped IDENT_STRING).length) := by
  obtain ⟨plan, written, clear⟩ := netWriteFull_whole s.sock IDENT_STRING accepting
  have fits : ¬(stripped IDENT_STRING).length > SSH_IDENT_MAX - 2 := by
    have short := ident_string.2
    change ¬253 < _
    omega
  refine ⟨plan, clear, ?_⟩
  rw [sessionExchangeIdent, bind_of_ok (get_apply s), written, bind_of_ok (set_apply _ _)]
  simp only [ne_eq, not_true_eq_false, decide_false, identStripCrlf_length]
  rw [bind_of_ok (failIf_false _), decide_eq_false fits, bind_of_ok (failIf_false _), bind_of_ok (modify_apply _ _)]

/-- The state that an exchange leaves: the stream behind the banner, and both slots. -/
structure Exchanged (role : SshRole) (t : SshSession) (line rest : List UInt8) : Prop where
  stream : t.sock.rx = rest
  peer : Holds (peerSlot role t) (stripped line)
  short : (stripped line).length ≤ 253
  own : Holds (ownSlot role t) (stripped IDENT_STRING)

theorem exchange_cases (role : SshRole) {s : SshSession} (accepting : Accepting s.sock) :
    (∃ before line rest t, Answered 50 s.sock.rx before line rest ∧ sessionExchangeIdent role s = .ok () t ∧
      Exchanged role t line rest) ∨
    ((∀ before line rest, ¬Answered 50 s.sock.rx before line rest) ∧
      ∃ lines t, lines.length ≤ 50 ∧ Pieces lines ∧ s.sock.rx = lines.flatten ++ t.sock.rx ∧
        sessionExchangeIdent role s = .error .fail t ∧ peerSlot role t = peerSlot role s) := by
  obtain ⟨plan, -, entered⟩ := exchange_read role accepting
  rw [entered]
  generalize banner : ({ s with sock := { s.sock with tx := s.sock.tx ++ IDENT_STRING, txPlan := plan } } : SshSession) = u
  have stream : (storeOwn role u IDENT_STRING (stripped IDENT_STRING).length).sock.rx = s.sock.rx := by
    rw [← banner]
    cases role <;> rfl
  have kept : peerSlot role (storeOwn role u IDENT_STRING (stripped IDENT_STRING).length) = peerSlot role s := by
    rw [← banner]
    cases role <;> rfl
  have own : Holds (ownSlot role (storeOwn role u IDENT_STRING (stripped IDENT_STRING).length)) (stripped IDENT_STRING) := by
    have short := ident_string.2
    have held (old : SshIdent) := storeIdent_holds old (stripped_length_le IDENT_STRING) (by omega)
    simp only [take_stripped] at held
    cases role <;> exact held _
  generalize storeOwn role u IDENT_STRING (stripped IDENT_STRING).length = v at stream kept own
  rcases readIdent_cases role 50 v with ⟨before, line, rest, cuts, answered, found⟩ | ⟨absent, lines, rest, cuts, count, pieces, tail, stopped⟩
  · rw [stream] at answered
    have short := identCheck_length answered.valid
    have held (old : SshIdent) := storeIdent_holds old (stripped_length_le line) (by omega)
    simp only [take_stripped] at held
    rw [identStripCrlf_length] at found
    refine Or.inl ⟨before, line, rest, _, answered, found, ?_, ?_, short, ?_⟩
    · have behind : v.sock.rx.drop (before.flatten ++ line).length = rest := by
        rw [stream, answered.stream, ← List.append_assoc, List.drop_left]
      cases role <;> exact behind
    · cases role <;> exact held _
    · cases role <;> exact own
  · rw [stream] at absent tail
    refine Or.inr ⟨absent, lines, _, count, pieces, ?_, stopped, ?_⟩
    · change s.sock.rx = lines.flatten ++ v.sock.rx.drop lines.flatten.length
      rw [stream, tail, List.drop_left]
    · rw [← kept]
      cases role <;> rfl

/-- Every stream and either role: the exchange succeeds exactly on a banner that passes the
check within the first fifty lines, and takes no byte beyond it. -/
theorem exchange_exactly (role : SshRole) (s : SshSession) (accepting : Accepting s.sock) :
    ((∃ t, sessionExchangeIdent role s = .ok () t) ↔ ∃ before line rest, Answered 50 s.sock.rx before line rest) ∧
      (∀ t before line rest, sessionExchangeIdent role s = .ok () t → Answered 50 s.sock.rx before line rest →
        Exchanged role t line rest) ∧
      (∀ exit t, sessionExchangeIdent role s = .error exit t → exit = .fail ∧ peerSlot role t = peerSlot role s ∧
        ∃ lines, lines.length ≤ 50 ∧ Pieces lines ∧ s.sock.rx = lines.flatten ++ t.sock.rx) := by
  rcases exchange_cases role accepting with ⟨before, line, rest, t, answered, returned, exchanged⟩ |
    ⟨absent, lines, t, count, pieces, tail, stopped, kept⟩
  · refine ⟨⟨fun _ => ⟨before, line, rest, answered⟩, fun _ => ⟨t, returned⟩⟩, ?_, ?_⟩
    · intro t' before' line' rest' returned' answered'
      rw [returned] at returned'
      cases returned'
      obtain ⟨-, rfl, rfl⟩ := answered.unique answered'
      exact exchanged
    · intro exit t' stopped
      rw [returned] at stopped
      cases stopped
  · refine ⟨⟨fun ⟨t', returned⟩ => ?_, fun ⟨before, line, rest, answered⟩ => absurd answered (absent before line rest)⟩, ?_, ?_⟩
    · rw [stopped] at returned
      cases returned
    · intro t' before line rest _ answered
      exact absurd answered (absent before line rest)
    · intro exit t' stopped'
      rw [stopped] at stopped'
      cases stopped'
      exact ⟨rfl, kept, lines, count, pieces, tail⟩

/-- A banner behind one other line. -/
theorem exchange_exactly_second_line :
    let s := sessionInit { rx := literal "hello\nSSH-2.0-x\r\n", rxCuts := [], rxReset := false, tx := [], txPlan := [] }
    ((∃ t, sessionExchangeIdent .client s = .ok () t) ↔ ∃ before line rest, Answered 50 s.sock.rx before line rest) ∧
      (∀ t before line rest, sessionExchangeIdent .client s = .ok () t → Answered 50 s.sock.rx before line rest →
        Exchanged .client t line rest) ∧
      (∀ exit t, sessionExchangeIdent .client s = .error exit t → exit = .fail ∧ peerSlot .client t = peerSlot .client s ∧
        ∃ lines, lines.length ≤ 50 ∧ Pieces lines ∧ s.sock.rx = lines.flatten ++ t.sock.rx) :=
  exchange_exactly .client _ (by decide)

end Coalesce.IdentExchange
