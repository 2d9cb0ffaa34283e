import Coalesce.IdentExchange

/-! The two loops of `session_ident_check` and the comparisons in front of them, on what is
left of the line at each point. -/

namespace Coalesce.IdentScan
open Net Session Ident IdentExchange

/-- Printable, neither white space nor the dash. -/
def VersionChar (c : UInt8) : Prop := 0x21 ≤ c ∧ c ≤ 0x7E ∧ c ≠ 45

def CommentChar (c : UInt8) : Prop := 0x20 ≤ c ∧ c ≤ 0x7E

def Protocol (v : List UInt8) : Prop := v = literal "2.0" ∨ v = literal "1.99"

/-- What the two loops of the check let through behind the second dash. -/
def Software (text : List UInt8) : Prop :=
  (∀ char ∈ text.takeWhile (· ≠ SP), VersionChar char) ∧ ∀ char ∈ text.dropWhile (· ≠ SP), CommentChar char

theorem versionChar_iff (c : UInt8) : VersionChar c ↔ ¬(c < 0x21 ∨ c > 0x7E ∨ c = 45) := by
  rw [VersionChar, not_or, not_or, gt_iff_lt, UInt8.not_lt, UInt8.not_lt]

theorem commentChar_iff (c : UInt8) : CommentChar c ↔ ¬(c < 0x20 ∨ c > 0x7E) := by
  rw [CommentChar, not_or, gt_iff_lt, UInt8.not_lt, UInt8.not_lt]

theorem run_cons {c : UInt8} (rest : List UInt8) (other : c ≠ SP) :
    (c :: rest).takeWhile (· ≠ SP) = c :: rest.takeWhile (· ≠ SP) := by
  rw [List.takeWhile_cons, if_pos (decide_eq_true other)]

theorem refused_iff {accepted : Prop} (never : ¬accepted) : (-1 : Int) = 0 ↔ accepted :=
  iff_of_false (by decide) never

/-! The loops, on what is left of the line. -/

section
variable {line : List UInt8} {len : Nat}

theorem window_cons {pos : Nat} (within : len ≤ line.length) (inside : pos < len) :
    (line.take len).drop pos = line.getD pos 0 :: (line.take len).drop (pos + 1) := by
  have reach : pos < (line.take len).length := by rw [List.length_take]; omega
  rw [List.drop_eq_getElem_cons reach, List.getElem_take, List.getD_eq_getElem?_getD,
    List.getElem?_eq_getElem (by omega)]
  rfl

theorem window_nil {pos : Nat} (outside : ¬pos < len) : (line.take len).drop pos = [] := by
  rw [List.drop_eq_nil_iff, List.length_take]
  omega

/-- The loop stops on a bad character, or behind the run of characters that are no space. -/
theorem versionEnd_eq (within : len ≤ line.length) (pos : Nat) :
    (versionEnd line len pos = none ∧ ∃ char ∈ ((line.take len).drop pos).takeWhile (· ≠ SP), ¬VersionChar char) ∨
      (versionEnd line len pos = some (pos + (((line.take len).drop pos).takeWhile (· ≠ SP)).length) ∧
        ∀ char ∈ ((line.take len).drop pos).takeWhile (· ≠ SP), VersionChar char) := by
  induction pos using versionEnd.induct line len with
  | case1 pos more c bad =>
    apply Or.inl
    rw [versionEnd, if_pos more, window_cons within more.1, run_cons _ more.2]
    exact ⟨if_pos bad, c, List.mem_cons_self, fun good => (versionChar_iff c).mp good bad⟩
  | case2 pos more c good ih =>
    have step : versionEnd line len pos = versionEnd line len (pos + 1) := by
      rw [versionEnd, if_pos more]
      exact if_neg good
    rw [step, window_cons within more.1, run_cons _ more.2, List.length_cons]
    rcases ih with ⟨stopped, char, member, bad⟩ | ⟨stopped, all⟩
    · exact Or.inl ⟨stopped, char, List.mem_cons_of_mem _ member, bad⟩
    · apply Or.inr
      constructor
      · rw [stopped, Nat.add_assoc, Nat.add_comm 1]
      · intro char member
        rcases List.mem_cons.mp member with same | member
        · rw [same]
          exact (versionChar_iff c).mpr good
        · exact all char member
  | case3 pos last =>
    apply Or.inr
    have nothing : ((line.take len).drop pos).takeWhile (· ≠ SP) = [] := by
      by_cases inside : pos < len
      · have space : line.getD pos 0 = SP := by
          by_contra other
          exact last ⟨inside, other⟩
        rw [window_cons within inside, space, List.takeWhile_cons_of_neg (by simp)]
      · rw [window_nil inside, List.takeWhile_nil]
    rw [versionEnd, if_neg last, nothing]
    exact ⟨rfl, fun char member => absurd member List.not_mem_nil⟩

theorem commentsPrintable_eq (within : len ≤ line.length) (i : Nat) :
    commentsPrintable line len i = true ↔ ∀ char ∈ (line.take len).drop i, CommentChar char := by
  induction i using commentsPrintable.induct line len with
  | case1 i inside c bad =>
    have stopped : commentsPrintable line len i = false := by
      rw [commentsPrintable, if_pos inside]
      exact if_pos bad
    rw [stopped, window_cons within inside]
    apply iff_of_false Bool.false_ne_true
    intro all
    exact (commentChar_iff c).mp (all c List.mem_cons_self) bad
  | case2 i inside c good ih =>
    have step : commentsPrintable line len i = commentsPrintable line len (i + 1) := by
      rw [commentsPrintable, if_pos inside]
      exact if_neg good
    rw [step, ih, window_cons within inside, List.forall_mem_cons]
    exact (and_iff_right ((commentChar_iff c).mpr good)).symm
  | case3 i outside =>
    rw [commentsPrintable, if_neg outside, window_nil outside]
    simp

theorem softwareCheck_iff (within : len ≤ line.length) (pos : Nat) :
    softwareCheck line len pos = 0 ↔ Software ((line.take len).drop pos) := by
  rw [softwareCheck, Software]
  rcases versionEnd_eq within pos with ⟨stopped, char, member, bad⟩ | ⟨stopped, all⟩
  · rw [stopped]
    apply refused_iff
    intro accepted
    exact absurd (accepted.1 char member) bad
  · have rest : (line.take len).drop (pos + (((line.take len).drop pos).takeWhile (· ≠ SP)).length) =
        ((line.take len).drop pos).dropWhile (· ≠ SP) := by
      rw [← List.drop_drop]
      nth_rewrite 2 [← List.takeWhile_append_dropWhile (p := (· ≠ SP)) (l := (line.take len).drop pos)]
      rw [List.drop_left]
    rw [stopped, and_iff_right all, ← rest, ← commentsPrintable_eq within]
    simp only
    split <;> simp_all

/-- The dash, and behind it something that the loops let through. -/
theorem dash_iff (within : len ≤ line.length) (pos : Nat) :
    (if pos ≥ len ∨ line.getD pos 0 ≠ 45 then -1
      else if pos + 1 ≥ len then -1 else softwareCheck line len (pos + 1)) = 0 ↔
      ∃ text, (line.take len).drop pos = 45 :: text ∧ text ≠ [] ∧ Software text := by
  by_cases inside : pos < len
  · rw [window_cons within inside]
    by_cases dash : line.getD pos 0 = 45
    · rw [if_neg (fun either => either.elim (Nat.not_le_of_lt inside) (fun other => other dash)), dash]
      by_cases bare : pos + 1 < len
      · rw [if_neg (Nat.not_le_of_lt bare), softwareCheck_iff within]
        constructor
        · intro accepted
          exact ⟨_, rfl, by rw [window_cons within bare]; exact List.cons_ne_nil _ _, accepted⟩
        · rintro ⟨text, same, -, accepted⟩
          rw [(List.cons.inj same).2]
          exact accepted
      · rw [if_pos (Nat.le_of_not_lt bare), window_nil bare]
        apply refused_iff
        rintro ⟨text, same, something, -⟩
        exact absurd (List.cons.inj same).2.symm something
    · rw [if_pos (Or.inr dash)]
      apply refused_iff
      rintro ⟨text, same, -, -⟩
      exact absurd (List.cons.inj same).1 dash
  · rw [if_pos (Or.inl (Nat.le_of_not_lt inside)), window_nil inside]
    apply refused_iff
    rintro ⟨text, same, -, -⟩
    exact absurd same (List.cons_ne_nil _ _).symm

end

/-! The whole check. -/

theorem charsAt_iff {line : List UInt8} {len at_ : Nat} {chars : String}
    (reach : at_ + (literal chars).length ≤ len) :
    charsAt line at_ chars = true ↔ literal chars <+: (line.take len).drop at_ := by
  have same : ((line.take len).drop at_).take (literal chars).length = (line.drop at_).take (literal chars).length := by
    rw [List.drop_take, List.take_take, Nat.min_eq_left (by omega)]
  rw [charsAt, beq_iff_eq, List.prefix_iff_eq_take, same, eq_comm]

theorem protocol_length {v : List UInt8} (protocol : Protocol v) : 3 ≤ v.length ∧ v.length ≤ 4 := by
  rcases protocol with rfl | rfl <;> decide

/-- The two protocol versions differ in their first character. -/
theorem protocol_unique {v v' rest rest' : List UInt8} (protocol : Protocol v) (protocol' : Protocol v')
    (same : v ++ rest = v' ++ rest') : v = v' ∧ rest = rest' := by
  have apart (left right : List UInt8) : literal "2.0" ++ left ≠ literal "1.99" ++ right := by
    intro equal
    have heads := (List.cons.inj equal).1
    exact absurd heads (by decide)
  rcases protocol with rfl | rfl <;> rcases protocol' with rfl | rfl
  · exact ⟨rfl, List.append_cancel_left same⟩
  · exact absurd same (apart _ _)
  · exact absurd same.symm (apart _ _)
  · exact ⟨rfl, List.append_cancel_left same⟩

/-- The second dash, when the protocol version in front of it is known. -/
theorem behind_protocol {w v : List UInt8} (protocol : Protocol v) (found : v <+: w.drop 4) :
    (∃ text, w.drop (4 + v.length) = 45 :: text ∧ text ≠ [] ∧ Software text) ↔
      ∃ v' text, Protocol v' ∧ w.drop 4 = v' ++ 45 :: text ∧ text ≠ [] ∧ Software text := by
  obtain ⟨rest, split⟩ := found
  rw [← List.drop_drop, ← split, List.drop_left]
  constructor
  · rintro ⟨text, dash, something, accepted⟩
    exact ⟨v, text, protocol, by rw [dash], something, accepted⟩
  · rintro ⟨v', text, protocol', same, something, accepted⟩
    exact ⟨text, (protocol_unique protocol protocol' same).2, something, accepted⟩

/-- Either a protocol version stands behind the prefix, or none that a dash follows. -/
theorem versionLength_cases {line : List UInt8} {len : Nat} (within : len ≤ line.length) (eight : 8 ≤ len) :
    (∃ v, Protocol v ∧ v <+: (line.take len).drop 4 ∧ versionLength line len = some v.length) ∨
      (versionLength line len = none ∧ ∀ v text, Protocol v → (line.take len).drop 4 ≠ v ++ 45 :: text) := by
  have second : charsAt line 4 "2.0" = true ↔ literal "2.0" <+: (line.take len).drop 4 :=
    charsAt_iff (show 4 + 3 ≤ len by omega)
  rw [versionLength]
  by_cases two : charsAt line 4 "2.0" = true
  · exact Or.inl ⟨literal "2.0", Or.inl rfl, second.mp two, if_pos two⟩
  · rw [if_neg two]
    by_cases compatible : len ≥ 9 ∧ charsAt line 4 "1.99" = true
    · have found := (@charsAt_iff line len 4 "1.99" (show 4 + 4 ≤ len by omega)).mp compatible.2
      exact Or.inl ⟨literal "1.99", Or.inr rfl, found, if_pos compatible⟩
    · apply Or.inr
      constructor
      · exact if_neg compatible
      · intro v text protocol split
        rcases protocol with rfl | rfl
        · exact two (second.mpr ⟨_, split.symm⟩)
        · have nine : len ≥ 9 := by
            have lengths := congrArg List.length split
            rw [List.length_drop, List.length_take, List.length_append, List.length_cons] at lengths
            change min len line.length - 4 = 4 + (text.length + 1) at lengths
            omega
          have found := (@charsAt_iff line len 4 "1.99" (show 4 + 4 ≤ len by omega)).mpr ⟨_, split.symm⟩
          exact compatible ⟨nine, found⟩

/-! The line without its ending. -/

theorem identStripCrlf_stripped (text tail : List UInt8) :
    identStripCrlf (text ++ tail) text.length = (stripped text).length := by
  rw [identStripCrlf_eq (by simp), List.take_left]

theorem stripped_within (text tail : List UInt8) : (stripped text).length ≤ (text ++ tail).length := by
  have bound := stripped_length_le text
  rw [List.length_append]
  omega

theorem take_window (text tail : List UInt8) : (text ++ tail).take (stripped text).length = stripped text := by
  rw [List.take_append_of_le_length (stripped_length_le text), take_stripped]

theorem split_iff (line v sw : List UInt8) : line = literal "SSH-" ++ v ++ literal "-" ++ sw ↔
    literal "SSH-" <+: line ∧ line.drop 4 = v ++ 45 :: sw := by
  constructor
  · intro split
    rw [split, List.append_assoc, List.append_assoc]
    exact ⟨List.prefix_append _ _, rfl⟩
  · rintro ⟨⟨rest, split⟩, behind⟩
    rw [← split] at behind ⊢
    change rest = v ++ 45 :: sw at behind
    rw [behind, List.append_assoc, List.append_assoc]
    rfl

theorem eight_of_split {line v sw : List UInt8} (protocol : Protocol v) (split : line = literal "SSH-" ++ v ++ literal "-" ++ sw)
    (something : sw ≠ []) : 8 ≤ line.length := by
  have lengths := congrArg List.length split
  rw [List.length_append, List.length_append, List.length_append] at lengths
  change _ = 4 + v.length + 1 + sw.length at lengths
  have three := (protocol_length protocol).1
  have more := List.length_pos_of_ne_nil something
  omega

theorem banner_iff {text tail : List UInt8} (eight : 8 ≤ (stripped text).length) :
    charsAt (text ++ tail) 0 "SSH-" = true ↔ literal "SSH-" <+: stripped text := by
  have reads := @charsAt_iff (text ++ tail) (stripped text).length 0 "SSH-" (show 0 + 4 ≤ (stripped text).length by omega)
  rw [take_window, List.drop_zero] at reads
  exact reads

/-- What the check accepts, as the code has it. -/
theorem sessionIdentCheck_iff (text tail : List UInt8) :
    sessionIdentCheck (text ++ tail) text.length = 0 ↔
      (stripped text).length ≤ 253 ∧ ∃ v sw, Protocol v ∧ stripped text = literal "SSH-" ++ v ++ literal "-" ++ sw ∧
        sw ≠ [] ∧ Software sw := by
  have within := stripped_within text tail
  have window := take_window text tail
  have limit : SSH_IDENT_MAX - 2 = 253 := rfl
  rw [sessionIdentCheck, identStripCrlf_stripped, limit]
  simp only
  by_cases long : (stripped text).length > 253
  · rw [if_pos (Or.inr long)]
    apply refused_iff
    intro accepted
    exact absurd accepted.1 (Nat.not_le_of_lt long)
  by_cases eight : 8 ≤ (stripped text).length
  · rw [if_neg (fun either => either.elim (by omega) long)]
    by_cases starts : charsAt (text ++ tail) 0 "SSH-" = true
    · have prefixed := (banner_iff eight).mp starts
      have accepts := versionLength_cases within eight
      rw [window] at accepts
      rw [if_neg (fun either => either.elim (by omega) (by simp [starts]))]
      simp only [split_iff, prefixed, true_and, Nat.le_of_not_lt long]
      rcases accepts with ⟨v, protocol, found, length⟩ | ⟨unknown, nowhere⟩
      · have dash := dash_iff within (4 + v.length)
        rw [window] at dash
        rw [length]
        exact dash.trans (behind_protocol protocol found)
      · rw [unknown]
        apply refused_iff
        rintro ⟨v, sw, protocol, split, -⟩
        exact absurd split (nowhere v sw protocol)
    · rw [if_pos (Or.inr (Bool.eq_false_of_not_eq_true starts))]
      apply refused_iff
      rintro ⟨-, v, sw, -, split, -⟩
      exact absurd ((banner_iff eight).mpr ((split_iff _ v sw).mp split).1) starts
  · constructor
    · intro accepted
      split at accepted
      · contradiction
      · rw [if_pos (Or.inl (Nat.lt_of_not_le eight))] at accepted
        contradiction
    · rintro ⟨-, v, sw, protocol, split, something, -⟩
      exact absurd (eight_of_split protocol split something) eight

end Coalesce.IdentScan
