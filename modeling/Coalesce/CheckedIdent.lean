import Coalesce.IdentExchange

/-! The check of an identification line once more, on the bytes of the line alone: a read
outside of them stops it. No line makes it stop, whatever the memory holds behind. -/

namespace Coalesce.CheckedIdent
open Net Session Ident

def identStripCrlfChecked (text : List UInt8) : Nat → Option Nat
  | 0 => some 0
  | len + 1 => text[len]?.bind fun c => if c = LF ∨ c = CR then identStripCrlfChecked text len else some (len + 1)

/-- `memcmp` may read all the bytes it is told to compare. -/
def charsAtChecked (text : List UInt8) (at_ : Nat) (chars : String) : Option Bool :=
  if at_ + (literal chars).length ≤ text.length then some (charsAt text at_ chars) else none

def versionEndChecked (text : List UInt8) (len end_ : Nat) : Option (Option Nat) :=
  if end_ < len then
    text[end_]?.bind fun c =>
      if c = SP then some (some end_)
      else if c < 0x21 ∨ c > 0x7E ∨ c = 45 then some none
      else versionEndChecked text len (end_ + 1)
  else some (some end_)
termination_by len - end_

def commentsPrintableChecked (text : List UInt8) (len i : Nat) : Option Bool :=
  if i < len then
    text[i]?.bind fun c => if c < 0x20 ∨ c > 0x7E then some false else commentsPrintableChecked text len (i + 1)
  else some true
termination_by len - i

def softwareCheckChecked (text : List UInt8) (len pos : Nat) : Option Int :=
  (versionEndChecked text len pos).bind fun found =>
    match found with
    | none => some (-1)
    | some end_ => (commentsPrintableChecked text len end_).map fun printable => if printable then 0 else -1

def versionLengthChecked (text : List UInt8) (len : Nat) : Option (Option Nat) :=
  (charsAtChecked text 4 "2.0").bind fun second =>
    if second then some (some 3)
    else if len ≥ 9 then (charsAtChecked text 4 "1.99").map fun compatible => if compatible then some 4 else none
    else some none

/-- The dash behind the protocol version, then the rest. -/
def dashChecked (text : List UInt8) (len pos : Nat) : Option Int :=
  if pos ≥ len then some (-1)
  else text[pos]?.bind fun c =>
    if c ≠ 45 ∨ pos + 1 ≥ len then some (-1) else softwareCheckChecked text len (pos + 1)

def sessionIdentCheckChecked (text : List UInt8) : Option Int :=
  (identStripCrlfChecked text text.length).bind fun len =>
    if (len = 0 ∨ len > SSH_IDENT_MAX - 2) ∨ len < 8 then some (-1)
    else (charsAtChecked text 0 "SSH-").bind fun banner =>
      if banner = false then some (-1)
      else (versionLengthChecked text len).bind fun version =>
        match version with
        | none => some (-1)
        | some vlen => dashChecked text len (4 + vlen)

/-! Nothing stops. -/

section
variable {text : List UInt8} (tail : List UInt8) {len : Nat}

theorem read_inside {i : Nat} (inside : i < text.length) : text[i]? = some ((text ++ tail).getD i 0) := by
  rw [List.getD_eq_getElem?_getD, List.getElem?_append_left inside, List.getElem?_eq_getElem inside]
  rfl

theorem identStripCrlfChecked_eq (within : len ≤ text.length) :
    identStripCrlfChecked text len = some (identStripCrlf (text ++ tail) len) := by
  induction len with
  | zero => rfl
  | succ len ih =>
    rw [identStripCrlfChecked, identStripCrlf, read_inside tail within, Option.bind_some, ih (Nat.le_of_succ_le within)]
    split <;> rfl

theorem charsAtChecked_eq {at_ : Nat} {chars : String} (within : at_ + (literal chars).length ≤ text.length) :
    charsAtChecked text at_ chars = some (charsAt (text ++ tail) at_ chars) := by
  have same : ((text ++ tail).drop at_).take (literal chars).length = (text.drop at_).take (literal chars).length := by
    rw [List.drop_append_of_le_length (by omega), List.take_append_of_le_length (by rw [List.length_drop]; omega)]
  rw [charsAtChecked, if_pos within, charsAt, charsAt, same]

theorem versionEndChecked_eq (within : len ≤ text.length) (end_ : Nat) :
    versionEndChecked text len end_ = some (versionEnd (text ++ tail) len end_) := by
  induction end_ using versionEnd.induct (text ++ tail) len with
  | case1 end_ more c bad =>
    have other : c ≠ SP := more.2
    rw [versionEndChecked, if_pos more.1, read_inside tail (by omega), Option.bind_some, if_neg other, if_pos bad,
      versionEnd, if_pos more]
    simp only
    rw [if_pos bad]
  | case2 end_ more c good ih =>
    have other : c ≠ SP := more.2
    have step : versionEnd (text ++ tail) len end_ = versionEnd (text ++ tail) len (end_ + 1) := by
      rw [versionEnd, if_pos more]
      exact if_neg good
    rw [versionEndChecked, if_pos more.1, read_inside tail (by omega), Option.bind_some, if_neg other, if_neg good, ih, step]
  | case3 end_ last =>
    rw [versionEndChecked, versionEnd, if_neg last]
    by_cases inside : end_ < len
    · have space : (text ++ tail).getD end_ 0 = SP := by
        by_contra other
        exact last ⟨inside, other⟩
      rw [if_pos inside, read_inside tail (by omega), Option.bind_some, if_pos space]
    · rw [if_neg inside]

theorem commentsPrintableChecked_eq (within : len ≤ text.length) (i : Nat) :
    commentsPrintableChecked text len i = some (commentsPrintable (text ++ tail) len i) := by
  induction i using commentsPrintable.induct (text ++ tail) len with
  | case1 i inside c bad =>
    rw [commentsPrintableChecked, if_pos inside, read_inside tail (by omega), Option.bind_some, if_pos bad,
      commentsPrintable, if_pos inside]
    simp only
    rw [if_pos bad]
  | case2 i inside c good ih =>
    have step : commentsPrintable (text ++ tail) len i = commentsPrintable (text ++ tail) len (i + 1) := by
      rw [commentsPrintable, if_pos inside]
      exact if_neg good
    rw [commentsPrintableChecked, if_pos inside, read_inside tail (by omega), Option.bind_some, if_neg good, ih, step]
  | case3 i outside => rw [commentsPrintableChecked, if_neg outside, commentsPrintable, if_neg outside]

theorem softwareCheckChecked_eq (within : len ≤ text.length) (pos : Nat) :
    softwareCheckChecked text len pos = some (softwareCheck (text ++ tail) len pos) := by
  rw [softwareCheckChecked, softwareCheck, versionEndChecked_eq tail within, Option.bind_some]
  cases versionEnd (text ++ tail) len pos with
  | none => rfl
  | some end_ =>
    simp only [commentsPrintableChecked_eq tail within]
    rfl

theorem versionLengthChecked_eq (eight : 8 ≤ len) (within : len ≤ text.length) :
    versionLengthChecked text len = some (versionLength (text ++ tail) len) := by
  have second := @charsAtChecked_eq text tail 4 "2.0" (show 4 + 3 ≤ text.length by omega)
  rw [versionLengthChecked, versionLength, second, Option.bind_some]
  by_cases two : charsAt (text ++ tail) 4 "2.0" = true
  · rw [if_pos two, if_pos two]
  · rw [if_neg two, if_neg two]
    by_cases nine : len ≥ 9
    · have compatible := @charsAtChecked_eq text tail 4 "1.99" (show 4 + 4 ≤ text.length by omega)
      rw [if_pos nine, compatible, Option.map_some]
      simp only [nine, true_and]
    · rw [if_neg nine, if_neg (fun both => nine both.1)]

theorem dashChecked_eq (within : len ≤ text.length) (pos : Nat) :
    dashChecked text len pos =
      some (if pos ≥ len ∨ (text ++ tail).getD pos 0 ≠ 45 then -1
        else if pos + 1 ≥ len then -1 else softwareCheck (text ++ tail) len (pos + 1)) := by
  rw [dashChecked]
  by_cases outside : pos ≥ len
  · rw [if_pos outside, if_pos (Or.inl outside)]
  · rw [if_neg outside, read_inside tail (by omega), Option.bind_some, softwareCheckChecked_eq tail within]
    by_cases dash : (text ++ tail).getD pos 0 ≠ 45
    · rw [if_pos (Or.inl dash), if_pos (Or.inr dash)]
    · have plain : ¬(pos ≥ len ∨ (text ++ tail).getD pos 0 ≠ 45) := fun either => either.elim outside dash
      by_cases bare : pos + 1 ≥ len
      · rw [if_pos (Or.inr bare), if_neg plain, if_pos bare]
      · rw [if_neg (fun either => either.elim dash bare), if_neg plain, if_neg bare]

/-- Every read of the check lies within the line. -/
theorem sessionIdentCheckChecked_eq (text : List UInt8) :
    sessionIdentCheckChecked text = some (sessionIdentCheck (text ++ tail) text.length) := by
  have short := @IdentExchange.identStripCrlf_eq (text ++ tail) text.length (by simp)
  rw [List.take_left] at short
  have within : identStripCrlf (text ++ tail) text.length ≤ text.length := by
    rw [short]
    exact IdentExchange.stripped_length_le text
  rw [sessionIdentCheckChecked, identStripCrlfChecked_eq tail (Nat.le_refl _), Option.bind_some, sessionIdentCheck]
  generalize identStripCrlf (text ++ tail) text.length = len at within
  simp only
  by_cases bounds : len = 0 ∨ len > SSH_IDENT_MAX - 2
  · rw [if_pos (Or.inl bounds), if_pos bounds]
  · rw [if_neg bounds]
    by_cases eight : len < 8
    · rw [if_pos (Or.inr eight), if_pos (Or.inl eight)]
    · have banner := @charsAtChecked_eq text tail 0 "SSH-" (show 0 + 4 ≤ text.length by omega)
      rw [if_neg (fun either => either.elim bounds eight), banner, Option.bind_some]
      by_cases other : charsAt (text ++ tail) 0 "SSH-" = false
      · rw [if_pos other, if_pos (Or.inr other)]
      · rw [if_neg other, if_neg (fun either => either.elim eight other),
          versionLengthChecked_eq tail (Nat.le_of_not_lt eight) within, Option.bind_some]
        cases versionLength (text ++ tail) len with
        | none => rfl
        | some vlen => exact dashChecked_eq tail within (4 + vlen)

end

end Coalesce.CheckedIdent
