import Coalesce.CheckedIdent
import Coalesce.IdentScan

/-! The lines that `session_ident_check` accepts. The code asks for something behind the
dash of the protocol version, not for a software version: a space will do. -/

namespace Coalesce.IdentGrammar
open Session Ident IdentExchange CheckedIdent IdentScan

def Comments (c : List UInt8) : Prop := c = [] ∨ ∃ text, c = SP :: text ∧ ∀ char ∈ text, CommentChar char

/-- `"SSH-" v "-" softwareversion [SP comments]`, within the limit on the line. -/
def Identification (w : List UInt8) : Prop :=
  w.length ≤ 253 ∧ ∃ v sw c, w = literal "SSH-" ++ v ++ literal "-" ++ sw ++ c ∧ Protocol v ∧
    sw ≠ [] ∧ (∀ char ∈ sw, VersionChar char) ∧ Comments c

/-- An identification but for its software version, which is empty and followed by comments. -/
def BlankVersion (w : List UInt8) : Prop :=
  w.length ≤ 253 ∧ ∃ v text, w = literal "SSH-" ++ v ++ literal "-" ++ SP :: text ∧ Protocol v ∧
    ∀ char ∈ text, CommentChar char

theorem takeWhile_version {sw c : List UInt8} (version : ∀ char ∈ sw, VersionChar char) (comments : Comments c) :
    (sw ++ c).takeWhile (· ≠ SP) = sw ∧ (sw ++ c).dropWhile (· ≠ SP) = c := by
  have run : ∀ char ∈ sw, decide (char ≠ SP) = true := by
    intro char member
    apply decide_eq_true
    intro space
    have low := (version char member).1
    rw [space] at low
    exact absurd low (by decide)
  rw [List.takeWhile_append_of_pos run, List.dropWhile_append_of_pos run]
  rcases comments with rfl | ⟨text, rfl, -⟩
  · exact ⟨List.append_nil sw, rfl⟩
  · exact ⟨List.append_nil sw, rfl⟩

/-- The loops take the text apart at its first space. -/
theorem software_iff (text : List UInt8) :
    Software text ↔ ∃ sw c, text = sw ++ c ∧ (∀ char ∈ sw, VersionChar char) ∧ Comments c := by
  constructor
  · rintro ⟨version, comments⟩
    refine ⟨_, _, List.takeWhile_append_dropWhile.symm, version, ?_⟩
    cases behind : text.dropWhile (· ≠ SP) with
    | nil => exact Or.inl rfl
    | cons char rest =>
      have space : char = SP := by
        have stopped := List.head?_dropWhile_not (fun char => decide (char ≠ SP)) text
        rw [behind] at stopped
        simpa using stopped
      rw [behind] at comments
      exact Or.inr ⟨rest, by rw [space], fun char member => comments char (List.mem_cons_of_mem _ member)⟩
  · rintro ⟨sw, c, rfl, version, comments⟩
    rw [Software, (takeWhile_version version comments).1, (takeWhile_version version comments).2]
    refine ⟨version, fun char member => ?_⟩
    rcases comments with rfl | ⟨text, rfl, printable⟩
    · exact absurd member List.not_mem_nil
    · rcases List.mem_cons.mp member with rfl | member
      · exact ⟨by decide, by decide⟩
      · exact printable char member

/-- The check accepts the identifications and, by its slip, those without a software version. -/
theorem accepts_iff (text tail : List UInt8) :
    sessionIdentCheck (text ++ tail) text.length = 0 ↔ Identification (stripped text) ∨ BlankVersion (stripped text) := by
  rw [sessionIdentCheck_iff, Identification, BlankVersion, ← and_or_left]
  refine and_congr_right fun _ => ?_
  constructor
  · rintro ⟨v, text, protocol, split, something, accepted⟩
    obtain ⟨sw, c, rfl, version, comments⟩ := (software_iff text).mp accepted
    by_cases blank : sw = []
    · rw [blank, List.nil_append] at something split
      rcases comments with nothing | ⟨text, rfl, printable⟩
      · exact absurd nothing something
      · exact Or.inr ⟨v, text, split, protocol, printable⟩
    · exact Or.inl ⟨v, sw, c, by rw [split, List.append_assoc _ sw c], protocol, blank, version, comments⟩
  · rintro (⟨v, sw, c, split, protocol, something, version, comments⟩ | ⟨v, text, split, protocol, printable⟩)
    · exact ⟨v, sw ++ c, protocol, by rw [split, List.append_assoc _ sw c], by simp [something],
        (software_iff _).mpr ⟨sw, c, rfl, version, comments⟩⟩
    · exact ⟨v, SP :: text, protocol, split, List.cons_ne_nil _ _,
        (software_iff _).mpr ⟨[], SP :: text, rfl, by simp, Or.inr ⟨text, rfl, printable⟩⟩⟩

theorem identification_not_blank {w : List UInt8} (identification : Identification w) : ¬BlankVersion w := by
  rintro ⟨-, v', text, split', protocol', -⟩
  obtain ⟨-, v, sw, c, split, protocol, something, version, -⟩ := identification
  rw [split'] at split
  simp only [List.append_assoc] at split
  have behind := (protocol_unique protocol' protocol (List.append_cancel_left split)).2
  obtain ⟨first, rest, rfl⟩ := List.exists_cons_of_ne_nil something
  have space : SP = first := (List.cons.inj (List.append_cancel_left behind)).1
  have low := (version first List.mem_cons_self).1
  rw [← space] at low
  exact absurd low (by decide)

/-- The check reads nothing but the line and returns 0 on exactly the identifications. -/
def ChecksGrammar (text : List UInt8) : Prop :=
  ∀ tail, sessionIdentCheckChecked text = some (sessionIdentCheck (text ++ tail) text.length) ∧
    (sessionIdentCheck (text ++ tail) text.length = 0 ↔ Identification (stripped text))

theorem checks_grammar_iff (text : List UInt8) : ChecksGrammar text ↔ ¬BlankVersion (stripped text) := by
  constructor
  · intro exact_ blank
    have accepted := (accepts_iff text []).mpr (Or.inr blank)
    exact identification_not_blank ((exact_ []).2.mp accepted) blank
  · intro versioned tail
    refine ⟨sessionIdentCheckChecked_eq tail text, (accepts_iff text tail).trans ?_⟩
    exact or_iff_left versioned

/-- `"SSH-2.0- x"` has no software version. -/
theorem blank_version_accepted : ¬∀ text, ChecksGrammar text := by
  intro claimed
  have blank : BlankVersion (stripped (literal "SSH-2.0- x\r\n")) :=
    ⟨by decide, literal "2.0", literal "x", by decide, Or.inl rfl, by
      intro char member
      rw [show literal "x" = [120] from rfl, List.mem_singleton] at member
      rw [member]
      exact ⟨by decide, by decide⟩⟩
  have accepted := (accepts_iff _ []).mpr (Or.inr blank)
  exact identification_not_blank ((claimed _ []).2.mp accepted) blank

end Coalesce.IdentGrammar
