import Coalesce.ProgramCalls

/-! The command line of main.c: which targets lead to a connection, and to which one. -/

namespace Coalesce.CommandLine
open Library.CallResult Buffer Ident Target Program ProgramCalls

/-- The two ways in which `connect` goes: to the client with the reading of the target, or
to the error message, with nothing else done. -/
inductive Connects (sys : System) (target : List UInt8) (s : ProgState) : EStateM.Result Exit ProgState Int → Prop
  | client {user host tail : List UInt8} {port : Int} (names : Names sys.wide target user host tail port)
      (fits : Fits emptyTarget user host port) : Connects sys target s (client sys user host port s)
  | usage (unfit : ∀ user host tail port, Names sys.wide target user host tail port → ¬Fits emptyTarget user host port) :
      Connects sys target s (.ok 1 { s with err := s.err ++
        (literal "error: invalid target format '" ++ target ++ literal "' (expected user@host[:port])\n") })

theorem connectCommand_connects (sys : System) {target : List UInt8} (text : 0 ∉ target) (s : ProgState) :
    Connects sys target s (connectCommand sys target s) := by
  have exactly := parses_exactly sys.wide target emptyTarget text
  rw [connectCommand]
  cases parsed : parseTarget sys.wide target emptyTarget with
  | ok value t =>
    obtain ⟨-, fits, tail, names⟩ := exactly.taken t parsed
    exact .client names fits
  | error exit t =>
    cases exit with
    | fail => exact .usage (exactly.refused t parsed).2
    | hang => exact absurd parsed (exactly.returns t)

/-- The command `connect` with any target, and with anything behind it. -/
theorem connect_exactly (sys : System) (started : sys.netInit = true) (target : List UInt8) (text : 0 ∉ target)
    (more : List (List UInt8)) (s : ProgState) :
    Connects sys target s (main sys (literal "connect" :: target :: more) s) := by
  have other : literal "connect" ≠ literal "serve" := by decide
  have dispatched : main sys (literal "connect" :: target :: more) s = connectCommand sys target s := by
    rw [main, if_pos started, if_neg other, if_pos rfl]
  rw [dispatched]
  exact connectCommand_connects sys text s

theorem connect_exactly_with_port :
    Connects plainSystem (literal "root@localhost:2222") plainState
      (main plainSystem (literal "connect" :: literal "root@localhost:2222" :: []) plainState) :=
  connect_exactly plainSystem rfl (literal "root@localhost:2222") (by decide +kernel) [] plainState

end Coalesce.CommandLine
