import Coalesce.ClientRun
import Coalesce.Library.StreamPair
import Coalesce.ServerRun

/-! The client and the server of main.c, connected to each other. Their bytes travel in
pieces of any size and the two programs take turns in any order. -/

namespace Coalesce.ProgramPair
open Library.CallResult Library.StreamPair Buffer BufferBytes BufferReaders Net Session SessionReceive SessionDeliver
open SessionSend
open SessionNetwork (drawn drawn_length)
open Ident IdentExchange IdentScan IdentGrammar Target Program ProgramCalls ServerRun ClientRun

/-- One end of the connection: the system there, the socket and the state at the call. -/
structure Host where
  sys : System
  sock : Socket
  state : ProgState

def outcomeOf (a : Account) : Outcome UInt8 Account := ⟨a.written, if a.result.isSome then some a else none⟩

/-- The client is the left program. -/
def programs (host : Side → Host) : Side → Library.StreamPair.Program UInt8 Account
  | .left => fun stream => outcomeOf (account (clientSession (host .left).sys { (host .left).sock with rx := stream } (host .left).state))
  | .right => fun stream =>
      outcomeOf (account (serverSession (host .right).sys { (host .right).sock with rx := stream } (host .right).state))

/-- All that either program writes. -/
def streams (host : Side → Host) : Side → List UInt8
  | .left => IDENT_STRING ++ testPacket (host .left).sys
  | .right => IDENT_STRING ++ replyPacket (host .right).sys

def clientText : List UInt8 :=
  literal "[client] Server identification: SSH-2.0-coalesce_0.0.1\n" ++
  literal "[client] Sent SSH_MSG_IGNORE packet (seq=0)\n" ++
  literal "[client] Received SSH_MSG_DEBUG (always_display=1): Coalesce session layer framed the packet successfully\n" ++
  literal "[client] Connection closed.\n"

def serverText : List UInt8 :=
  literal "[server] Client identification: SSH-2.0-coalesce_0.0.1\n" ++
  literal "[server] Received packet msg_type=2, payload_len=25, seq=0\n" ++
  literal "[server] Session ended cleanly.\n"

/-- What a good session shows on either side. -/
def accounts (host : Side → Host) : Side → Account
  | .left => ⟨some 0, (host .left).state.out ++ clientText, (host .left).state.err, streams host .left⟩
  | .right => ⟨some 0, (host .right).state.out ++ serverText, (host .right).state.err, streams host .right⟩

/-- A packet that the other program sends in clear is found where it was sent. -/
theorem clear_packet {rand : (n : Nat) → Option (Vector UInt8 n)} (entropy : ∀ n, (rand n).isSome) {payload : List UInt8}
    (sendable : Sendable payload) (rest : List UInt8) :
    Incoming zeroDirection (framed payload (drawn rand zeroDirection payload) ++ rest)
        (framed payload (drawn rand zeroDirection payload)) ∧
      GoodPadding (framed payload (drawn rand zeroDirection payload)) ∧
      payloadOf (framed payload (drawn rand zeroDirection payload)) = payload := by
  have pad := drawn_length entropy zeroDirection payload
  obtain ⟨-, atMost, -⟩ := paddingSize_bounds zeroDirection payload.length
  obtain ⟨size, limits, good⟩ := framed_accepted zeroDirection sendable pad
  exact ⟨incoming_protect zeroDirection _ rest size limits, good, framed_payload (by omega)⟩

/-- The identification of this program is taken by the other one. -/
theorem answered_ident (rest : List UInt8) : Answered 50 (IDENT_STRING ++ rest) [] IDENT_STRING rest :=
  { stream := rfl
    count := by decide
    earlier := by simp
    whole := ⟨stripped IDENT_STRING ++ [CR], by decide, by decide, by decide⟩
    banner := by
      unfold Banner
      decide +kernel
    valid := by
      have identification : Identification (stripped IDENT_STRING) :=
        ⟨by decide, literal "2.0", literal "coalesce_0.0.1", [], by decide, Or.inl rfl, by decide, by
          unfold VersionChar
          decide +kernel, Or.inl rfl⟩
      simpa using (accepts_iff IDENT_STRING []).mpr (Or.inl identification) }

theorem clientText_eq : serverLine IDENT_STRING ++ (sentLine ++ (replyLine replyPayload ++ closedLine)) = clientText := by
  decide +kernel

theorem serverText_eq : clientLine IDENT_STRING ++ (packetLine testPayload ++ endLine) = serverText := by
  decide +kernel

section
variable {sys : System} {sock : Socket} {s : ProgState}

theorem client_begins (ready : Ready sys sock s) : IDENT_STRING <+: (account (clientSession sys sock s)).written := by
  have ends := client_ends sys sock s ready
  generalize account (clientSession sys sock s) = a at ends
  cases ends with
  | unidentified => exact List.prefix_rfl
  | silent => exact List.prefix_append _ _
  | stuck => exact List.prefix_append _ _
  | answered => exact List.prefix_append _ _

theorem server_begins (ready : Ready sys sock s) : IDENT_STRING <+: (account (serverSession sys sock s)).written := by
  have ends := server_ends sys sock s ready
  generalize account (serverSession sys sock s) = a at ends
  cases ends with
  | unidentified => exact List.prefix_rfl
  | refused => exact List.prefix_rfl
  | stuck => exact List.prefix_rfl
  | served => exact List.prefix_append _ _

/-- With the identification of a server before it, the client has sent all it is going to send. -/
theorem client_sends (ready : Ready sys sock s) {rest : List UInt8} (stream : sock.rx = IDENT_STRING ++ rest) :
    (account (clientSession sys sock s)).written = IDENT_STRING ++ testPacket sys := by
  have ends := client_ends sys sock s ready
  rw [stream] at ends
  generalize account (clientSession sys sock s) = a at ends
  cases ends with
  | unidentified absent => exact absurd (answered_ident rest) (absent _ _ _)
  | silent => rfl
  | stuck => rfl
  | answered => rfl

theorem client_returns (ready : Ready sys sock s) {peer : System} (entropy : ∀ n, (peer.rand n).isSome) {rest : List UInt8}
    (stream : sock.rx = IDENT_STRING ++ (replyPacket peer ++ rest)) :
    account (clientSession sys sock s) = ⟨some 0, s.out ++ clientText, s.err, IDENT_STRING ++ testPacket sys⟩ := by
  obtain ⟨incoming, good, payload⟩ := clear_packet entropy (show Sendable replyPayload by decide) rest
  have ends := client_ends sys sock s ready
  rw [stream] at ends
  have here := answered_ident (replyPacket peer ++ rest)
  generalize account (clientSession sys sock s) = a at ends
  cases ends with
  | unidentified absent => exact absurd here (absent _ _ _)
  | silent answered wrong =>
    obtain ⟨-, -, rfl⟩ := here.unique answered
    exact absurd good (wrong _ incoming).1
  | stuck answered other overrun =>
    obtain ⟨-, -, rfl⟩ := here.unique answered
    rw [other.unique incoming] at overrun
    exact absurd overrun (good_not_overrun good)
  | answered answered other =>
    obtain ⟨-, rfl, rfl⟩ := here.unique answered
    rw [other.unique incoming, payload]
    simp only [List.append_assoc, clientText_eq]

theorem server_returns (ready : Ready sys sock s) {peer : System} (entropy : ∀ n, (peer.rand n).isSome) {rest : List UInt8}
    (stream : sock.rx = IDENT_STRING ++ (testPacket peer ++ rest)) :
    account (serverSession sys sock s) = ⟨some 0, s.out ++ serverText, s.err, IDENT_STRING ++ replyPacket sys⟩ := by
  obtain ⟨incoming, good, payload⟩ := clear_packet entropy (show Sendable testPayload by decide) rest
  have ends := server_ends sys sock s ready
  rw [stream] at ends
  have here := answered_ident (testPacket peer ++ rest)
  generalize account (serverSession sys sock s) = a at ends
  cases ends with
  | unidentified absent => exact absurd here (absent _ _ _)
  | refused answered wrong =>
    obtain ⟨-, -, rfl⟩ := here.unique answered
    exact absurd good (wrong _ incoming).1
  | stuck answered other overrun =>
    obtain ⟨-, -, rfl⟩ := here.unique answered
    rw [other.unique incoming] at overrun
    exact absurd overrun (good_not_overrun good)
  | served answered other =>
    obtain ⟨-, rfl, rfl⟩ := here.unique answered
    rw [other.unique incoming, payload]
    simp only [List.append_assoc, serverText_eq]

end

/-! Both programs together. -/

/-- Both ends are ready for a connection. -/
structure Connected (host : Side → Host) : Prop where
  left : Ready (host .left).sys (host .left).sock (host .left).state
  right : Ready (host .right).sys (host .right).sock (host .right).state

theorem outcome_returned {a : Account} {code : Int} (returned : a.result = some code) : outcomeOf a = ⟨a.written, some a⟩ := by
  rw [outcomeOf, returned]
  rfl

section
variable {host : Side → Host}

theorem Connected.leftReady (connected : Connected host) (stream : List UInt8) :
    Ready (host .left).sys { (host .left).sock with rx := stream } (host .left).state :=
  ⟨connected.left.plenty, connected.left.accepting, connected.left.unused, connected.left.entropy⟩

theorem Connected.rightReady (connected : Connected host) (stream : List UInt8) :
    Ready (host .right).sys { (host .right).sock with rx := stream } (host .right).state :=
  ⟨connected.right.plenty, connected.right.accepting, connected.right.unused, connected.right.entropy⟩

theorem left_returns (connected : Connected host) {stream : List UInt8} (seen : streams host .right <+: stream) :
    programs host .left stream = ⟨streams host .left, some (accounts host .left)⟩ := by
  obtain ⟨rest, rfl⟩ := seen
  have ends := client_returns (connected.leftReady (streams host .right ++ rest)) connected.right.entropy
    (List.append_assoc _ _ rest)
  exact (congrArg outcomeOf ends).trans (outcome_returned rfl)

theorem right_returns (connected : Connected host) {stream : List UInt8} (seen : streams host .left <+: stream) :
    programs host .right stream = ⟨streams host .right, some (accounts host .right)⟩ := by
  obtain ⟨rest, rfl⟩ := seen
  have ends := server_returns (connected.rightReady (streams host .left ++ rest)) connected.left.entropy
    (List.append_assoc _ _ rest)
  exact (congrArg outcomeOf ends).trans (outcome_returned rfl)

/-- A program that is not yet through with what it is certain to write. -/
theorem more_to_write {program : Library.StreamPair.Program UInt8 Account} {written whole seen : List UInt8}
    (short : written <+: whole) (part : written ≠ whole)
    (certain : ∀ later, seen <+: later → whole <+: (program later).written) :
    ∃ more, more ≠ [] ∧ ∀ later, seen <+: later → written ++ more <+: (program later).written := by
  obtain ⟨more, rfl⟩ := short
  refine ⟨more, ?_, certain⟩
  intro nothing
  rw [nothing, List.append_nil] at part
  exact part rfl

/-- A program that has not yet written its identification has more to write. -/
theorem ident_to_write {side : Side} {written : Side → List UInt8} (within : written side <+: streams host side)
    (short : ¬IDENT_STRING <+: written side) (certain : ∀ later, IDENT_STRING <+: (programs host side later).written) :
    ∃ more, more ≠ [] ∧ ∀ later, written side.other <+: later → written side ++ more <+: (programs host side later).written := by
  have starts : IDENT_STRING <+: streams host side := by cases side <;> exact List.prefix_append _ _
  rcases List.prefix_or_prefix_of_prefix within starts with part | whole
  · refine more_to_write part ?_ fun later _ => certain later
    intro same
    rw [same] at short
    exact short List.prefix_rfl
  · exact absurd whole short

/-- Either program is certain of its identification, the client of its packet once it has
the identification of the server, and the server of its answer once it has the packet. -/
theorem lively (connected : Connected host) : Lively (programs host) (streams host) (accounts host) := by
  refine ⟨⟨fun side => ?_⟩, fun written within part => ?_, .left, fun later seen => left_returns connected seen⟩
  · cases side with
    | left => exact left_returns connected List.prefix_rfl
    | right => exact right_returns connected List.prefix_rfl
  · by_cases leftIdent : IDENT_STRING <+: written .left
    swap
    · exact ⟨.left, ident_to_write (within .left) leftIdent fun later => client_begins (connected.leftReady later)⟩
    by_cases rightIdent : IDENT_STRING <+: written .right
    swap
    · exact ⟨.right, ident_to_write (within .right) rightIdent fun later => server_begins (connected.rightReady later)⟩
    by_cases leftWhole : written .left = streams host .left
    · refine ⟨.right, more_to_write (within .right) ?_ fun later seen => ?_⟩
      · intro rightWhole
        refine part (funext fun side => ?_)
        cases side with
        | left => exact leftWhole
        | right => exact rightWhole
      · rw [right_returns connected (show streams host .left <+: later from leftWhole ▸ seen)]
    · refine ⟨.left, more_to_write (within .left) leftWhole fun later seen => ?_⟩
      obtain ⟨rest, rfl⟩ := List.IsPrefix.trans rightIdent seen
      have sent := client_sends (connected.leftReady (IDENT_STRING ++ rest)) rfl
      rw [show (programs host .left (IDENT_STRING ++ rest)).written = streams host .left from sent]

end

/-- In whatever order the programs take their turns, and in whatever pieces their bytes
travel: every run ends, no program shows anything but a good session, and a run that cannot
go on is one in which both have returned. -/
theorem session_completes (host : Side → Host) (connected : Connected host) (count : Nat) (joint : Joint UInt8 Account)
    (reached : Reached (programs host) count joint) :
    count ≤ 2 * ((streams host .left).length + (streams host .right).length) + 2 ∧
      (∀ side a, joint.result side = some a → a = accounts host side) ∧
      ((∀ next, ¬Step (programs host) joint next) → ∀ side, joint.result side = some (accounts host side)) := by
  have alive := lively connected
  refine ⟨reached.bound alive.toFits, ?_, ?_⟩
  · intro side a returned
    exact ((reached.behind alive.toFits).result side a returned).1
  · intro still side
    exact (reached.finished alive still side).1

def plainHost : Side → Host := fun _ => ⟨plainSystem, plainSocket [], plainState⟩

/-- A run to its end: both programs return, each with its part of a good session. -/
theorem session_completes_to_end : ∃ count joint, Reached (programs plainHost) count joint ∧
    (∀ next, ¬Step (programs plainHost) joint next) ∧
    count ≤ 2 * ((streams plainHost .left).length + (streams plainHost .right).length) + 2 ∧
    ∀ side, joint.result side = some (accounts plainHost side) := by
  have connected : Connected plainHost := ⟨plain_ready [], plain_ready []⟩
  obtain ⟨count, joint, reached, still⟩ := exists_still (lively connected).toFits
  obtain ⟨bound, -, ended⟩ := session_completes plainHost connected count joint reached
  exact ⟨count, joint, reached, still, bound, ended still⟩

end Coalesce.ProgramPair
