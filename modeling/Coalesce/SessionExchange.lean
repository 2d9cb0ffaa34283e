import Coalesce.Library.Lockstep
import Coalesce.SessionSend
import Mathlib.Logic.Relation

/-! Two sessions over a pair of byte streams. Each direction is a lockstep of a
sender and a receiver whose events are packets and key switches; a run may take
the calls of both parties in any order. -/

namespace Coalesce.SessionExchange
open Library.CallResult Library.ByteNumber Library.Lockstep Buffer BufferBytes BufferReaders Net Aes Session SessionReceive
open SessionDeliver SessionSend

/-- Arguments of one `session_set_keys`. -/
structure KeyArgs where
  cipherName : Option String
  iv : Option (List UInt8)
  ivLen : Nat
  key : Option (List UInt8)
  keyLen : Nat
  macName : Option String
  macKey : Option (List UInt8)
  macKeyLen : Nat

/-- `session_set_keys`, and `session_activate` when it succeeded. -/
def switchKeys (d : SshDirection) (args : KeyArgs) : SshDirection :=
  match sessionSetKeys args.cipherName args.iv args.ivLen args.key args.keyLen args.macName args.macKey args.macKeyLen d with
  | .ok _ t => sessionActivate t
  | .error _ t => t

inductive Event where
  | packet (payload padding : List UInt8)
  | switch (args : KeyArgs)

def afterEvent (d : SshDirection) : Event → SshDirection
  | .packet payload padding => counted d (framed payload padding)
  | .switch args => switchKeys d args

def emission (d : SshDirection) : Event → List UInt8
  | .packet payload padding => protect d (framed payload padding)
  | .switch _ => []

def Event.payload : Event → Option (List UInt8)
  | .packet payload _ => some payload
  | .switch _ => none

def payloads (events : List Event) : List (List UInt8) := events.filterMap Event.payload

theorem payloads_append (first second : List Event) : payloads (first ++ second) = payloads first ++ payloads second :=
  List.filterMap_append

/-! Key switches leave the sequence number. -/

/-- What does not look at the key material of a direction. -/
def Blind {α : Type} (view : SshDirection → α) : Prop :=
  ∀ d ctr macKey macKeyLen, view { d with ctr := ctr, macKey := macKey, macKeyLen := macKeyLen } = view d

theorem installMac_keeps {α : Type} {view : SshDirection → α} (blind : Blind view) (macName : String)
    (macKey : Option (List UInt8)) (macKeyLen : Nat) : Keeps view (installMac macName macKey macKeyLen) := by
  unfold installMac
  split
  · split
    · exact keeps_throw _ _
    · split
      · exact keeps_throw _ _
      · exact keeps_modify fun d => blind d _ _ _
  · split
    · exact keeps_modify fun d => blind d _ _ _
    · exact keeps_throw _ _

theorem sessionSetKeys_keeps {α : Type} {view : SshDirection → α} (blind : Blind view) (cipherName : Option String)
    (iv : Option (List UInt8)) (ivLen : Nat) (key : Option (List UInt8)) (keyLen : Nat) (macName : Option String)
    (macKey : Option (List UInt8)) (macKeyLen : Nat) :
    Keeps view (sessionSetKeys cipherName iv ivLen key keyLen macName macKey macKeyLen) := by
  unfold sessionSetKeys
  split
  · split
    · exact keeps_throw _ _
    · refine (keeps_failIf _ _).bind fun _ => (keeps_failIf _ _).bind fun _ => Keeps.bind ?_ fun _ => ?_
      · exact keeps_modify fun d => blind d _ _ _
      · exact (keeps_failIf _ _).bind fun _ => installMac_keeps blind _ _ _
  · exact keeps_throw _ _

theorem switchKeys_seq (d : SshDirection) (args : KeyArgs) : (switchKeys d args).seq = d.seq := by
  have kept := sessionSetKeys_keeps (fun _ _ _ _ => rfl : Blind SshDirection.seq) args.cipherName args.iv args.ivLen args.key args.keyLen args.macName args.macKey
    args.macKeyLen d
  unfold switchKeys
  generalize sessionSetKeys args.cipherName args.iv args.ivLen args.key args.keyLen args.macName args.macKey
    args.macKeyLen d = result at *
  cases result <;> exact kept

theorem afterEvent_seq (events : List Event) (d : SshDirection) :
    (events.foldl afterEvent d).seq = d.seq + UInt32.ofNat (payloads events).length := by
  induction events generalizing d with
  | nil => simp [payloads]
  | cons event events ih =>
    rw [List.foldl_cons, ih]
    cases event with
    | packet payload padding =>
      simp [payloads, Event.payload, afterEvent, counted, UInt32.ofNat_add, UInt32.add_assoc, UInt32.add_comm]
    | switch args => simp [payloads, Event.payload, afterEvent, switchKeys_seq, List.filterMap_cons]

/-! One direction. -/

/-- What holds between the sender and the receiver of one direction. -/
structure Channel (start : SshDirection) (events : List Event) (outPos inPos : Nat) (out inn : SshDirection)
    (rx : List UInt8) (sent got : List (List UInt8)) : Prop where
  linked : Linked afterEvent emission start events outPos inPos out inn rx
  fit : ∀ i payload padding, events[i]? = some (.packet payload padding) →
    Sendable payload ∧ padding.length = paddingSize (blockOf (stateAt afterEvent start events i)) payload.length
  sent : sent = payloads (events.take outPos)
  got : got = payloads (events.take inPos)

theorem silent_switch (args : KeyArgs) : Silent emission (.switch args) := fun _ => rfl

section
variable {start out inn : SshDirection} {events : List Event} {outPos inPos : Nat} {rx : List UInt8}
variable {sent got : List (List UInt8)}

theorem channel_start (d : SshDirection) : Channel d [] 0 0 d d [] [] [] :=
  ⟨linked_start, by simp, rfl, rfl⟩

private theorem take_current (event : Event) (current : events.length = outPos) :
    (events ++ [event]).take (outPos + 1) = events ++ [event] := by
  rw [List.take_of_length_le (by simp [current])]

private theorem fit_append (channel : Channel start events outPos inPos out inn rx sent got) {event : Event}
    {state : SshDirection} (now : state = stateAt afterEvent start events events.length)
    (fits : ∀ payload padding, event = .packet payload padding →
      Sendable payload ∧ padding.length = paddingSize (blockOf state) payload.length) :
    ∀ i payload padding, (events ++ [event])[i]? = some (.packet payload padding) →
      Sendable payload ∧
        padding.length = paddingSize (blockOf (stateAt afterEvent start (events ++ [event]) i)) payload.length := by
  intro i payload padding found
  rcases Nat.lt_trichotomy i events.length with earlier | rfl | later
  · rw [List.getElem?_append_left earlier] at found
    rw [stateAt_append [event] (by omega)]
    exact channel.fit i payload padding found
  · rw [List.getElem?_append_right (Nat.le_refl _), Nat.sub_self] at found
    rw [stateAt_append [event] (Nat.le_refl _), ← now]
    exact fits payload padding (Option.some.inj found)
  · rw [List.getElem?_eq_none (by simp; omega)] at found
    cases found

/-- The sender takes a new event. -/
theorem Channel.send (channel : Channel start events outPos inPos out inn rx sent got) (event : Event)
    (current : events.length = outPos)
    (fits : ∀ payload padding, event = .packet payload padding →
      Sendable payload ∧ padding.length = paddingSize (blockOf out) payload.length) :
    Channel start (events ++ [event]) (outPos + 1) inPos (afterEvent out event) inn (rx ++ emission out event)
      (sent ++ payloads [event]) got := by
  have length := channel.linked.length
  refine ⟨channel.linked.send event current, ?_, ?_, ?_⟩
  · exact fit_append channel (by rw [channel.linked.sender, current]) fits
  · rw [take_current event current, channel.sent, List.take_of_length_le (by omega), payloads_append]
  · rw [List.take_append_of_le_length (by omega), channel.got]

/-- The sender comes to a key switch that the receiver has made before. -/
theorem Channel.follow (channel : Channel start events outPos inPos out inn rx sent got) {args : KeyArgs}
    (next : events[outPos]? = some (.switch args)) :
    Channel start events (outPos + 1) inPos (switchKeys out args) inn rx sent got := by
  refine ⟨channel.linked.follow next, channel.fit, ?_, channel.got⟩
  rw [channel.sent, List.take_add_one, next, payloads_append]
  simp [payloads, Event.payload]

/-- The receiver makes a key switch first. -/
theorem Channel.lead (channel : Channel start events outPos inPos out inn rx sent got) {args : KeyArgs}
    (current : events.length = inPos) :
    Channel start (events ++ [.switch args]) outPos (inPos + 1) out (switchKeys inn args) rx sent got := by
  have length := channel.linked.length
  refine ⟨channel.linked.lead current (silent_switch args), ?_, ?_, ?_⟩
  · exact fit_append channel (show inn = _ by rw [channel.linked.receiver, current]) (by rintro _ _ ⟨⟩)
  · rw [List.take_append_of_le_length (by omega), channel.sent]
  · rw [take_current _ current, channel.got, List.take_of_length_le (by omega), payloads_append]
    simp [payloads, Event.payload]

/-- The receiver comes to an event of the sender. -/
theorem Channel.take (channel : Channel start events outPos inPos out inn rx sent got) {event : Event}
    (next : events[inPos]? = some event) :
    ∃ rest, rx = emission inn event ++ rest ∧
      Channel start events outPos (inPos + 1) out (afterEvent inn event) rest sent (got ++ payloads [event]) := by
  obtain ⟨rest, front, linked⟩ := channel.linked.take next
  refine ⟨rest, front, linked, channel.fit, channel.sent, ?_⟩
  rw [channel.got, List.take_add_one, next, payloads_append, Option.toList_some]

/-- What the receiver finds when its next event is a packet. -/
theorem Channel.front (channel : Channel start events outPos inPos out inn rx sent got) {payload padding : List UInt8}
    (next : events[inPos]? = some (.packet payload padding)) :
    Incoming inn rx (framed payload padding) ∧ GoodPadding (framed payload padding) ∧
      payloadOf (framed payload padding) = payload := by
  obtain ⟨rest, front, -⟩ := channel.take next
  obtain ⟨sendable, pad⟩ := channel.fit inPos payload padding next
  rw [← channel.linked.receiver] at pad
  obtain ⟨-, atMost, -⟩ := paddingSize_bounds inn payload.length
  obtain ⟨size, limits, good⟩ := framed_accepted inn sendable pad
  rw [front]
  exact ⟨incoming_protect inn _ rest size limits, good, framed_payload (by omega)⟩

theorem silent_payload {event : Event} (silent : Silent emission event) : event.payload = none := by
  cases event with
  | packet payload padding =>
    have nothing := congrArg List.length (silent zeroDirection)
    rw [emission, protect_length, framed_length, List.length_nil] at nothing
    omega
  | switch args => rfl

theorem Channel.got_initial (channel : Channel start events outPos inPos out inn rx sent got) : got <+: sent := by
  have length := channel.linked.length
  rw [channel.sent, channel.got]
  by_cases behind : inPos ≤ outPos
  · exact (List.take_prefix_take_left behind).filterMap _
  · have rest : payloads (events.drop outPos) = [] :=
      List.filterMap_eq_nil_iff.mpr fun event member => silent_payload (channel.linked.ahead event member)
    have split := congrArg payloads (List.take_append_drop outPos events)
    rw [payloads_append, rest, List.append_nil] at split
    rw [List.take_of_length_le (show events.length ≤ inPos by omega), split]

/-- The sequence numbers count the packets on their way. -/
theorem Channel.seq (channel : Channel start events outPos inPos out inn rx sent got) :
    out.seq - inn.seq = UInt32.ofNat (sent.length - got.length) := by
  have fewer := channel.got_initial.length_le
  have outSeq := afterEvent_seq (events.take outPos) start
  have inSeq := afterEvent_seq (events.take inPos) start
  rw [← channel.sent] at outSeq
  rw [← channel.got] at inSeq
  have total : UInt32.ofNat sent.length = UInt32.ofNat got.length + UInt32.ofNat (sent.length - got.length) := by
    rw [← UInt32.ofNat_add, Nat.add_sub_cancel' fewer]
  rw [channel.linked.sender, channel.linked.receiver, stateAt, stateAt, outSeq, inSeq, total]
  grind

/-- With every packet received nothing is left on the wire. -/
theorem Channel.idle (channel : Channel start events outPos inPos out inn rx sent got)
    (all : got.length = sent.length) : rx = [] := by
  apply channel.linked.quiet
  intro event member
  by_cases behind : inPos ≤ outPos
  · have split := congrArg payloads (List.take_append_drop inPos (events.take outPos))
    rw [payloads_append, List.take_take, Nat.min_eq_left behind, ← channel.got, ← channel.sent] at split
    have lengths := congrArg List.length split
    rw [List.length_append, all] at lengths
    have nothing : payloads ((events.take outPos).drop inPos) = [] := List.eq_nil_of_length_eq_zero (by omega)
    have none := List.filterMap_eq_nil_iff.mp nothing event member
    cases event with
    | packet payload padding => cases none
    | switch args => exact silent_switch args
  · rw [List.drop_of_length_le (by rw [List.length_take]; omega)] at member
    cases member

end

end Coalesce.SessionExchange
