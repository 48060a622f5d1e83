import Libseff.Foundation.Runs
import Mathlib.Algebra.Order.Ring.Int
import Mathlib.Algebra.Order.Ring.Nat

/-!
# The mailbox of an actor

`actor_insert_msg` and `actor_remove_msg` of `utils/actors.c`, for any number of senders and one
receiver. Every atomic operation and every access of a slot is a step of its own, in one total
order.

A sender reserves space, draws a ticket from `write_loc`, stores its message in the slot of the
ticket, and only then counts the message as ready. The receiver takes one from the count of the
ready messages, draws a ticket from `start`, and reads the slot of that one.

A message is a non-null pointer, and `none` is `NULL`.
-/

set_option autoImplicit false
set_option relaxedAutoImplicit false

namespace Libseff.Actors.Mailbox

open Foundation

variable {Msg Sender : Type*} {capacity : ℕ}

/-- `actor_t`. The tickets are counted on where the 64-bit `start` and `write_loc` wrap. -/
structure Memory (Msg : Type*) (capacity : ℕ) where
  mailbox : Fin capacity → Option Msg
  start : ℕ
  writeLoc : ℕ
  reservedSize : ℤ
  readySize : ℤ

/-- An `int64_t` as a `size_t`. -/
def toSize (value : ℤ) : ℤ := value % 2 ^ 64

/-- `ticket % actor->mailbox_capacity`, where the ticket is converted to a `size_t`. -/
def slot [NeZero capacity] (ticket : ℕ) : Fin capacity := Fin.ofNat capacity (ticket % 2 ^ 64)

/-- The points of `actor_insert_msg(actor, msg)`: before the step that the name tells, with the
local variables that are still used. The slot `loc` is that of the ticket. -/
inductive SenderPc (Msg : Type*)
  | idle
  | loadReserved (msg : Msg)
  | exchange (msg : Msg) (oldSize : ℤ)
  | addWriteLoc (msg : Msg)
  | store (msg : Msg) (ticket : ℕ)
  | addReady (msg : Msg) (ticket : ℕ)
  | done (msg : Msg) (result : Bool)

/-- The points of `actor_remove_msg(actor)`. -/
inductive ReceiverPc (Msg : Type*)
  | idle
  | loadReady
  | exchange (oldSize : ℤ)
  | addStart
  | read (ticket : ℕ)
  | clear (ticket : ℕ) (result : Option Msg)
  | check (result : Option Msg)
  | subReserved (result : Option Msg)
  | done (result : Option Msg)
  | failed

/-- One step of a sender. -/
def SenderPc.advance [NeZero capacity] (m : Memory Msg capacity) :
    SenderPc Msg → Option (SenderPc Msg × Memory Msg capacity)
  | .idle => none
  | .loadReserved msg =>
    if toSize m.reservedSize ≥ capacity then some (.done msg false, m)
    else some (.exchange msg m.reservedSize, m)
  | .exchange msg oldSize =>
    if m.reservedSize = oldSize then
      some (.addWriteLoc msg, { m with reservedSize := oldSize + 1 })
    else some (.done msg false, m)
  | .addWriteLoc msg => some (.store msg m.writeLoc, { m with writeLoc := m.writeLoc + 1 })
  | .store msg ticket =>
    some (.addReady msg ticket,
      { m with mailbox := Function.update m.mailbox (slot ticket) (some msg) })
  | .addReady msg _ => some (.done msg true, { m with readySize := m.readySize + 1 })
  | .done _ _ => none

/-- One step of the receiver. The assertion fails where the result is `NULL`. -/
def ReceiverPc.advance [NeZero capacity] (m : Memory Msg capacity) :
    ReceiverPc Msg → Option (ReceiverPc Msg × Memory Msg capacity)
  | .idle => none
  | .loadReady =>
    if m.readySize ≤ 0 then some (.done none, m) else some (.exchange m.readySize, m)
  | .exchange oldSize =>
    if m.readySize = oldSize then some (.addStart, { m with readySize := oldSize - 1 })
    else some (.done none, m)
  | .addStart => some (.read m.start, { m with start := m.start + 1 })
  | .read ticket => some (.clear ticket (m.mailbox (slot ticket)), m)
  | .clear ticket result =>
    some (.check result, { m with mailbox := Function.update m.mailbox (slot ticket) none })
  | .check result => if result.isSome then some (.subReserved result, m) else some (.failed, m)
  | .subReserved result => some (.done result, { m with reservedSize := m.reservedSize - 1 })
  | .done _ => none
  | .failed => none

/-- The message for which a sender draws a ticket. -/
def SenderPc.draws : SenderPc Msg → Option Msg
  | .addWriteLoc msg => some msg
  | _ => none

/-- A mailbox and the actors that use it. -/
structure State (Msg Sender : Type*) (capacity : ℕ) where
  memory : Memory Msg capacity
  senders : Sender → SenderPc Msg
  receiver : ReceiverPc Msg

/-- What happens in a step. A step of a sender tells the message that gets a ticket. -/
inductive Label (Msg Sender : Type*)
  | insert (sender : Sender) (msg : Msg)
  | senderStep (sender : Sender) (drawn : Option Msg)
  | insertFinish (sender : Sender) (msg : Msg) (result : Bool)
  | remove
  | receiverStep
  | removeFinish (result : Option Msg)

variable [NeZero capacity] [DecidableEq Sender]

/-- The steps of the actors, in any order. -/
inductive Step : State Msg Sender capacity → Label Msg Sender → State Msg Sender capacity → Prop
  | insert {s : State Msg Sender capacity} (sender : Sender) (msg : Msg)
      (hidle : s.senders sender = .idle) :
      Step s (.insert sender msg)
        { s with senders := Function.update s.senders sender (.loadReserved msg) }
  | senderStep {s : State Msg Sender capacity} {sender : Sender} {pc : SenderPc Msg}
      {memory : Memory Msg capacity}
      (hadvance : (s.senders sender).advance s.memory = some (pc, memory)) :
      Step s (.senderStep sender (s.senders sender).draws)
        { s with memory := memory, senders := Function.update s.senders sender pc }
  | insertFinish {s : State Msg Sender capacity} {sender : Sender} {msg : Msg} {result : Bool}
      (hdone : s.senders sender = .done msg result) :
      Step s (.insertFinish sender msg result)
        { s with senders := Function.update s.senders sender .idle }
  | remove {s : State Msg Sender capacity} (hidle : s.receiver = .idle) :
      Step s .remove { s with receiver := .loadReady }
  | receiverStep {s : State Msg Sender capacity} {pc : ReceiverPc Msg}
      {memory : Memory Msg capacity} (hadvance : s.receiver.advance s.memory = some (pc, memory)) :
      Step s .receiverStep { s with memory := memory, receiver := pc }
  | removeFinish {s : State Msg Sender capacity} {result : Option Msg}
      (hdone : s.receiver = .done result) :
      Step s (.removeFinish result) { s with receiver := .idle }

/-- `actor_init(actor, behavior, capacity)`, for the mailbox. -/
def actorInit : Memory Msg capacity where
  mailbox := fun _ ↦ none
  start := 0
  writeLoc := 0
  reservedSize := 0
  readySize := 0

/-- The runs of a mailbox after `actor_init`. -/
def system (Msg Sender : Type*) (capacity : ℕ) [NeZero capacity] [DecidableEq Sender] :
    TransitionSystem (State Msg Sender capacity) (Label Msg Sender) where
  initial s := s.memory = actorInit ∧ (∀ sender, s.senders sender = .idle) ∧ s.receiver = .idle
  step := Step

/-- The tickets drawn from `start` whose slot the receiver has not cleared. -/
def ReceiverPc.uncleared : ReceiverPc Msg → ℕ
  | .read _ => 1
  | .clear _ _ => 1
  | _ => 0

/-- The first ticket whose slot is not cleared. -/
def State.unread (s : State Msg Sender capacity) : ℕ := s.memory.start - s.receiver.uncleared

/-- The steps in which the receiver reads the slot of a ticket only after the sender with that
ticket has stored its message, and no sender stores its message in the slot of an unread ticket that
was drawn before `write_loc` wrapped. -/
def InTicketOrder (s : State Msg Sender capacity) : Label Msg Sender → Prop
  | .receiverStep => ∀ ticket, s.receiver = .read ticket →
      ∀ sender msg, s.senders sender ≠ .store msg ticket
  | .senderStep sender _ => ∀ msg ticket, s.senders sender = .store msg ticket →
      ∀ earlier, s.unread ≤ earlier → earlier / 2 ^ 64 < ticket / 2 ^ 64 →
        (slot earlier : Fin capacity) ≠ slot ticket
  | _ => True

/-- The messages in the order of their tickets. -/
def drawn (labels : List (Label Msg Sender)) : List Msg :=
  labels.filterMap fun
    | .senderStep _ drawn => drawn
    | _ => none

/-- The messages for which `actor_insert_msg` returned true. -/
def accepted (labels : List (Label Msg Sender)) : List Msg :=
  labels.filterMap fun
    | .insertFinish _ msg true => some msg
    | _ => none

/-- The messages that `actor_remove_msg` returned. -/
def returned (labels : List (Label Msg Sender)) : List Msg :=
  labels.filterMap fun
    | .removeFinish result => result
    | _ => none

/-- The steps of the receiver. -/
def Label.ByReceiver : Label Msg Sender → Prop
  | .remove => True
  | .receiverStep => True
  | .removeFinish _ => True
  | _ => False

/-- No call is in progress. -/
def State.Quiescent (s : State Msg Sender capacity) : Prop :=
  (∀ sender, s.senders sender = .idle) ∧ s.receiver = .idle

end Libseff.Actors.Mailbox
