import Libseff.Foundation.Runs
import Libseff.Queues.CircularArray

/-!
# The ticket queue

`tk_queue_t` of `utils/tk_queue.c`, for one owner and any number of thieves. Every atomic load,
store and compare-exchange is a step of its own, in one total order, as is every access of the slot
and every iteration of the loop of `circular_array_resize`. No array is ever freed.

`tk_queue_steal` loads the array once, before its loop. So a thief may use an array that the owner
has replaced since; the memory records the tail at that time, which no step reads.

An element of the queue is a non-null pointer, and `none` is `EMPTY`.
-/

set_option autoImplicit false
set_option relaxedAutoImplicit false

namespace Libseff.Queues.TkQueue

open Foundation CircularArray

variable {α Thief : Type*}

/-- `tk_queue_t`, the arrays in memory, and the tail when an array was replaced. -/
structure Memory (α : Type*) where
  head : ℤ
  tail : ℤ
  buffer : Option α
  array : Address
  heap : Address → Option (CircularArray (Option α))
  replaced : Address → Option ℤ

/-- The points of `tk_queue_push(self, elt)`: before the step that the name tells, with the local
variables that are still used. -/
inductive PushStep
  | loadArray
  | loadHead (arr : Address)
  | loadTail (arr : Address) (head : ℤ)
  | allocate (arr : Address) (head tail : ℤ)
  | copy (arr newArray : Address) (tail i : ℤ)
  | publish (newArray : Address) (tail : ℤ)
  | set (arr : Address) (tail : ℤ)
  | store (tail : ℤ)

/-- The points of `tk_queue_steal(self)`, which are those of `tk_queue_pop(self)` once the slot was
empty. -/
inductive TakeStep (α : Type*)
  | loadArray
  | loadHead (arr : Address)
  | loadTail (arr : Address) (head : ℤ)
  | get (arr : Address) (head : ℤ)
  | cas (arr : Address) (head : ℤ) (elt : Option α)

/-- Where the owner is. `tk_queue_push` is called by `tk_queue_priority_push` as well. -/
inductive OwnerPc (α : Type*)
  | idle
  | push (elt : α) (step : PushStep)
  | priorityLoad (elt : α)
  | priorityStore (elt : α) (oldBuffer : Option α)
  | popTest
  | popLoad
  | popClear (buffer : Option α)
  | take (step : TakeStep α)
  | done (result : Option α)

/-- Where a thief is. -/
inductive ThiefPc (α : Type*)
  | idle
  | take (step : TakeStep α)
  | done (result : Option α)

/-- One step of `tk_queue_push(self, elt)`. Where it allocates, `malloc` returns `fresh`, with some
contents. -/
def PushStep.advance (elt : α) (fresh : Address) (contents : ℕ → Option α) (m : Memory α) :
    PushStep → Option (OwnerPc α × Memory α)
  | .loadArray => some (.push elt (.loadHead m.array), m)
  | .loadHead arr => some (.push elt (.loadTail arr m.head), m)
  | .loadTail address head => do
    let arr ← m.heap address
    if m.tail - head > arr.size - 1 then some (.push elt (.allocate address head m.tail), m)
    else some (.push elt (.set address m.tail), m)
  | .allocate address head tail => do
    let arr ← m.heap address
    let newArray ← arr.double contents
    some (.push elt (.copy address fresh tail head),
      { m with heap := Function.update m.heap fresh (some newArray) })
  | .copy address newAddress tail i =>
    if i < tail then do
      let arr ← m.heap address
      let newArray ← m.heap newAddress
      some (.push elt (.copy address newAddress tail (i + 1)),
        { m with
          heap := Function.update m.heap newAddress (some (newArray.caSet i (arr.caGet i))) })
    else some (.push elt (.publish newAddress tail), m)
  | .publish newArray tail =>
    some (.push elt (.set newArray tail),
      { m with
        array := newArray
        replaced := Function.update m.replaced m.array (some m.tail) })
  | .set address tail => do
    let arr ← m.heap address
    some (.push elt (.store tail),
      { m with heap := Function.update m.heap address (some (arr.caSet tail (some elt))) })
  | .store tail => some (.done none, { m with tail := tail + 1 })

/-- One step of `tk_queue_steal(self)`, or of `tk_queue_pop(self)` behind the test of the slot: on
to another point, or to the result. -/
def TakeStep.advance (m : Memory α) :
    TakeStep α → Option ((TakeStep α ⊕ Option α) × Memory α)
  | .loadArray => some (.inl (.loadHead m.array), m)
  | .loadHead arr => some (.inl (.loadTail arr m.head), m)
  | .loadTail arr head =>
    if head = m.tail then some (.inr none, m) else some (.inl (.get arr head), m)
  | .get address head => do
    let arr ← m.heap address
    some (.inl (.cas address head (arr.caGet head)), m)
  | .cas arr head elt =>
    if m.head = head then some (.inr elt, { m with head := head + 1 })
    else some (.inl (.loadHead arr), m)

/-- One step of the owner. -/
def OwnerPc.advance (fresh : Address) (contents : ℕ → Option α) (m : Memory α) :
    OwnerPc α → Option (OwnerPc α × Memory α)
  | .idle => none
  | .push elt step => step.advance elt fresh contents m
  | .priorityLoad elt => some (.priorityStore elt m.buffer, m)
  | .priorityStore elt oldBuffer =>
    match oldBuffer with
    | some old => some (.push old .loadArray, { m with buffer := some elt })
    | none => some (.done none, { m with buffer := some elt })
  | .popTest => if m.buffer.isSome then some (.popLoad, m) else some (.take .loadArray, m)
  | .popLoad => some (.popClear m.buffer, m)
  | .popClear buffer => some (.done buffer, { m with buffer := none })
  | .take step => (step.advance m).map fun (next, m) ↦ (next.elim .take .done, m)
  | .done _ => none

/-- One step of a thief. -/
def ThiefPc.advance (m : Memory α) : ThiefPc α → Option (ThiefPc α × Memory α)
  | .idle => none
  | .take step => (step.advance m).map fun (next, m) ↦ (next.elim .take .done, m)
  | .done _ => none

/-- A queue and the threads that use it. -/
structure State (α Thief : Type*) where
  memory : Memory α
  owner : OwnerPc α
  thieves : Thief → ThiefPc α

/-- What happens in a step. -/
inductive Label (α Thief : Type*)
  | push (elt : α)
  | priorityPush (elt : α)
  | pop
  | steal (thief : Thief)
  | ownerStep
  | thiefStep (thief : Thief)
  | ownerFinish (result : Option α)
  | thiefFinish (thief : Thief) (result : Option α)

variable [DecidableEq Thief]

/-- The steps of the threads, in any order. -/
inductive Step : State α Thief → Label α Thief → State α Thief → Prop
  | push {s : State α Thief} (elt : α) (hidle : s.owner = .idle) :
      Step s (.push elt) { s with owner := .push elt .loadArray }
  | priorityPush {s : State α Thief} (elt : α) (hidle : s.owner = .idle) :
      Step s (.priorityPush elt) { s with owner := .priorityLoad elt }
  | pop {s : State α Thief} (hidle : s.owner = .idle) : Step s .pop { s with owner := .popTest }
  | steal {s : State α Thief} {thief : Thief} (hidle : s.thieves thief = .idle) :
      Step s (.steal thief)
        { s with thieves := Function.update s.thieves thief (.take .loadArray) }
  | ownerStep {s : State α Thief} {fresh : Address} {contents : ℕ → Option α} {pc : OwnerPc α}
      {memory : Memory α} (hfresh : s.memory.heap fresh = none)
      (hadvance : s.owner.advance fresh contents s.memory = some (pc, memory)) :
      Step s .ownerStep { s with memory := memory, owner := pc }
  | thiefStep {s : State α Thief} {thief : Thief} {pc : ThiefPc α} {memory : Memory α}
      (hadvance : (s.thieves thief).advance s.memory = some (pc, memory)) :
      Step s (.thiefStep thief)
        { s with memory := memory, thieves := Function.update s.thieves thief pc }
  | ownerFinish {s : State α Thief} {result : Option α} (hdone : s.owner = .done result) :
      Step s (.ownerFinish result) { s with owner := .idle }
  | thiefFinish {s : State α Thief} {thief : Thief} {result : Option α}
      (hdone : s.thieves thief = .done result) :
      Step s (.thiefFinish thief result)
        { s with thieves := Function.update s.thieves thief .idle }

/-- `tk_queue_init(self, log_size)`, when `malloc` returns `array`. -/
def tkQueueInit (logSize : ℕ) (hlogSize : logSize < 31) (array : Address)
    (contents : ℕ → Option α) : Memory α where
  head := 0
  tail := 0
  buffer := none
  array := array
  heap := Function.update (fun _ ↦ none) array (some (circularArrayNew logSize hlogSize contents))
  replaced := fun _ ↦ none

/-- The runs of a queue after `tk_queue_init(self, log_size)`. -/
def system (logSize : ℕ) (hlogSize : logSize < 31) :
    TransitionSystem (State α Thief) (Label α Thief) where
  initial s := (∃ array contents, s.memory = tkQueueInit logSize hlogSize array contents) ∧
    s.owner = .idle ∧ ∀ thief, s.thieves thief = .idle
  step := Step

/-- The steps in which no compare-exchange of a thief succeeds with an element from an array that
was replaced before its index was pushed. -/
def UsesLiveArray (s : State α Thief) : Label α Thief → Prop
  | .thiefStep thief => ∀ arr elt, s.thieves thief = .take (.cas arr s.memory.head elt) →
      ∀ tail, s.memory.replaced arr = some tail → s.memory.head < tail
  | _ => True

/-- The elements given to `tk_queue_push` and `tk_queue_priority_push`. -/
def pushed (labels : List (Label α Thief)) : List α :=
  labels.filterMap fun
    | .push elt => some elt
    | .priorityPush elt => some elt
    | _ => none

/-- The elements returned by `tk_queue_pop` and `tk_queue_steal`. -/
def returned (labels : List (Label α Thief)) : List α :=
  labels.filterMap fun
    | .ownerFinish result => result
    | .thiefFinish _ result => result
    | _ => none

/-- No call is in progress. -/
def State.Quiescent (s : State α Thief) : Prop :=
  s.owner = .idle ∧ ∀ thief, s.thieves thief = .idle

end Libseff.Queues.TkQueue
