import Libseff.Foundation.Linearizability
import Libseff.Queues.CircularArray

/-!
# The queue with a lock

`tl_queue_t` of `utils/tl_queue.c`, for one owner and any number of thieves. Every thread advances
by single steps: one access of the lock, of the slot, or of the array, or one store of an index.
Only the plain loads that start a critical section are one step together. The heap holds the arrays
that `malloc` returned and `free` was not given; an access of another address is a fault, and the
thread does not advance.

An element of the queue is a non-null pointer, and `none` is `EMPTY`.
-/

set_option autoImplicit false
set_option relaxedAutoImplicit false

namespace Libseff.Queues

open Foundation CircularArray

namespace TlQueue

variable {α Thief : Type*}

/-- The functions of `tl_queue.h`. -/
inductive Operation (α : Type*)
  | push (elt : α)
  | priorityPush (elt : α)
  | pop
  | steal

/-- `tl_queue_t`, and the arrays in memory. -/
structure Memory (α : Type*) where
  locked : Bool
  head : ℤ
  tail : ℤ
  buffer : Option α
  array : Address
  heap : Address → Option (CircularArray (Option α))

/-- The points of `tl_queue_push`, with the local variables that are still used. -/
inductive PushStep
  | acquire
  | load
  | resize (arr : Address) (head tail : ℤ)
  | free (newArray : Address) (tail : ℤ)
  | storeArray (newArray : Address) (tail : ℤ)
  | set (arr : Address) (tail : ℤ)
  | storeTail (tail : ℤ)
  | release

/-- The points of `tl_queue_steal`, which are those of `tl_queue_pop` once the slot was empty. -/
inductive TakeStep (α : Type*)
  | acquire
  | load
  | get (arr : Address) (head : ℤ)
  | storeHead (elt : Option α) (head : ℤ)
  | release (result : Option α)

/-- Where a thread is: in `tl_queue_push(self, elt)`, called by the client or by
`tl_queue_priority_push`, at the accesses of the slot in `tl_queue_priority_push` and
`tl_queue_pop`, in the locked part of `tl_queue_pop` or `tl_queue_steal`, or about to return. -/
inductive Pc (α : Type*)
  | idle
  | push (operation : Operation α) (elt : α) (step : PushStep)
  | priorityLoad (elt : α)
  | priorityStore (elt : α) (oldBuffer : Option α)
  | popTest
  | popLoad
  | popClear (buffer : Option α)
  | take (operation : Operation α) (step : TakeStep α)
  | done (result : Option α)

/-- The first point of a function. -/
def Operation.entry : Operation α → Pc α
  | .push elt => .push (.push elt) elt .acquire
  | .priorityPush elt => .priorityLoad elt
  | .pop => .popTest
  | .steal => .take .steal .acquire

/-- Only the owner may push and pop. -/
def Operation.MayCall : Operation α → Thread Thief → Prop
  | _, .owner => True
  | .steal, .thief _ => True
  | _, .thief _ => False

/-- One step of `tl_queue_push(self, elt)`. Where it allocates, `malloc` returns `fresh`, with some
contents. -/
def PushStep.advance (operation : Operation α) (elt : α) (fresh : Address)
    (contents : ℕ → Option α) (m : Memory α) : PushStep → Option (Pc α × Memory α)
  | .acquire =>
    if m.locked then some (.push operation elt .acquire, m)
    else some (.push operation elt .load, { m with locked := true })
  | .load => do
    let arr ← m.heap m.array
    if m.tail - m.head > arr.size - 1 then
      some (.push operation elt (.resize m.array m.head m.tail), m)
    else some (.push operation elt (.set m.array m.tail), m)
  | .resize arr head tail => do
    let arr ← m.heap arr
    let newArray ← arr.circularArrayResize tail head contents
    some (.push operation elt (.free fresh tail),
      { m with heap := Function.update m.heap fresh (some newArray) })
  | .free newArray tail => do
    let _ ← m.heap m.array
    some (.push operation elt (.storeArray newArray tail),
      { m with heap := Function.update m.heap m.array none })
  | .storeArray newArray tail =>
    some (.push operation elt (.set newArray tail), { m with array := newArray })
  | .set address tail => do
    let arr ← m.heap address
    some (.push operation elt (.storeTail tail),
      { m with heap := Function.update m.heap address (some (arr.caSet tail (some elt))) })
  | .storeTail tail => some (.push operation elt .release, { m with tail := tail + 1 })
  | .release => some (.done none, { m with locked := false })

/-- One step of `tl_queue_steal(self)`, or of `tl_queue_pop(self)` behind the test of the slot. -/
def TakeStep.advance (operation : Operation α) (m : Memory α) :
    TakeStep α → Option (Pc α × Memory α)
  | .acquire =>
    if m.locked then some (.take operation .acquire, m)
    else some (.take operation .load, { m with locked := true })
  | .load =>
    if m.head = m.tail then some (.take operation (.release none), m)
    else some (.take operation (.get m.array m.head), m)
  | .get arr head => do
    let arr ← m.heap arr
    some (.take operation (.storeHead (arr.caGet head) head), m)
  | .storeHead elt head => some (.take operation (.release elt), { m with head := head + 1 })
  | .release result => some (.done result, { m with locked := false })

/-- One step of a thread that runs a function of the queue. -/
def Pc.advance (fresh : Address) (contents : ℕ → Option α) (m : Memory α) :
    Pc α → Option (Pc α × Memory α)
  | .idle => none
  | .push operation elt step => step.advance operation elt fresh contents m
  | .priorityLoad elt => some (.priorityStore elt m.buffer, m)
  | .priorityStore elt oldBuffer =>
    match oldBuffer with
    | some old => some (.push (.priorityPush elt) old .acquire, { m with buffer := some elt })
    | none => some (.done none, { m with buffer := some elt })
  | .popTest => if m.buffer.isSome then some (.popLoad, m) else some (.take .pop .acquire, m)
  | .popLoad => some (.popClear m.buffer, m)
  | .popClear buffer => some (.done buffer, { m with buffer := none })
  | .take operation step => step.advance operation m
  | .done _ => none

/-- The array that the next step of a thread reads, writes or frees. -/
def Pc.accesses (m : Memory α) : Pc α → Option Address
  | .push _ _ .load => some m.array
  | .push _ _ (.resize arr _ _) => some arr
  | .push _ _ (.free _ _) => some m.array
  | .push _ _ (.set arr _) => some arr
  | .take _ (.get arr _) => some arr
  | _ => none

/-- A queue and the threads that use it. -/
structure State (α Thief : Type*) where
  memory : Memory α
  pc : Thread Thief → Pc α

/-- What happens in a step: a thread calls a function, advances in it, or returns from it. -/
inductive Label (α Thief : Type*)
  | call (thread : Thread Thief) (operation : Operation α)
  | step (thread : Thread Thief)
  | finish (thread : Thread Thief) (result : Option α)

/-- The calls and returns. -/
def Label.event? : Label α Thief → Option (Event (Thread Thief) (Operation α) (Option α))
  | .call thread operation => some (.call thread operation)
  | .step _ => none
  | .finish thread result => some (.finish thread result)

variable [DecidableEq Thief]

/-- The steps of the threads, in any order. -/
inductive Step : State α Thief → Label α Thief → State α Thief → Prop
  | call {s : State α Thief} {thread : Thread Thief} {operation : Operation α}
      (hidle : s.pc thread = .idle) (hmay : operation.MayCall thread) :
      Step s (.call thread operation)
        { s with pc := Function.update s.pc thread operation.entry }
  | step {s : State α Thief} {thread : Thread Thief} {fresh : Address} {contents : ℕ → Option α}
      {pc : Pc α} {memory : Memory α} (hfresh : s.memory.heap fresh = none)
      (hadvance : (s.pc thread).advance fresh contents s.memory = some (pc, memory)) :
      Step s (.step thread) { memory := memory, pc := Function.update s.pc thread pc }
  | finish {s : State α Thief} {thread : Thread Thief} {result : Option α}
      (hdone : s.pc thread = .done result) :
      Step s (.finish thread result) { s with pc := Function.update s.pc thread .idle }

/-- `tl_queue_init(self, log_size)`, when `malloc` returns `array`. -/
def tlQueueInit (logSize : ℕ) (hlogSize : logSize < 31) (array : Address)
    (contents : ℕ → Option α) : Memory α where
  locked := false
  head := 0
  tail := 0
  buffer := none
  array := array
  heap := Function.update (fun _ ↦ none) array (some (circularArrayNew logSize hlogSize contents))

/-- The runs of a queue after `tl_queue_init(self, log_size)`. -/
def system (logSize : ℕ) (hlogSize : logSize < 31) :
    TransitionSystem (State α Thief) (Label α Thief) where
  initial s := (∃ array contents, s.memory = tlQueueInit logSize hlogSize array contents) ∧
    ∀ thread, s.pc thread = .idle
  step := Step

/-- The queue as its users see it: an optional slot, and a list. -/
def slotFifo : SequentialObject (Option α × List α) (Operation α) (Option α) where
  start := (none, [])
  apply
    | .push elt, (slot, fifo) => ((slot, fifo ++ [elt]), none)
    | .priorityPush elt, (slot, fifo) => ((some elt, fifo ++ slot.toList), none)
    | .pop, (some elt, fifo) => ((none, fifo), some elt)
    | .pop, (none, fifo) => ((none, fifo.tail), fifo.head?)
    | .steal, (slot, fifo) => ((slot, fifo.tail), fifo.head?)

end TlQueue

end Libseff.Queues
