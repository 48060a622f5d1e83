import Libseff.Foundation.Runs
import Libseff.Queues.CircularArray

/-!
# The Chase-Lev deque

`cl_queue_t` of `utils/cl_queue.c`, for one owner and any number of thieves. Every atomic load,
store and compare-exchange is a step of its own, in one total order, and so is every iteration of
the loop of `circular_array_resize`. No array is ever freed.
-/

set_option autoImplicit false
set_option relaxedAutoImplicit false

namespace Libseff.Queues.ClQueue

open Foundation CircularArray

variable {α Thief : Type*}

/-- `queue_elt_t`: `EMPTY`, `ABORT`, or a pointer to a task. -/
inductive QueueElt (α : Type*)
  | empty
  | abort
  | task (elt : α)
  deriving DecidableEq

/-- The task, if there is one. -/
def QueueElt.task? : QueueElt α → Option α
  | .task elt => some elt
  | _ => none

/-- `cl_queue_t`, and the arrays in memory. -/
structure Memory (α : Type*) where
  top : ℤ
  bottom : ℤ
  array : Address
  heap : Address → Option (CircularArray (QueueElt α))

/-- Where the owner is in `cl_queue_pop(self)` or `cl_queue_push(self, elt)`: before the step that
the name tells, with the local variables that are still used. -/
inductive OwnerPc (α : Type*)
  | idle
  | popBottom
  | popArray (bottom : ℤ)
  | popStore (bottom : ℤ) (arr : Address)
  | popTop (bottom : ℤ) (arr : Address)
  | popGet (bottom : ℤ) (arr : Address) (top : ℤ)
  | popCas (bottom top : ℤ) (elt : QueueElt α)
  | popRestore (bottom : ℤ) (elt : QueueElt α)
  | pushBottom (elt : α)
  | pushTop (elt : α) (bottom : ℤ)
  | pushArray (elt : α) (bottom top : ℤ)
  | pushAllocate (elt : α) (bottom top : ℤ) (arr : Address)
  | pushCopy (elt : α) (bottom : ℤ) (arr newArray : Address) (i : ℤ)
  | pushPublish (elt : α) (bottom : ℤ) (newArray : Address)
  | pushSet (elt : α) (bottom : ℤ) (arr : Address)
  | pushStore (elt : α) (bottom : ℤ)
  | done (result : Option (QueueElt α))

/-- Where a thief is in `cl_queue_steal(self)`. -/
inductive ThiefPc (α : Type*)
  | idle
  | stealTop
  | stealBottom (top : ℤ)
  | stealArray (top : ℤ)
  | stealGet (top : ℤ) (arr : Address)
  | stealCas (top : ℤ) (elt : QueueElt α)
  | done (result : QueueElt α)

/-- One step of the owner. Where it allocates, `malloc` returns `fresh`, with some contents. -/
def OwnerPc.advance (fresh : Address) (contents : ℕ → QueueElt α) (m : Memory α) :
    OwnerPc α → Option (OwnerPc α × Memory α)
  | .idle => none
  | .popBottom => some (.popArray (m.bottom - 1), m)
  | .popArray bottom => some (.popStore bottom m.array, m)
  | .popStore bottom arr => some (.popTop bottom arr, { m with bottom := bottom })
  | .popTop bottom arr =>
    if m.top ≤ bottom then some (.popGet bottom arr m.top, m)
    else some (.popRestore bottom .empty, m)
  | .popGet bottom arr top => do
    let arr ← m.heap arr
    if top = bottom then some (.popCas bottom top (arr.caGet bottom), m)
    else some (.done (some (arr.caGet bottom)), m)
  | .popCas bottom top elt =>
    if m.top = top then some (.popRestore bottom elt, { m with top := top + 1 })
    else some (.popRestore bottom .empty, m)
  | .popRestore bottom elt => some (.done (some elt), { m with bottom := bottom + 1 })
  | .pushBottom elt => some (.pushTop elt m.bottom, m)
  | .pushTop elt bottom => some (.pushArray elt bottom m.top, m)
  | .pushArray elt bottom top => do
    let arr ← m.heap m.array
    if bottom - top > arr.size - 1 then some (.pushAllocate elt bottom top m.array, m)
    else some (.pushSet elt bottom m.array, m)
  | .pushAllocate elt bottom top address => do
    let arr ← m.heap address
    let newArray ← arr.double contents
    some (.pushCopy elt bottom address fresh top,
      { m with heap := Function.update m.heap fresh (some newArray) })
  | .pushCopy elt bottom address newAddress i =>
    if i < bottom then do
      let arr ← m.heap address
      let newArray ← m.heap newAddress
      some (.pushCopy elt bottom address newAddress (i + 1),
        { m with
          heap := Function.update m.heap newAddress (some (newArray.caSet i (arr.caGet i))) })
    else some (.pushPublish elt bottom newAddress, m)
  | .pushPublish elt bottom newArray =>
    some (.pushSet elt bottom newArray, { m with array := newArray })
  | .pushSet elt bottom address => do
    let arr ← m.heap address
    some (.pushStore elt bottom,
      { m with heap := Function.update m.heap address (some (arr.caSet bottom (.task elt))) })
  | .pushStore _ bottom => some (.done none, { m with bottom := bottom + 1 })
  | .done _ => none

/-- One step of a thief. -/
def ThiefPc.advance (m : Memory α) : ThiefPc α → Option (ThiefPc α × Memory α)
  | .idle => none
  | .stealTop => some (.stealBottom m.top, m)
  | .stealBottom top =>
    if top < m.bottom then some (.stealArray top, m) else some (.done .empty, m)
  | .stealArray top => some (.stealGet top m.array, m)
  | .stealGet top arr => do
    let arr ← m.heap arr
    some (.stealCas top (arr.caGet top), m)
  | .stealCas top elt =>
    if m.top = top then some (.done elt, { m with top := top + 1 })
    else some (.done .abort, m)
  | .done _ => none

/-- The index and the element of a compare-exchange that is about to succeed in
`cl_queue_steal`. -/
def ThiefPc.steals (m : Memory α) : ThiefPc α → Option (ℤ × QueueElt α)
  | .stealCas top elt => if m.top = top then some (top, elt) else none
  | _ => none

/-- A deque and the threads that use it. -/
structure State (α Thief : Type*) where
  memory : Memory α
  owner : OwnerPc α
  thieves : Thief → ThiefPc α

/-- What happens in a step. A push returns nothing; a step of a thief tells what it steals. -/
inductive Label (α Thief : Type*)
  | push (elt : α)
  | pop
  | steal (thief : Thief)
  | ownerStep
  | thiefStep (thief : Thief) (stolen : Option (ℤ × QueueElt α))
  | ownerFinish (result : Option (QueueElt α))
  | thiefFinish (thief : Thief) (result : QueueElt α)

variable [DecidableEq Thief]

/-- The steps of the threads, in any order. -/
inductive Step : State α Thief → Label α Thief → State α Thief → Prop
  | push {s : State α Thief} (elt : α) (hidle : s.owner = .idle) :
      Step s (.push elt) { s with owner := .pushBottom elt }
  | pop {s : State α Thief} (hidle : s.owner = .idle) : Step s .pop { s with owner := .popBottom }
  | steal {s : State α Thief} {thief : Thief} (hidle : s.thieves thief = .idle) :
      Step s (.steal thief) { s with thieves := Function.update s.thieves thief .stealTop }
  | ownerStep {s : State α Thief} {fresh : Address} {contents : ℕ → QueueElt α} {pc : OwnerPc α}
      {memory : Memory α} (hfresh : s.memory.heap fresh = none)
      (hadvance : s.owner.advance fresh contents s.memory = some (pc, memory)) :
      Step s .ownerStep { s with memory := memory, owner := pc }
  | thiefStep {s : State α Thief} {thief : Thief} {pc : ThiefPc α} {memory : Memory α}
      (hadvance : (s.thieves thief).advance s.memory = some (pc, memory)) :
      Step s (.thiefStep thief ((s.thieves thief).steals s.memory))
        { s with memory := memory, thieves := Function.update s.thieves thief pc }
  | ownerFinish {s : State α Thief} {result : Option (QueueElt α)}
      (hdone : s.owner = .done result) : Step s (.ownerFinish result) { s with owner := .idle }
  | thiefFinish {s : State α Thief} {thief : Thief} {result : QueueElt α}
      (hdone : s.thieves thief = .done result) :
      Step s (.thiefFinish thief result)
        { s with thieves := Function.update s.thieves thief .idle }

/-- `cl_queue_init(self, log_size)`, when `malloc` returns `array`. -/
def clQueueInit (logSize : ℕ) (hlogSize : logSize < 31) (array : Address)
    (contents : ℕ → QueueElt α) : Memory α where
  top := 0
  bottom := 0
  array := array
  heap := Function.update (fun _ ↦ none) array (some (circularArrayNew logSize hlogSize contents))

/-- The runs of a deque after `cl_queue_init(self, log_size)`. -/
def system (logSize : ℕ) (hlogSize : logSize < 31) :
    TransitionSystem (State α Thief) (Label α Thief) where
  initial s := (∃ array contents, s.memory = clQueueInit logSize hlogSize array contents) ∧
    s.owner = .idle ∧ ∀ thief, s.thieves thief = .idle
  step := Step

/-- The elements given to `cl_queue_push`. -/
def pushed (labels : List (Label α Thief)) : List α :=
  labels.filterMap fun
    | .push elt => some elt
    | _ => none

/-- The elements returned by `cl_queue_pop` and `cl_queue_steal`. -/
def returned (labels : List (Label α Thief)) : List α :=
  labels.filterMap fun
    | .ownerFinish (some result) => result.task?
    | .thiefFinish _ result => result.task?
    | _ => none

/-- The indices and elements of the successful steals. -/
def stolen (labels : List (Label α Thief)) : List (ℤ × QueueElt α) :=
  labels.filterMap fun
    | .thiefStep _ stolen => stolen
    | _ => none

end Libseff.Queues.ClQueue
