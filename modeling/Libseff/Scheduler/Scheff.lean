import Libseff.Coroutine.Switch
import Libseff.Foundation.Runs
import Libseff.Queues.TlQueue
import Mathlib.Data.Multiset.AddSub

/-!
# The scheduler

`scheff_run` of `scheduler/scheff.c`, for any number of workers. Each operation of a queue is one
step, that of the object which `tl_queue_t` implements (`TlQueue.slotFifo`), as is each access of
`remaining_tasks` and each access of a task. The steps of the workers come in any order.

What a task does is not determined: at each resumption it issues any request. A condition that it
polls may have any value, and so may `must_sleep`. When `must_sleep` returns true it has handed the
waker to other tasks, and any of them may wake the task before it returns; each waker is woken once.
Allocations succeed. The debug counters are left out.
-/

set_option autoImplicit false
set_option relaxedAutoImplicit false

namespace Libseff.Scheduler

open Foundation Coroutine Queues Queues.TlQueue

variable {n : ℕ} {Task Cond Arg : Type*}

/-- `task_t`, with the state of its coroutine. -/
structure TaskT (Cond Arg : Type*) where
  state : SeffCoroutineState
  pollCondition : Option Cond
  pollArg : Option Arg

/-- The request with which a coroutine returns to its worker. -/
inductive Request (Task Cond Arg : Type*)
  | ret
  | fork
  | poll (pollCondition : Option Cond) (pollArg : Option Arg)
  | sleep
  | wake (wakers : List Task) (resume : Bool)

/-- `scheff_t` with the queues of its workers, the allocated tasks, and the wakers in the hands of
the tasks. -/
structure Memory (n : ℕ) (Task Cond Arg : Type*) where
  remainingTasks : ℤ
  tasks : Task → Option (TaskT Cond Arg)
  queues : Fin n → Option Task × List Task
  wakers : Multiset Task

/-- The points of `scheff_worker_thread`: before the step that the name tells, with the local
variables that are still used. -/
inductive WorkerPc (Task Cond Arg : Type*)
  | pop
  | steal (i : ℕ)
  | loadRemaining
  | checkState (task : Task)
  | checkPoll (task : Task)
  | clearPoll (task : Task)
  | resume (task : Task)
  | running (task : Task)
  | finalize (task : Task)
  | subRemaining
  | addRemaining (task : Task)
  | create (task : Task)
  | enqueueForked (task newTask : Task)
  | enqueuePriority (newTask : Task)
  | setPoll (task : Task) (pollCondition : Option Cond) (pollArg : Option Arg)
  | mustSleep (task : Task)
  | asleep
  | wake (task : Task) (wakers : List Task) (resume : Bool)
  | enqueue (task : Task)
  | exited
  | fatal

/-- What the steps do not determine: the request of the task that runs, the value of its condition
or of `must_sleep`, and the address that `malloc` returns. -/
structure Choice (Task Cond Arg : Type*) where
  request : Request Task Cond Arg
  answer : Bool
  fresh : Task

/-- What a step shows. -/
inductive Event (Task Cond Arg : Type*)
  | silent
  | evaluate (task : Task) (pollCondition : Cond) (pollArg : Option Arg) (result : Bool)
  | resume (task : Task)
  | request (task : Task) (request : Request Task Cond Arg)

/-- A task as `scheff_schedule` and `fork` create it. -/
def TaskT.new : TaskT Cond Arg where
  state := .paused
  pollCondition := none
  pollArg := none

/-- `QUEUE(push)(&self->task_queue, task)`. -/
def Memory.push (m : Memory n Task Cond Arg) (self : Fin n) (task : Task) :
    Memory n Task Cond Arg :=
  { m with
    queues := Function.update m.queues self (slotFifo.apply (.push task) (m.queues self)).1 }

/-- `QUEUE(priority_push)(&self->task_queue, task)`. -/
def Memory.priorityPush (m : Memory n Task Cond Arg) (self : Fin n) (task : Task) :
    Memory n Task Cond Arg :=
  { m with
    queues :=
      Function.update m.queues self (slotFifo.apply (.priorityPush task) (m.queues self)).1 }

/-- The worker whose queue is tried at the given iteration of the loop of
`scheff_try_get_task`. -/
def victim (self : Fin n) (i : ℕ) : Fin n := ⟨(self + i) % n, Nat.mod_lt _ self.pos⟩

variable [DecidableEq Task]

/-- Writes a task. -/
def Memory.write (m : Memory n Task Cond Arg) (task : Task) (value : Option (TaskT Cond Arg)) :
    Memory n Task Cond Arg :=
  { m with tasks := Function.update m.tasks task value }

@[simp]
theorem Memory.tasks_write_self (m : Memory n Task Cond Arg) (task : Task)
    (value : Option (TaskT Cond Arg)) : (m.write task value).tasks task = value :=
  Function.update_self ..

@[simp]
theorem Memory.tasks_write_of_ne (m : Memory n Task Cond Arg) {task other : Task}
    (hne : other ≠ task) (value : Option (TaskT Cond Arg)) :
    (m.write task value).tasks other = m.tasks other :=
  Function.update_of_ne hne _ _

/-- What a worker does with the request of the task it runs. Only wakers in the hands of the tasks
are woken. -/
def Request.handle (task : Task) (value : TaskT Cond Arg) (m : Memory n Task Cond Arg) :
    Request Task Cond Arg → Option (WorkerPc Task Cond Arg × Memory n Task Cond Arg)
  | .ret => some (.finalize task, m.write task (some { value with state := .finished }))
  | .fork => some (.addRemaining task, m)
  | .poll pollCondition pollArg => some (.setPoll task pollCondition pollArg, m)
  | .sleep => some (.mustSleep task, m)
  | .wake wakers resume =>
    if (wakers : Multiset Task) ≤ m.wakers then
      some (.wake task wakers resume, { m with wakers := m.wakers - wakers })
    else none

/-- One step of a worker. -/
def WorkerPc.advance (self : Fin n) (choice : Choice Task Cond Arg) (m : Memory n Task Cond Arg) :
    WorkerPc Task Cond Arg → Option (WorkerPc Task Cond Arg × Memory n Task Cond Arg)
  | .pop =>
    let popped := slotFifo.apply .pop (m.queues self)
    some (popped.2.elim (.steal 1) .checkState,
      { m with queues := Function.update m.queues self popped.1 })
  | .steal i =>
    if i < n then
      let stolen := slotFifo.apply .steal (m.queues (victim self i))
      some (stolen.2.elim (.steal (i + 1)) .checkState,
        { m with queues := Function.update m.queues (victim self i) stolen.1 })
    else some (.loadRemaining, m)
  | .loadRemaining => if m.remainingTasks = 0 then some (.exited, m) else some (.pop, m)
  | .checkState task => (m.tasks task).bind fun value ↦
    if value.state = .paused then some (.checkPoll task, m) else some (.fatal, m)
  | .checkPoll task => (m.tasks task).bind fun value ↦
    if value.pollCondition.isSome ∧ choice.answer = false then some (.enqueue task, m)
    else some (.clearPoll task, m)
  | .clearPoll task => (m.tasks task).bind fun value ↦
    some (.resume task, m.write task (some { value with pollCondition := none }))
  | .resume task => some (.running task, m)
  | .running task => (m.tasks task).bind fun value ↦ choice.request.handle task value m
  | .finalize task => some (.subRemaining, m.write task none)
  | .subRemaining => some (.pop, { m with remainingTasks := m.remainingTasks - 1 })
  | .addRemaining task => some (.create task, { m with remainingTasks := m.remainingTasks + 1 })
  | .create task =>
    if (m.tasks choice.fresh).isNone then
      some (.enqueueForked task choice.fresh, m.write choice.fresh (some .new))
    else none
  | .enqueueForked task newTask => some (.enqueuePriority newTask, m.push self task)
  | .enqueuePriority newTask => some (.pop, m.priorityPush self newTask)
  | .setPoll task pollCondition pollArg => (m.tasks task).bind fun value ↦
    some (.enqueue task,
      m.write task (some { value with pollCondition := pollCondition, pollArg := pollArg }))
  | .mustSleep task =>
    if choice.answer then some (.asleep, { m with wakers := task ::ₘ m.wakers })
    else some (.enqueue task, m)
  | .asleep => some (.pop, m)
  | .wake task (waker :: wakers) again =>
    some (.wake task wakers again, m.priorityPush self waker)
  | .wake task [] true => some (.enqueue task, m)
  | .wake task [] false => some (.finalize task, m)
  | .enqueue task => some (.pop, m.push self task)
  | .exited => none
  | .fatal => none

/-- What the step of a worker shows. -/
def WorkerPc.event (choice : Choice Task Cond Arg) (m : Memory n Task Cond Arg) :
    WorkerPc Task Cond Arg → Event Task Cond Arg
  | .checkPoll task =>
    match m.tasks task with
    | some ⟨_, some pollCondition, pollArg⟩ =>
      .evaluate task pollCondition pollArg choice.answer
    | _ => .silent
  | .resume task => .resume task
  | .running task => .request task choice.request
  | _ => .silent

/-- A scheduler and its workers. -/
structure State (n : ℕ) (Task Cond Arg : Type*) where
  memory : Memory n Task Cond Arg
  workers : Fin n → WorkerPc Task Cond Arg

/-- A worker takes a step. -/
structure Label (n : ℕ) (Task Cond Arg : Type*) where
  self : Fin n
  event : Event Task Cond Arg

/-- The steps of the workers, in any order. -/
inductive Step : State n Task Cond Arg → Label n Task Cond Arg → State n Task Cond Arg → Prop
  | worker {s : State n Task Cond Arg} {self : Fin n} {choice : Choice Task Cond Arg}
      {pc : WorkerPc Task Cond Arg} {memory : Memory n Task Cond Arg}
      (hadvance : (s.workers self).advance self choice s.memory = some (pc, memory)) :
      Step s ⟨self, (s.workers self).event choice s.memory⟩
        { memory := memory, workers := Function.update s.workers self pc }

/-- In a step one worker advances. -/
theorem Step.advance {s after : State n Task Cond Arg} {label : Label n Task Cond Arg}
    (hstep : Step s label after) :
    ∃ choice pc memory,
      (s.workers label.self).advance label.self choice s.memory = some (pc, memory) ∧
      label.event = (s.workers label.self).event choice s.memory ∧
      after = { memory := memory, workers := Function.update s.workers label.self pc } := by
  obtain ⟨hadvance⟩ := hstep
  exact ⟨_, _, _, hadvance, rfl, rfl⟩

/-- `scheff_init(self, n)`. -/
def scheffInit : Memory n Task Cond Arg where
  remainingTasks := 0
  tasks := fun _ ↦ none
  queues := fun _ ↦ slotFifo.start
  wakers := 0

/-- `scheff_schedule(self, fn, arg)`, when `malloc` returns `task`. -/
def scheffSchedule [NeZero n] (m : Memory n Task Cond Arg) (task : Task) :
    Memory n Task Cond Arg :=
  { m.write task (some .new) with remainingTasks := m.remainingTasks + 1 }.push 0 task

/-- A scheduler before `scheff_run`. -/
inductive Scheduled [NeZero n] : Memory n Task Cond Arg → Prop
  | init : Scheduled scheffInit
  | schedule {m : Memory n Task Cond Arg} {task : Task} (h : Scheduled m)
      (hfresh : m.tasks task = none) : Scheduled (scheffSchedule m task)

/-- The runs of `scheff_run(scheduler)`. -/
def scheffRun (n : ℕ) (Task Cond Arg : Type*) [NeZero n] [DecidableEq Task] :
    TransitionSystem (State n Task Cond Arg) (Label n Task Cond Arg) where
  initial s := Scheduled s.memory ∧ ∀ self, s.workers self = .pop
  step := Step

end Libseff.Scheduler
