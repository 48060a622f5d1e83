import Libseff.Foundation.ObjectClients
import Libseff.Queues.TlQueueLinearizability
import Libseff.Scheduler.Conservation

/-!
# The scheduler on its queues

`scheff_run` with the queues that it really has. A worker is a client of the `tl_queue_t`s: it owns
one and is a thief of the others, and where `Scheff` has one step for an operation of a queue it
calls the function, goes through its accesses of the lock, the slot and the array, among those of
the other workers, and returns (`scheffRunTlQueues`).

`WorkerPc.calls` and `WorkerPc.returns` read the operations off the worker's program; at the other
points the worker does not touch a queue (`advance_of_calls_none`). So the scheduler on its queues
is one on atomic queues (`scheffRun_of_tlQueues`), and what holds of the tasks there holds here: the
tasks that no worker holds are between the heads and the tails of the rings, in the slots, and in
the hands of those who wake them (`task_conservation_tlQueues`).
-/

set_option autoImplicit false
set_option relaxedAutoImplicit false

namespace Libseff.Scheduler

open Foundation Queues Queues.TlQueue

variable {n : ℕ} {Task Cond Arg : Type*}

/-! ### A worker as a client of the queues -/

/-- `scheff_t` without the queues of its workers, the allocated tasks, and the wakers in the hands
of the tasks. -/
structure Shared (Task Cond Arg : Type*) where
  remainingTasks : ℤ
  tasks : Task → Option (TaskT Cond Arg)
  wakers : Multiset Task

/-- The memory with the given queues. -/
def Shared.withQueues (shared : Shared Task Cond Arg) (queues : Fin n → Option Task × List Task) :
    Memory n Task Cond Arg where
  remainingTasks := shared.remainingTasks
  tasks := shared.tasks
  queues := queues
  wakers := shared.wakers

/-- The memory without the queues. -/
def Memory.shared (m : Memory n Task Cond Arg) : Shared Task Cond Arg where
  remainingTasks := m.remainingTasks
  tasks := m.tasks
  wakers := m.wakers

@[simp]
theorem Memory.shared_withQueues (m : Memory n Task Cond Arg) :
    m.shared.withQueues m.queues = m := rfl

@[simp]
theorem Shared.withQueues_shared (shared : Shared Task Cond Arg)
    (queues : Fin n → Option Task × List Task) : (shared.withQueues queues).shared = shared := rfl

/-- The function of a queue that a worker calls next, and on whose queue. -/
def WorkerPc.calls (self : Fin n) : WorkerPc Task Cond Arg → Option (Fin n × Operation Task)
  | .pop => some (self, .pop)
  | .steal i => if i < n then some (victim self i, .steal) else none
  | .enqueueForked task _ => some (self, .push task)
  | .enqueuePriority newTask => some (self, .priorityPush newTask)
  | .wake _ (waker :: _) _ => some (self, .priorityPush waker)
  | .enqueue task => some (self, .push task)
  | _ => none

/-- Where a worker goes on when the function has returned. -/
def WorkerPc.returns (result : Option Task) : WorkerPc Task Cond Arg → WorkerPc Task Cond Arg
  | .pop => result.elim (.steal 1) .checkState
  | .steal i => result.elim (.steal (i + 1)) .checkState
  | .enqueueForked _ newTask => .enqueuePriority newTask
  | .enqueuePriority _ => .pop
  | .wake task (_ :: wakers) again => .wake task wakers again
  | .enqueue _ => .pop
  | pc => pc

section Client

variable [DecidableEq Task]

/-- A worker, with the functions of the queues left to the queues. At its own steps the queues play
no role, and may be empty ones. -/
def workerClient (n : ℕ) (Task Cond Arg : Type*) [DecidableEq Task] :
    Client (Fin n) (Fin n) (WorkerPc Task Cond Arg) (Shared Task Cond Arg) (Operation Task)
      (Option Task) (Event Task Cond Arg) where
  calls self pc := pc.calls self
  returns _ pc result := pc.returns result
  step self pc shared event next after := ∃ choice memory,
    event = pc.event choice (shared.withQueues fun _ : Fin n ↦ slotFifo.start) ∧
    pc.advance self choice (shared.withQueues fun _ ↦ slotFifo.start) = some (next, memory) ∧
    after = memory.shared

/-- A worker calls the function that its step stands for. -/
theorem advance_of_calls {self index : Fin n} {pc : WorkerPc Task Cond Arg}
    {operation : Operation Task} (hcalls : pc.calls self = some (index, operation))
    (choice : Choice Task Cond Arg) (m : Memory n Task Cond Arg) :
    pc.advance self choice m = some (pc.returns (slotFifo.apply operation (m.queues index)).2,
      { m with
        queues :=
          Function.update m.queues index (slotFifo.apply operation (m.queues index)).1 }) := by
  cases pc with
  | pop =>
    obtain ⟨rfl, rfl⟩ := Prod.mk.inj (Option.some.inj hcalls)
    rfl
  | steal i =>
    have hlt : i < n := by_contra fun hle ↦ absurd hcalls (by simp [WorkerPc.calls, hle])
    obtain ⟨rfl, rfl⟩ := Prod.mk.inj (Option.some.inj (hcalls.symm.trans (if_pos hlt))).symm
    exact if_pos hlt
  | enqueueForked task newTask =>
    obtain ⟨rfl, rfl⟩ := Prod.mk.inj (Option.some.inj hcalls)
    rfl
  | enqueuePriority newTask =>
    obtain ⟨rfl, rfl⟩ := Prod.mk.inj (Option.some.inj hcalls)
    rfl
  | wake task wakers again =>
    cases wakers with
    | nil => exact absurd hcalls (by simp [WorkerPc.calls])
    | cons waker wakers =>
      obtain ⟨rfl, rfl⟩ := Prod.mk.inj (Option.some.inj hcalls)
      rfl
  | enqueue task =>
    obtain ⟨rfl, rfl⟩ := Prod.mk.inj (Option.some.inj hcalls)
    rfl
  | _ => exact absurd hcalls (by simp [WorkerPc.calls])

omit [DecidableEq Task] in
/-- Nothing is seen of a call. -/
theorem event_of_calls {self index : Fin n} {pc : WorkerPc Task Cond Arg}
    {operation : Operation Task} (hcalls : pc.calls self = some (index, operation))
    (choice : Choice Task Cond Arg) (m : Memory n Task Cond Arg) : pc.event choice m = .silent := by
  cases pc with
  | checkPoll task => exact absurd hcalls (by simp [WorkerPc.calls])
  | resume task => exact absurd hcalls (by simp [WorkerPc.calls])
  | running task => exact absurd hcalls (by simp [WorkerPc.calls])
  | _ => rfl

omit [DecidableEq Task] in
/-- What a step shows does not depend on the queues. -/
theorem event_withQueues (pc : WorkerPc Task Cond Arg) (choice : Choice Task Cond Arg)
    (shared : Shared Task Cond Arg) (queues others : Fin n → Option Task × List Task) :
    pc.event choice (shared.withQueues queues) = pc.event choice (shared.withQueues others) := by
  cases pc <;> rfl

/-- At the points where it calls no function of a queue, a worker does not touch a queue. -/
theorem advance_withQueues {self : Fin n} {pc : WorkerPc Task Cond Arg}
    (hcalls : pc.calls self = none) (choice : Choice Task Cond Arg) (shared : Shared Task Cond Arg)
    (queues others : Fin n → Option Task × List Task) :
    pc.advance self choice (shared.withQueues others) =
      (pc.advance self choice (shared.withQueues queues)).map fun next ↦
        (next.1, next.2.shared.withQueues others) := by
  cases pc with
  | pop => exact absurd hcalls (by simp [WorkerPc.calls])
  | steal i =>
    have hle : ¬ i < n := fun hlt ↦ absurd hcalls (by simp [WorkerPc.calls, hlt])
    simp only [WorkerPc.advance, if_neg hle]
    rfl
  | enqueueForked task newTask => exact absurd hcalls (by simp [WorkerPc.calls])
  | enqueuePriority newTask => exact absurd hcalls (by simp [WorkerPc.calls])
  | enqueue task => exact absurd hcalls (by simp [WorkerPc.calls])
  | wake task wakers again =>
    cases wakers with
    | nil => cases again <;> rfl
    | cons waker wakers => exact absurd hcalls (by simp [WorkerPc.calls])
  | running task =>
    simp only [WorkerPc.advance, Shared.withQueues]
    cases shared.tasks task with
    | none => rfl
    | some value =>
      cases choice.request with
      | wake wakers resume =>
        by_cases h : (wakers : Multiset Task) ≤ shared.wakers <;>
          simp [Request.handle, Memory.shared, h]
      | _ =>
        simp only [Option.bind_some]
        rfl
  | loadRemaining =>
    by_cases h : shared.remainingTasks = 0 <;>
      simp [WorkerPc.advance, Shared.withQueues, Memory.shared, h]
  | mustSleep task =>
    by_cases h : choice.answer <;>
      simp [WorkerPc.advance, Shared.withQueues, Memory.shared, h]
  | create task =>
    by_cases h : (shared.tasks choice.fresh).isNone <;>
      simp [WorkerPc.advance, Shared.withQueues, Memory.shared, Memory.write, h]
  | checkState task =>
    simp only [WorkerPc.advance, Shared.withQueues]
    cases shared.tasks task with
    | none => rfl
    | some value => by_cases h : value.state = .paused <;> simp [h, Memory.shared]
  | checkPoll task =>
    simp only [WorkerPc.advance, Shared.withQueues]
    cases shared.tasks task with
    | none => rfl
    | some value =>
      by_cases h : value.pollCondition.isSome ∧ choice.answer = false <;>
        simp [h, Memory.shared]
  | clearPoll task =>
    simp only [WorkerPc.advance, Shared.withQueues]
    cases shared.tasks task <;> rfl
  | setPoll task pollCondition pollArg =>
    simp only [WorkerPc.advance, Shared.withQueues]
    cases shared.tasks task <;> rfl
  | _ => rfl

end Client

/-! ### The scheduler -/

/-- `INITIAL_QUEUE_LOG_SIZE`. -/
def initialQueueLogSize : ℕ := 3

theorem initialQueueLogSize_lt : initialQueueLogSize < 31 := by decide

/-- The steps of the threads of one queue of the scheduler. -/
abbrev taskQueue (n : ℕ) (Task : Type*) :
    TransitionSystem (TlQueue.State Task (Fin n)) (TlQueue.Label Task (Fin n)) :=
  TlQueue.system initialQueueLogSize initialQueueLogSize_lt

/-- A worker as a user of the queue of another, or of its own. -/
def queueUser (index self : Fin n) : Thread (Fin n) :=
  if self = index then .owner else .thief self

theorem queueUser_injective (index : Fin n) : Function.Injective (queueUser index) := by
  intro first second heq
  unfold queueUser at heq
  split_ifs at heq with hfirst hsecond hsecond
  · rw [hfirst, hsecond]
  · exact Thread.thief.inj heq

variable [DecidableEq Task] [NeZero n]

/-- A scheduler before `scheff_run`, with its queues: after `scheff_init(self, n)`, and after each
`scheff_schedule(self, fn, arg)`, which runs `tl_queue_push` while no other thread uses the queue.
`malloc` returns `task`. -/
inductive ScheduledQueues :
    Shared Task Cond Arg → (Fin n → TlQueue.State Task (Fin n)) → Prop
  | init {queues : Fin n → TlQueue.State Task (Fin n)}
      (hqueues : ∀ index, (taskQueue n Task).initial (queues index)) :
      ScheduledQueues ⟨0, fun _ ↦ none, 0⟩ queues
  | schedule {shared : Shared Task Cond Arg} {queues : Fin n → TlQueue.State Task (Fin n)}
      {task : Task} {labels : List (TlQueue.Label Task (Fin n))} {result : Option Task}
      {after : TlQueue.State Task (Fin n)} (h : ScheduledQueues shared queues)
      (hfresh : shared.tasks task = none)
      (hrun : ((taskQueue n Task).startedIn (queues 0)).Run (fun _ _ ↦ True) labels after)
      (hcall : labels.filterMap TlQueue.Label.event? =
        [.call .owner (.push task), .finish .owner result]) :
      ScheduledQueues
        { shared with
          tasks := Function.update shared.tasks task (some .new)
          remainingTasks := shared.remainingTasks + 1 }
        (Function.update queues 0 after)

/-- A scheduler, its queues, and its workers. -/
abbrev QueuesState (n : ℕ) (Task Cond Arg : Type*) :=
  CallingClientState (Fin n) (Fin n) (WorkerPc Task Cond Arg) (Shared Task Cond Arg)
    (TlQueue.State Task (Fin n))

/-- The runs of `scheff_run(scheduler)` on its queues. A label is what a worker shows at a step of
its own. -/
def scheffRunTlQueues (n : ℕ) (Task Cond Arg : Type*) [DecidableEq Task] [NeZero n] :
    TransitionSystem (QueuesState n Task Cond Arg) (Option (Fin n × Event Task Cond Arg)) :=
  (workerClient n Task Cond Arg).calling (taskQueue n Task) TlQueue.Label.event? queueUser
    fun s ↦ ScheduledQueues s.memory s.objects ∧ ∀ self, s.phases self = .ready .pop

/-! ### Refinement -/

/-- Drops the steps that show nothing. -/
def Label.shown : Label n Task Cond Arg → Option (Label n Task Cond Arg)
  | ⟨_, .silent⟩ => none
  | label => some label

/-- The scheduler with the queues as atomic objects. -/
abbrev scheffRunAtomic (n : ℕ) (Task Cond Arg : Type*) [DecidableEq Task] [NeZero n] :
    TransitionSystem (AtomicClientState (Fin n) (Fin n) (WorkerPc Task Cond Arg)
      (Shared Task Cond Arg) (Option Task × List Task)) (Option (Fin n × Event Task Cond Arg)) :=
  (workerClient n Task Cond Arg).atomic slotFifo
    fun s ↦ Scheduled (s.memory.withQueues s.objects) ∧ ∀ self, s.points self = .pop

/-- The state of `scheff_run`. -/
def toState (s : AtomicClientState (Fin n) (Fin n) (WorkerPc Task Cond Arg) (Shared Task Cond Arg)
    (Option Task × List Task)) : State n Task Cond Arg where
  memory := s.memory.withQueues s.objects
  workers := s.points

/-- A worker that leaves the functions of the queues to atomic queues is one that takes each in a
step. -/
theorem exists_scheffRun [Nonempty Task] {labels : List (Option (Fin n × Event Task Cond Arg))}
    {s : AtomicClientState (Fin n) (Fin n) (WorkerPc Task Cond Arg) (Shared Task Cond Arg)
      (Option Task × List Task)}
    (hrun : (scheffRunAtomic n Task Cond Arg).Run (fun _ _ ↦ True) labels s) :
    ∃ steps, (scheffRun n Task Cond Arg).Run (fun _ _ ↦ True) steps (toState s) ∧
      steps.filterMap Label.shown =
        labels.reduceOption.filterMap fun seen ↦ Label.shown ⟨seen.1, seen.2⟩ := by
  induction hrun with
  | start h => exact ⟨[], .start h, rfl⟩
  | @step labels s next visible _ _ hstep ih =>
    obtain ⟨steps, hscheff, hsteps⟩ := ih
    cases hstep with
    | @step self event point memory hcalls hstep =>
      obtain ⟨choice, after, rfl, hadvance, rfl⟩ := hstep
      have hown : (s.points self).advance self choice (toState s).memory =
          some (point, after.shared.withQueues s.objects) := by
        have hqueues := advance_withQueues hcalls choice s.memory (fun _ ↦ slotFifo.start) s.objects
        rw [hadvance] at hqueues
        exact hqueues
      refine ⟨_, hscheff.step trivial (.worker hown), ?_⟩
      rw [filterMap_concat, hsteps, List.reduceOption_append, List.filterMap_append]
      have hevent := event_withQueues (s.points self) choice s.memory s.objects
        fun _ : Fin n ↦ slotFifo.start
      change _ ++ (Label.shown ⟨self, (s.points self).event choice
        (s.memory.withQueues s.objects)⟩).toList = _
      rw [hevent, List.reduceOption_cons_of_some, List.reduceOption_nil, List.filterMap_cons]
      cases Label.shown _ <;> rfl
    | @operate self index operation hcalls =>
      obtain ⟨fresh⟩ := ‹Nonempty Task›
      have hadvance := advance_of_calls hcalls ⟨.ret, true, fresh⟩ (toState s).memory
      refine ⟨_, hscheff.step trivial (.worker hadvance), ?_⟩
      have hsilent := event_of_calls hcalls ⟨.ret, true, fresh⟩ (toState s).memory
      change List.filterMap _ (steps ++ [⟨self, (s.points self).event _ (toState s).memory⟩]) = _
      rw [hsilent, filterMap_concat, hsteps, List.reduceOption_append]
      simp [Label.shown]

omit [DecidableEq Task] [NeZero n] in
/-- A queue of the scheduler is related to the slot and the list step by step. -/
theorem taskQueue_related (s : TlQueue.State Task (Fin n)) (label : TlQueue.Label Task (Fin n))
    (next : TlQueue.State Task (Fin n))
    (a : AtomicState (Thread (Fin n)) (Option Task × List Task) (Operation Task) (Option Task))
    (h : Represents s a) (hstep : (taskQueue n Task).step s label next) :
    (label.event? = none ∧ Represents next a) ∨
      ∃ atomicLabel after, slotFifo.atomic.step a atomicLabel after ∧
        atomicLabel.event? = label.event? ∧ Represents next after := by
  cases hstep with
  | call hidle hmay =>
    obtain ⟨after, hafter, hnext⟩ := h.call hidle hmay
    exact .inr ⟨_, after, hafter, rfl, hnext⟩
  | step hfresh hadvance =>
    rcases h.advance hfresh hadvance with hnext | ⟨after, hafter, hnext⟩
    · exact .inl ⟨rfl, hnext⟩
    · exact .inr ⟨_, after, hafter, rfl, hnext⟩
  | finish hdone =>
    obtain ⟨after, hafter, hnext⟩ := h.finish hdone
    exact .inr ⟨_, after, hafter, rfl, hnext⟩

/-- Before `scheff_run` the queues hold the scheduled tasks, and no function of them runs. -/
theorem ScheduledQueues.exists_scheduled {shared : Shared Task Cond Arg}
    {queues : Fin n → TlQueue.State Task (Fin n)} (h : ScheduledQueues shared queues) :
    ∃ objects, Scheduled (shared.withQueues objects) ∧
      ∀ index, Represents (queues index) ⟨objects index, fun _ ↦ .idle⟩ := by
  induction h with
  | @init queues hqueues =>
    refine ⟨fun _ ↦ slotFifo.start, .init, fun index ↦ ?_⟩
    obtain ⟨a, ⟨hobject, hidle⟩, ha⟩ := Represents.init (hqueues index)
    have hprogress : a.progress = fun _ ↦ .idle := funext hidle
    rw [← hobject, ← hprogress]
    exact ha
  | @schedule shared queues task labels result after h hfresh hrun hcall ih =>
    obtain ⟨objects, hscheduled, hqueues⟩ := ih
    obtain ⟨-, hafter⟩ := exists_applied_of_alone taskQueue_related (hqueues 0) (fun _ ↦ rfl)
      hrun hcall
    refine ⟨Function.update objects 0 (slotFifo.apply (.push task) (objects 0)).1,
      .schedule hscheduled hfresh, fun index ↦ ?_⟩
    by_cases heq : index = 0
    · subst heq
      simpa using hafter
    · simpa [Function.update_of_ne heq] using hqueues index

/-- Every run of the scheduler on its queues is one on atomic queues, which shows the same, and the
states they reach match. -/
theorem exists_matches [Nonempty Task] {labels : List (Option (Fin n × Event Task Cond Arg))}
    {s : QueuesState n Task Cond Arg}
    (hrun : (scheffRunTlQueues n Task Cond Arg).Run (fun _ _ ↦ True) labels s) :
    ∃ steps t views, (scheffRun n Task Cond Arg).Run (fun _ _ ↦ True) steps (toState t) ∧
      steps.filterMap Label.shown =
        labels.reduceOption.filterMap (fun seen ↦ Label.shown ⟨seen.1, seen.2⟩) ∧
      (workerClient n Task Cond Arg).Matches queueUser Represents s t views := by
  have hinitial : ∀ s : QueuesState n Task Cond Arg,
      (ScheduledQueues s.memory s.objects ∧ ∀ self, s.phases self = .ready .pop) →
      ∃ t : AtomicClientState (Fin n) (Fin n) (WorkerPc Task Cond Arg) (Shared Task Cond Arg)
          (Option Task × List Task),
        (Scheduled (t.memory.withQueues t.objects) ∧ ∀ self, t.points self = .pop) ∧
        ∃ views, (workerClient n Task Cond Arg).Matches queueUser Represents s t views := by
    intro s ⟨hscheduled, hphases⟩
    obtain ⟨objects, hobjects, hqueues⟩ := hscheduled.exists_scheduled
    refine ⟨⟨s.memory, objects, fun _ ↦ .pop⟩, ⟨hobjects, fun _ ↦ rfl⟩,
      fun index ↦ ⟨objects index, fun _ ↦ .idle⟩, rfl, hqueues, fun _ ↦ rfl, fun self ↦ ?_,
      fun _ _ _ ↦ rfl⟩
    rw [hphases]
    exact .ready WorkerPc.pop fun _ ↦ rfl
  obtain ⟨atomicLabels, t, hatomic, hlabels, views, hmatches⟩ :=
    Client.exists_atomic_run queueUser_injective taskQueue_related hinitial hrun
  obtain ⟨steps, hscheff, hsteps⟩ := exists_scheffRun hatomic
  rw [hlabels] at hsteps
  exact ⟨steps, t, views, hscheff, hsteps, hmatches⟩

/-- **The scheduler on its queues.** Every run of the workers with the accesses of the lock, the
slot and the array of each queue is a run in which each function of a queue is one step. It shows
the same resumptions, requests and evaluations of conditions in the same order. It ends with the
same tasks, wakers and `remaining_tasks`, and every worker that is not in a function of a queue is
at the same point. The array of each queue holds its tasks between the head and the tail. No worker
ever is about to use an array that is not allocated. -/
theorem scheffRun_of_tlQueues [Nonempty Task]
    {labels : List (Option (Fin n × Event Task Cond Arg))} {s : QueuesState n Task Cond Arg}
    (hrun : (scheffRunTlQueues n Task Cond Arg).Run (fun _ _ ↦ True) labels s) :
    (∃ steps t, (scheffRun n Task Cond Arg).Run (fun _ _ ↦ True) steps t ∧
      steps.filterMap Label.shown =
        labels.reduceOption.filterMap (fun seen ↦ Label.shown ⟨seen.1, seen.2⟩) ∧
      t.memory.shared = s.memory ∧
      (∀ self pc, s.phases self = .ready pc → t.workers self = pc) ∧
      ∀ index, ∃ arr,
        (s.objects index).memory.heap
          (((s.objects index).pc .owner).currentArray (s.objects index).memory.array) = some arr ∧
        arr.Holds (s.objects index).memory.head ((t.memory.queues index).2.map some) ∧
        (s.objects index).memory.tail =
          (s.objects index).memory.head + (t.memory.queues index).2.length ∧
        (t.memory.queues index).2.length ≤ arr.size ∧
        (t.memory.queues index).1 =
          ((s.objects index).pc .owner).slot (s.objects index).memory.buffer) ∧
    ∀ index thread address,
      ((s.objects index).pc thread).accesses (s.objects index).memory = some address →
        ((s.objects index).memory.heap address).isSome := by
  obtain ⟨steps, t, views, hscheff, hsteps, hmatches⟩ := exists_matches hrun
  refine ⟨⟨steps, toState t, hscheff, hsteps, hmatches.memory, fun self pc hphase ↦ ?_,
    fun index ↦ ?_⟩, fun index thread address ↦ (hmatches.related index).accesses⟩
  · have hthread := hmatches.threads self
    rw [hphase] at hthread
    exact hthread.of_ready.1
  · obtain ⟨arr, harr, hholds, htail, hsize⟩ := (hmatches.related index).ring
    have hslot := (hmatches.related index).slot
    rw [hmatches.objects] at hholds htail hsize hslot
    exact ⟨arr, harr, hholds, htail, hsize, hslot⟩

/-! ### Conservation -/

/-- What lies in the array of a queue between the head and the tail. -/
def ringContents (m : TlQueue.Memory Task) : List (Option Task) :=
  match m.heap m.array with
  | none => []
  | some arr => (List.range (m.tail - m.head).toNat).map fun i : ℕ ↦ arr.caGet (m.head + i)

/-- The tasks in the slot and the array of a queue. -/
def queuedTasks (m : TlQueue.Memory Task) : Multiset Task :=
  m.buffer.toList + (ringContents m).reduceOption

omit [DecidableEq Task] in
theorem ringContents_eq {m : TlQueue.Memory Task} {fifo : List Task} (h : m.Ring m.array fifo) :
    ringContents m = fifo.map some := by
  obtain ⟨arr, harr, hholds, htail, -⟩ := h
  unfold ringContents
  rw [harr, htail]
  have hcount : (m.head + fifo.length - m.head).toNat = fifo.length := by omega
  rw [hcount]
  refine List.ext_getElem (by simp) fun i hi hi' ↦ ?_
  rw [List.getElem_map, List.getElem_range]
  exact hholds i _ (List.getElem?_eq_getElem hi')

omit [DecidableEq Task] in
/-- A thread whose operation has not begun is not in the queue. -/
theorem eq_idle_of_progress {pc : TlQueue.Pc Task} (h : pc.progress = .idle) : pc = .idle := by
  cases pc with
  | idle => rfl
  | push operation elt step => cases step <;> exact absurd h (by simp [Pc.progress])
  | take operation step => cases step <;> exact absurd h (by simp [Pc.progress])
  | _ => exact absurd h (by simp [Pc.progress])

section Matching

omit [NeZero n]

variable {s : QueuesState n Task Cond Arg}
  {t : AtomicClientState (Fin n) (Fin n) (WorkerPc Task Cond Arg) (Shared Task Cond Arg)
    (Option Task × List Task)}
  {views : Fin n → AtomicState (Thread (Fin n)) (Option Task × List Task) (Operation Task)
    (Option Task)}

/-- A worker that is in no function of a queue is where the worker with atomic queues is. -/
theorem points_of_ready
    (hmatches : (workerClient n Task Cond Arg).Matches queueUser Represents s t views)
    {self : Fin n} {pc : WorkerPc Task Cond Arg} (hphase : s.phases self = .ready pc) :
    t.points self = pc := by
  have hthread := hmatches.threads self
  rw [hphase] at hthread
  exact hthread.of_ready.1

/-- The array of a queue holds the list of the atomic one. -/
theorem ring_of_matches
    (hmatches : (workerClient n Task Cond Arg).Matches queueUser Represents s t views)
    (index : Fin n) :
    (s.objects index).memory.Ring
      (((s.objects index).pc .owner).currentArray (s.objects index).memory.array)
      (t.objects index).2 := by
  rw [← hmatches.objects]
  exact (hmatches.related index).ring

/-- The owner of a queue is idle in it while it is in no function of a queue. -/
theorem owner_idle_of_ready
    (hmatches : (workerClient n Task Cond Arg).Matches queueUser Represents s t views)
    {index : Fin n} {pc : WorkerPc Task Cond Arg} (hphase : s.phases index = .ready pc) :
    (s.objects index).pc .owner = .idle := by
  have hthread := hmatches.threads index
  rw [hphase] at hthread
  have hprogress := hthread.of_ready.2 index
  rw [show queueUser index index = .owner from if_pos rfl] at hprogress
  exact eq_idle_of_progress (((hmatches.related index).progress .owner).symm.trans hprogress)

/-- The array of the queue then holds the tasks of the atomic one, and nothing else. -/
theorem ringContents_of_ready
    (hmatches : (workerClient n Task Cond Arg).Matches queueUser Represents s t views)
    {index : Fin n} {pc : WorkerPc Task Cond Arg} (hphase : s.phases index = .ready pc) :
    ringContents (s.objects index).memory = (t.objects index).2.map some := by
  have hring := ring_of_matches hmatches index
  rw [owner_idle_of_ready hmatches hphase] at hring
  exact ringContents_eq hring

/-- The queue then holds the tasks of the atomic one. -/
theorem queuedTasks_of_ready
    (hmatches : (workerClient n Task Cond Arg).Matches queueUser Represents s t views)
    {index : Fin n} {pc : WorkerPc Task Cond Arg} (hphase : s.phases index = .ready pc) :
    queuedTasks (s.objects index).memory = queued (t.objects index) := by
  have hslot := (hmatches.related index).slot
  rw [hmatches.objects, owner_idle_of_ready hmatches hphase] at hslot
  have hbuffer : (s.objects index).memory.buffer = (t.objects index).1 := hslot.symm
  unfold queuedTasks queued
  rw [hbuffer, ringContents_of_ready hmatches hphase, List.reduceOption, List.filterMap_map,
    Function.id_comp, List.filterMap_some]

/-- All rings are empty where no task is in any place. -/
theorem head_eq_tail
    (hmatches : (workerClient n Task Cond Arg).Matches queueUser Represents s t views)
    (hempty : (toState t).places = 0) (index : Fin n) :
    (s.objects index).memory.head = (s.objects index).memory.tail := by
  obtain ⟨arr, -, -, htail, -⟩ := ring_of_matches hmatches index
  have hcontents : (t.objects index).2 = [] := by
    refine List.eq_nil_iff_forall_not_mem.mpr fun task htask ↦ ?_
    have hmem : task ∈ (toState t).places :=
      Multiset.mem_add.mpr (.inl (Multiset.mem_add.mpr
        (.inl (mem_total.mpr ⟨index, Multiset.mem_add.mpr (.inr htask)⟩))))
    rw [hempty] at hmem
    exact Multiset.notMem_zero task hmem
  rw [htail, hcontents]
  simp

end Matching

/-- **Conservation on the queues.** In every state of every run of the workers on their queues no
task is run by two workers, and the task that a worker runs is allocated and suspended. No worker
finds a finished coroutine. Where a worker has left its loop no task is allocated and all rings are
empty. Where no worker is in a function of a queue, the allocated tasks are those in the slots, in
the arrays between the head and the tail, in the hands of the workers, and handed out as wakers,
each exactly once, and no ring has `EMPTY` in it. -/
theorem task_conservation_tlQueues [Nonempty Task]
    {labels : List (Option (Fin n × Event Task Cond Arg))} {s : QueuesState n Task Cond Arg}
    (hrun : (scheffRunTlQueues n Task Cond Arg).Run (fun _ _ ↦ True) labels s) :
    (∀ self other pc pc' task, s.phases self = .ready pc → s.phases other = .ready pc' →
      pc.Runs task → pc'.Runs task → self = other) ∧
    (∀ self pc task, s.phases self = .ready pc → pc.Runs task →
      ∃ value, s.memory.tasks task = some value ∧ value.state = .paused) ∧
    (∀ self, s.phases self ≠ .ready .fatal) ∧
    ((∃ self, s.phases self = .ready .exited) → s.memory.remainingTasks = 0 ∧
      (∀ task, s.memory.tasks task = none) ∧
      ∀ index, (s.objects index).memory.head = (s.objects index).memory.tail) ∧
    ∀ pcs : Fin n → WorkerPc Task Cond Arg, (∀ self, s.phases self = .ready (pcs self)) →
      (∃ live : Finset Task, (∀ task, task ∈ live ↔ (s.memory.tasks task).isSome) ∧
        total (fun queue ↦ queuedTasks queue.memory) s.objects + s.memory.wakers +
          total WorkerPc.hands pcs = live.val) ∧
      ∀ index, none ∉ ringContents (s.objects index).memory := by
  obtain ⟨steps, t, views, hscheff, -, hmatches⟩ := exists_matches hrun
  obtain ⟨live, hlive⟩ := Conserves.of_run hscheff
  have hmemory : t.memory = s.memory := hmatches.memory
  have hhands : ∀ {self pc task}, s.phases self = .ready pc → pc.Runs task →
      task ∈ ((toState t).workers self).hands := by
    intro self pc task hphase hruns
    rw [show (toState t).workers self = pc from points_of_ready hmatches hphase]
    exact Multiset.mem_add.mpr (.inl hruns.mem_held)
  refine ⟨fun self other pc pc' task hself hother hruns hruns' ↦
      hlive.eq_of_mem_hands (hhands hself hruns) (hhands hother hruns'),
    fun self pc task hphase hruns ↦ ?_,
    fun self hfatal ↦ hlive.notFatal self (points_of_ready hmatches hfatal),
    fun ⟨self, hexited⟩ ↦ ?_, fun pcs hpcs ↦ ?_⟩
  · have hmem := hhands hphase hruns
    obtain ⟨value, hvalue⟩ := Option.isSome_iff_exists.mp
      (hlive.isSome_of_mem (Conserves.mem_places_of_hands hmem))
    have hnot : (toState t).workers self ≠ .finalize task := by
      rw [show (toState t).workers self = pc from points_of_ready hmatches hphase]
      rcases hruns with rfl | rfl <;> simp
    refine ⟨value, ?_, hlive.state_eq_paused hmem hnot hvalue⟩
    rw [← hmemory]
    exact hvalue
  · have hzero := hlive.exited self (points_of_ready hmatches hexited)
    have hempty := (hlive.places_eq_zero hzero).1
    refine ⟨by rw [← hmemory]; exact hzero, fun task ↦ ?_, head_eq_tail hmatches hempty⟩
    rw [← hmemory]
    refine Option.not_isSome_iff_eq_none.mp fun hsome ↦ ?_
    have hmem : task ∈ live.val := (hlive.allocated task).mpr hsome
    rw [← hlive.places, hempty] at hmem
    exact Multiset.notMem_zero task hmem
  · have hqueued : total (fun queue ↦ queuedTasks queue.memory) s.objects =
        total queued t.objects :=
      Finset.sum_congr rfl fun index _ ↦ queuedTasks_of_ready hmatches (hpcs index)
    have hpoints : t.points = pcs := funext fun self ↦ points_of_ready hmatches (hpcs self)
    refine ⟨⟨live, fun task ↦ ?_, ?_⟩, fun index ↦ ?_⟩
    · rw [← hmemory]
      exact hlive.allocated task
    · rw [← hlive.places, hqueued, ← hpoints, ← hmemory]
      rfl
    · rw [ringContents_of_ready hmatches (hpcs index)]
      simp

/-! ### One worker takes a task -/

/-- The queue of a single worker. -/
def smallQueue : TlQueue.State ℕ (Fin 1) :=
  ⟨tlQueueInit initialQueueLogSize initialQueueLogSize_lt 0 fun _ ↦ none, fun _ ↦ .idle⟩

theorem smallQueue_advance {s : TlQueue.State ℕ (Fin 1)} {labels : List (TlQueue.Label ℕ (Fin 1))}
    {pc : Pc ℕ} {memory : TlQueue.Memory ℕ}
    (hrun : ((taskQueue 1 ℕ).startedIn smallQueue).Run (fun _ _ ↦ True) labels s)
    (hfresh : s.memory.heap 1 = none)
    (hadvance : (s.pc .owner).advance 1 (fun _ ↦ none) s.memory = some (pc, memory)) :
    ((taskQueue 1 ℕ).startedIn smallQueue).Run (fun _ _ ↦ True) (labels ++ [.step .owner])
      { memory := memory, pc := Function.update s.pc .owner pc } :=
  hrun.step trivial (.step hfresh hadvance)

section Small

variable {s : QueuesState 1 ℕ Unit Unit} {labels : List (Option (Fin 1 × Event ℕ Unit Unit))}

theorem small_call {point : WorkerPc ℕ Unit Unit} {operation : Operation ℕ}
    (hrun : (scheffRunTlQueues 1 ℕ Unit Unit).Run (fun _ _ ↦ True) labels s)
    (hphase : s.phases 0 = .ready point) (hcalls : point.calls (0 : Fin 1) = some (0, operation))
    (hidle : (s.objects 0).pc .owner = .idle) (hmay : operation.MayCall (.owner : Thread (Fin 1))) :
    (scheffRunTlQueues 1 ℕ Unit Unit).Run (fun _ _ ↦ True) (labels ++ [none])
      { s with
        objects := Function.update s.objects 0
          { s.objects 0 with pc := Function.update (s.objects 0).pc .owner operation.entry }
        phases := Function.update s.phases 0 (.waiting point) } :=
  hrun.step trivial (.call hphase hcalls
    (show (TlQueue.Label.call .owner operation).event? = _ from rfl) (TlQueue.Step.call hidle hmay))

theorem small_advance {pc : Pc ℕ} {memory : TlQueue.Memory ℕ}
    (hrun : (scheffRunTlQueues 1 ℕ Unit Unit).Run (fun _ _ ↦ True) labels s)
    (hfresh : (s.objects 0).memory.heap 1 = none)
    (hadvance : ((s.objects 0).pc .owner).advance 1 (fun _ ↦ none) (s.objects 0).memory =
      some (pc, memory)) :
    (scheffRunTlQueues 1 ℕ Unit Unit).Run (fun _ _ ↦ True) (labels ++ [none])
      { s with
        objects := Function.update s.objects 0
          { memory := memory, pc := Function.update (s.objects 0).pc .owner pc } } :=
  hrun.step trivial (.advance (show (TlQueue.Label.step .owner).event? = none from rfl)
    (TlQueue.Step.step hfresh hadvance))

theorem small_finish {point : WorkerPc ℕ Unit Unit} {operation : Operation ℕ} {result : Option ℕ}
    (hrun : (scheffRunTlQueues 1 ℕ Unit Unit).Run (fun _ _ ↦ True) labels s)
    (hphase : s.phases 0 = .waiting point) (hcalls : point.calls (0 : Fin 1) = some (0, operation))
    (hdone : (s.objects 0).pc .owner = .done result) :
    (scheffRunTlQueues 1 ℕ Unit Unit).Run (fun _ _ ↦ True) (labels ++ [none])
      { s with
        objects := Function.update s.objects 0
          { s.objects 0 with pc := Function.update (s.objects 0).pc .owner .idle }
        phases := Function.update s.phases 0 (.ready (point.returns result)) } :=
  hrun.step trivial (.finish hphase hcalls
    (show (TlQueue.Label.finish .owner result).event? = _ from rfl) (TlQueue.Step.finish hdone))

end Small

theorem run_takeTask : ∃ labels s,
    (scheffRunTlQueues 1 ℕ Unit Unit).Run (fun _ _ ↦ True) labels s ∧
      s.phases 0 = .ready (.checkState 0) := by
  have hqueue : ((taskQueue 1 ℕ).startedIn smallQueue).Run (fun _ _ ↦ True) [] smallQueue :=
    .start rfl
  have hpush := hqueue.step trivial
    (show TlQueue.Step _ (.call .owner (.push 0)) _ from .call rfl trivial)
  have hacquire := smallQueue_advance hpush rfl rfl
  have hload := smallQueue_advance hacquire rfl rfl
  have hset := smallQueue_advance hload rfl rfl
  have htail := smallQueue_advance hset rfl rfl
  have hrelease := smallQueue_advance htail rfl rfl
  have hfinish := hrelease.step trivial
    (show TlQueue.Step _ (.finish .owner none) _ from .finish rfl)
  have hqueues : ScheduledQueues (⟨0, fun _ ↦ none, 0⟩ : Shared ℕ Unit Unit)
      (fun _ : Fin 1 ↦ smallQueue) := .init fun _ ↦ ⟨⟨0, fun _ ↦ none, rfl⟩, fun _ ↦ rfl⟩
  have hscheduled := hqueues.schedule (show none = none from rfl) hfinish rfl
  have hstart : (scheffRunTlQueues 1 ℕ Unit Unit).Run (fun _ _ ↦ True) []
      ⟨_, _, fun _ ↦ .ready .pop⟩ := .start ⟨hscheduled, fun _ ↦ rfl⟩
  have hpop := small_call hstart rfl rfl rfl trivial
  have htest := small_advance hpop rfl rfl
  have hacquired := small_advance htest rfl rfl
  have hloaded := small_advance hacquired rfl rfl
  have hget := small_advance hloaded rfl rfl
  have hhead := small_advance hget rfl rfl
  have hreleased := small_advance hhead rfl rfl
  exact ⟨_, _, small_finish hreleased rfl rfl rfl, rfl⟩

theorem scheffRun_of_tlQueues_takeTask : ∃ labels s,
    (scheffRunTlQueues 1 ℕ Unit Unit).Run (fun _ _ ↦ True) labels s ∧
      s.phases 0 = .ready (.checkState 0) ∧
      ∃ steps t, (scheffRun 1 ℕ Unit Unit).Run (fun _ _ ↦ True) steps t ∧
        t.workers 0 = .checkState 0 := by
  obtain ⟨labels, s, hrun, hphase⟩ := run_takeTask
  obtain ⟨⟨steps, t, hscheff, -, -, hworkers, -⟩, -⟩ := scheffRun_of_tlQueues hrun
  exact ⟨labels, s, hrun, hphase, steps, t, hscheff, hworkers 0 _ hphase⟩

theorem task_conservation_takeTask : ∃ labels s,
    (scheffRunTlQueues 1 ℕ Unit Unit).Run (fun _ _ ↦ True) labels s ∧
      (s.memory.tasks 0).isSome := by
  obtain ⟨labels, s, hrun, hphase⟩ := run_takeTask
  obtain ⟨-, -, -, -, hplaces⟩ := task_conservation_tlQueues hrun
  obtain ⟨⟨live, hlive, htotal⟩, -⟩ := hplaces (fun _ ↦ .checkState 0) fun self ↦ by
    rw [Subsingleton.elim self 0]
    exact hphase
  refine ⟨labels, s, hrun, (hlive 0).mp ?_⟩
  rw [← Finset.mem_val, ← htotal]
  exact Multiset.mem_add.mpr (.inr (mem_total.mpr ⟨0, Multiset.mem_singleton_self 0⟩))

end Libseff.Scheduler
