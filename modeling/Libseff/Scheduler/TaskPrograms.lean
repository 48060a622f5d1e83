import Libseff.Scheduler.SchedulerQueues

/-!
# The programs of the tasks

What the tasks of a scheduler run (`TaskPrograms`). While a worker is in `seff_resume` the task
advances, until it performs a request; while it is in `must_sleep` it runs the function that the
task has handed to `scheff_sleep`; a condition has the value that the memory of the tasks gives it.
So a run of the scheduler with programs is one of `scheff_run`, with the choices made (`scheff`).

A program tells at each point what its task may be part of (`Status`): only a task that has
performed `fork` is at a point with a task to create, and only one that has returned, or that has
performed `wake` for the last time, at one where it is freed. The worker that holds a task is where
its status says (`coherent`). So a task that is in a queue, or that is woken, goes on from where it
was suspended, and no task is freed before its program has ended.
-/

set_option autoImplicit false
set_option relaxedAutoImplicit false

namespace Libseff.Scheduler

open Foundation Queues Queues.TlQueue

variable {n : ℕ} {Task Cond Arg : Type*}

/-! ### Programs -/

/-- What a worker may do with a task: resume it, create the task that it forks, run `must_sleep` for
it, or free it. -/
inductive Status
  | active
  | creating
  | deciding
  | finished
  deriving DecidableEq

/-- The status of a task that has performed a request. -/
def Request.status : Request Task Cond Arg → Status
  | .ret => .finished
  | .fork => .creating
  | .poll _ _ => .active
  | .sleep => .deciding
  | .wake _ resume => if resume then .active else .finished

/-- What the tasks run, with the memory that they share. -/
structure TaskPrograms (Task Cond Arg Code Shared : Type*) where
  status : Code → Status
  /-- A step of a task on its own. -/
  advance : Code → Shared → Option (Code × Shared)
  /-- The request that a task performs, and the point after it. -/
  request : Code → Option (Request Task Cond Arg × Code)
  /-- The start of the task that is forked, and the point at which the forking task goes on. -/
  forked : Code → Option (Code × Code)
  /-- The value of a condition. -/
  evaluate : Cond → Option Arg → Shared → Bool
  /-- A step of `must_sleep(waker, arg)`, for the waker of the given task. -/
  mustSleep : Task → Code → Shared → Option (Code × Shared)
  /-- The last step of `must_sleep(waker, arg)`: what it returns, and the point at which the task
  goes on when it is resumed. -/
  answer : Code → Shared → Option (Bool × Code × Shared)
  advance_status : ∀ {code after : Code} {shared shared' : Shared},
    advance code shared = some (after, shared') → status code = .active ∧ status after = .active
  request_status : ∀ {code after : Code} {request' : Request Task Cond Arg},
    request code = some (request', after) →
      status code = .active ∧ status after = request'.status
  forked_status : ∀ {code start after : Code}, forked code = some (start, after) →
    status code = .creating ∧ status start = .active ∧ status after = .active
  mustSleep_status : ∀ {task : Task} {code after : Code} {shared shared' : Shared},
    mustSleep task code shared = some (after, shared') →
      status code = .deciding ∧ status after = .deciding
  answer_status : ∀ {code after : Code} {shared shared' : Shared} {result : Bool},
    answer code shared = some (result, after, shared') →
      status code = .deciding ∧ status after = .active

/-- A scheduler, the points of its tasks, and the memory that they share. -/
structure ProgramState (n : ℕ) (Task Cond Arg Code Shared : Type*) where
  scheduler : State n Task Cond Arg
  codes : Task → Option Code
  shared : Shared

variable {Code Shared : Type*} [DecidableEq Task]

/-- What the program of a task does at a step of a worker: it performs the request, it forks, or
`must_sleep` returns. Where a condition is evaluated it has its value in the memory. When a task is
freed its program is gone. -/
inductive TaskPrograms.Follows (programs : TaskPrograms Task Cond Arg Code Shared)
    (s : ProgramState n Task Cond Arg Code Shared) (choice : Choice Task Cond Arg) :
    WorkerPc Task Cond Arg → (Task → Option Code) → Shared → Prop
  | request {task : Task} {code after : Code} (hcode : s.codes task = some code)
      (hrequest : programs.request code = some (choice.request, after)) :
      Follows programs s choice (.running task) (Function.update s.codes task (some after)) s.shared
  | answer {task : Task} {code after : Code} {shared : Shared} (hcode : s.codes task = some code)
      (hanswer : programs.answer code s.shared = some (choice.answer, after, shared)) :
      Follows programs s choice (.mustSleep task) (Function.update s.codes task (some after)) shared
  | create {task : Task} {code start after : Code} (hcode : s.codes task = some code)
      (hforked : programs.forked code = some (start, after)) :
      Follows programs s choice (.create task)
        (Function.update (Function.update s.codes task (some after)) choice.fresh (some start))
        s.shared
  | finalize {task : Task} :
      Follows programs s choice (.finalize task) (Function.update s.codes task none) s.shared
  | checkPoll {task : Task} (hanswer : ∀ value pollCondition,
      s.scheduler.memory.tasks task = some value → value.pollCondition = some pollCondition →
        choice.answer = programs.evaluate pollCondition value.pollArg s.shared) :
      Follows programs s choice (.checkPoll task) s.codes s.shared
  | other {pc : WorkerPc Task Cond Arg} (hrunning : ∀ task, pc ≠ .running task)
      (hmustSleep : ∀ task, pc ≠ .mustSleep task) (hcreate : ∀ task, pc ≠ .create task)
      (hfinalize : ∀ task, pc ≠ .finalize task) (hcheckPoll : ∀ task, pc ≠ .checkPoll task) :
      Follows programs s choice pc s.codes s.shared

/-- A worker takes a step, which shows something if it is a step of the scheduler. -/
structure ProgramLabel (n : ℕ) (Task Cond Arg : Type*) where
  self : Fin n
  event : Option (Event Task Cond Arg)

/-- The step of the scheduler. -/
def ProgramLabel.label? (label : ProgramLabel n Task Cond Arg) : Option (Label n Task Cond Arg) :=
  label.event.map fun event ↦ ⟨label.self, event⟩

/-- The steps of a scheduler with programs. -/
inductive ProgramStep (programs : TaskPrograms Task Cond Arg Code Shared) :
    ProgramState n Task Cond Arg Code Shared → ProgramLabel n Task Cond Arg →
      ProgramState n Task Cond Arg Code Shared → Prop
  | advance {s : ProgramState n Task Cond Arg Code Shared} {self : Fin n} {task : Task}
      {code after : Code} {shared : Shared} (hworker : s.scheduler.workers self = .running task)
      (hcode : s.codes task = some code)
      (hadvance : programs.advance code s.shared = some (after, shared)) :
      ProgramStep programs s ⟨self, none⟩
        { s with codes := Function.update s.codes task (some after), shared := shared }
  | mustSleep {s : ProgramState n Task Cond Arg Code Shared} {self : Fin n} {task : Task}
      {code after : Code} {shared : Shared} (hworker : s.scheduler.workers self = .mustSleep task)
      (hcode : s.codes task = some code)
      (hmustSleep : programs.mustSleep task code s.shared = some (after, shared)) :
      ProgramStep programs s ⟨self, none⟩
        { s with codes := Function.update s.codes task (some after), shared := shared }
  | scheduler {s : ProgramState n Task Cond Arg Code Shared} {self : Fin n}
      {choice : Choice Task Cond Arg} {pc : WorkerPc Task Cond Arg}
      {memory : Memory n Task Cond Arg}
      {codes : Task → Option Code} {shared : Shared}
      (hadvance : (s.scheduler.workers self).advance self choice s.scheduler.memory =
        some (pc, memory))
      (hfollows : programs.Follows s choice (s.scheduler.workers self) codes shared) :
      ProgramStep programs s
        ⟨self, some ((s.scheduler.workers self).event choice s.scheduler.memory)⟩
        { scheduler :=
            { memory := memory, workers := Function.update s.scheduler.workers self pc }
          codes := codes
          shared := shared }

/-- The runs of `scheff_run(scheduler)` with programs, from the scheduled tasks. -/
def programRun [NeZero n] (programs : TaskPrograms Task Cond Arg Code Shared)
    (scheduled : ProgramState n Task Cond Arg Code Shared → Prop) :
    TransitionSystem (ProgramState n Task Cond Arg Code Shared)
      (ProgramLabel n Task Cond Arg) where
  initial s := scheduled s ∧ Scheduled s.scheduler.memory ∧
    (∀ self, s.scheduler.workers self = .pop) ∧
    (∀ task, (s.codes task).isSome = (s.scheduler.memory.tasks task).isSome) ∧
    ∀ task code, s.codes task = some code → programs.status code = .active
  step := ProgramStep programs

/-- With programs, a run of the scheduler is one of `scheff_run`. -/
theorem scheff_of_programRun [NeZero n] {programs : TaskPrograms Task Cond Arg Code Shared}
    {scheduled : ProgramState n Task Cond Arg Code Shared → Prop}
    {labels : List (ProgramLabel n Task Cond Arg)}
    {s : ProgramState n Task Cond Arg Code Shared}
    (hrun : (programRun programs scheduled).Run (fun _ _ ↦ True) labels s) :
    (scheffRun n Task Cond Arg).Run (fun _ _ ↦ True) (labels.filterMap ProgramLabel.label?)
      s.scheduler := by
  induction hrun with
  | start h => exact .start ⟨h.2.1, h.2.2.1⟩
  | step _ _ hstep ih =>
    rw [filterMap_concat]
    cases hstep with
    | advance => simpa [ProgramLabel.label?] using ih
    | mustSleep => simpa [ProgramLabel.label?] using ih
    | scheduler hadvance hfollows => exact ih.step trivial (.worker hadvance)

/-- The program of no task takes part in the next step of the worker. -/
def WorkerPc.Apart : WorkerPc Task Cond Arg → Prop
  | .running _ => False
  | .mustSleep _ => False
  | .create _ => False
  | .finalize _ => False
  | .checkPoll _ => False
  | _ => True

theorem TaskPrograms.Follows.of_apart {programs : TaskPrograms Task Cond Arg Code Shared}
    {s : ProgramState n Task Cond Arg Code Shared} {choice : Choice Task Cond Arg}
    {pc : WorkerPc Task Cond Arg} (hapart : pc.Apart) :
    programs.Follows s choice pc s.codes s.shared :=
  .other (by rintro task rfl; exact hapart) (by rintro task rfl; exact hapart)
    (by rintro task rfl; exact hapart) (by rintro task rfl; exact hapart)
    (by rintro task rfl; exact hapart)

/-- The value of the condition that a task polls, if it polls one. -/
def TaskPrograms.answerOf (programs : TaskPrograms Task Cond Arg Code Shared) (shared : Shared)
    (value : TaskT Cond Arg) : Bool :=
  value.pollCondition.elim true fun pollCondition ↦
    programs.evaluate pollCondition value.pollArg shared

theorem TaskPrograms.Follows.of_value {programs : TaskPrograms Task Cond Arg Code Shared}
    {s : ProgramState n Task Cond Arg Code Shared} {request : Request Task Cond Arg}
    {task fresh : Task} {value : TaskT Cond Arg}
    (hvalue : s.scheduler.memory.tasks task = some value) :
    programs.Follows s ⟨request, programs.answerOf s.shared value, fresh⟩ (.checkPoll task) s.codes
      s.shared := by
  refine .checkPoll fun current pollCondition hcurrent hcondition ↦ ?_
  obtain rfl : value = current := Option.some.inj (hvalue.symm.trans hcurrent)
  rw [TaskPrograms.answerOf, hcondition, Option.elim_some]

/-! ### Runs of given workers -/

/-- The state after a step of the scheduler. -/
def ProgramState.schedule (s : ProgramState n Task Cond Arg Code Shared) (self : Fin n)
    (choice : Choice Task Cond Arg) (codes : Task → Option Code) (shared : Shared) :
    Option (ProgramState n Task Cond Arg Code Shared) :=
  ((s.scheduler.workers self).advance self choice s.scheduler.memory).map fun (pc, memory) ↦
    ⟨⟨memory, Function.update s.scheduler.workers self pc⟩, codes, shared⟩

/-- The step of a worker, where `malloc` returns `fresh`. A task performs a request only where it
does not advance, and `must_sleep` returns only then. -/
def TaskPrograms.next (programs : TaskPrograms Task Cond Arg Code Shared)
    (s : ProgramState n Task Cond Arg Code Shared) (self : Fin n) (fresh : Task) :
    Option (ProgramState n Task Cond Arg Code Shared) :=
  match s.scheduler.workers self with
  | .running task => (s.codes task).bind fun code ↦
    match programs.advance code s.shared with
    | some (after, shared) =>
      some { s with codes := Function.update s.codes task (some after), shared := shared }
    | none => (programs.request code).bind fun (request, after) ↦
      s.schedule self ⟨request, true, fresh⟩ (Function.update s.codes task (some after)) s.shared
  | .mustSleep task => (s.codes task).bind fun code ↦
    match programs.mustSleep task code s.shared with
    | some (after, shared) =>
      some { s with codes := Function.update s.codes task (some after), shared := shared }
    | none => (programs.answer code s.shared).bind fun (asleep, after, shared) ↦
      s.schedule self ⟨.ret, asleep, fresh⟩ (Function.update s.codes task (some after)) shared
  | .create task => (s.codes task).bind fun code ↦
    (programs.forked code).bind fun (start, after) ↦
      s.schedule self ⟨.ret, true, fresh⟩
        (Function.update (Function.update s.codes task (some after)) fresh (some start)) s.shared
  | .finalize task =>
    s.schedule self ⟨.ret, true, fresh⟩ (Function.update s.codes task none) s.shared
  | .checkPoll task => (s.scheduler.memory.tasks task).bind fun value ↦
    s.schedule self ⟨.ret, programs.answerOf s.shared value, fresh⟩ s.codes s.shared
  | _ => s.schedule self ⟨.ret, true, fresh⟩ s.codes s.shared

section Given

variable {programs : TaskPrograms Task Cond Arg Code Shared}
  {s after : ProgramState n Task Cond Arg Code Shared} {self : Fin n}

theorem step_of_schedule {current : WorkerPc Task Cond Arg}
    (hworker : s.scheduler.workers self = current) {choice : Choice Task Cond Arg}
    {codes : Task → Option Code} {shared : Shared}
    (hfollows : programs.Follows s choice current codes shared)
    (h : s.schedule self choice codes shared = some after) :
    ∃ label, ProgramStep programs s label after := by
  subst hworker
  obtain ⟨⟨pc, memory⟩, hadvance, rfl⟩ := Option.map_eq_some_iff.mp h
  exact ⟨_, .scheduler hadvance hfollows⟩

/-- What is computed is a step. -/
theorem step_of_next {fresh : Task} (h : programs.next s self fresh = some after) :
    ∃ label, ProgramStep programs s label after := by
  unfold TaskPrograms.next at h
  cases hworker : s.scheduler.workers self with
  | running task =>
    simp only [hworker] at h
    obtain ⟨code, hcode, h⟩ := Option.bind_eq_some_iff.mp h
    split at h
    · rename_i hadvance
      obtain rfl := Option.some.inj h
      exact ⟨_, .advance hworker hcode hadvance⟩
    · obtain ⟨⟨request, next⟩, hrequest, h⟩ := Option.bind_eq_some_iff.mp h
      exact step_of_schedule hworker (.request hcode hrequest) h
  | mustSleep task =>
    simp only [hworker] at h
    obtain ⟨code, hcode, h⟩ := Option.bind_eq_some_iff.mp h
    split at h
    · rename_i hmustSleep
      obtain rfl := Option.some.inj h
      exact ⟨_, .mustSleep hworker hcode hmustSleep⟩
    · obtain ⟨⟨asleep, next, shared⟩, hanswer, h⟩ := Option.bind_eq_some_iff.mp h
      exact step_of_schedule hworker (.answer hcode hanswer) h
  | create task =>
    simp only [hworker] at h
    obtain ⟨code, hcode, h⟩ := Option.bind_eq_some_iff.mp h
    obtain ⟨⟨start, next⟩, hforked, h⟩ := Option.bind_eq_some_iff.mp h
    exact step_of_schedule hworker (.create hcode hforked) h
  | finalize task =>
    simp only [hworker] at h
    exact step_of_schedule hworker .finalize h
  | checkPoll task =>
    simp only [hworker] at h
    obtain ⟨value, hvalue, h⟩ := Option.bind_eq_some_iff.mp h
    exact step_of_schedule hworker (.of_value hvalue) h
  | _ =>
    simp only [hworker] at h
    exact step_of_schedule hworker (.of_apart trivial) h

/-- The state after steps of given workers, with what `malloc` returns in each. -/
def TaskPrograms.follow (programs : TaskPrograms Task Cond Arg Code Shared)
    (moves : List (Fin n × Task)) (s : ProgramState n Task Cond Arg Code Shared) :
    Option (ProgramState n Task Cond Arg Code Shared) :=
  moves.foldlM (fun s move ↦ programs.next s move.1 move.2) s

/-- What is computed is reached. -/
theorem exists_run_of_follow [NeZero n]
    {scheduled : ProgramState n Task Cond Arg Code Shared → Prop}
    {labels : List (ProgramLabel n Task Cond Arg)}
    (hrun : (programRun programs scheduled).Run (fun _ _ ↦ True) labels s)
    {moves : List (Fin n × Task)} (h : programs.follow moves s = some after) :
    ∃ labels, (programRun programs scheduled).Run (fun _ _ ↦ True) labels after := by
  induction moves generalizing labels s with
  | nil =>
    obtain rfl := Option.some.inj h
    exact ⟨labels, hrun⟩
  | cons move moves ih =>
    obtain ⟨next, hnext, hrest⟩ := Option.bind_eq_some_iff.mp h
    obtain ⟨label, hstep⟩ := step_of_next hnext
    exact ih (hrun.step trivial hstep) hrest

end Given

/-! ### Where the tasks are -/

/-- The tasks that a worker holds, with the status that each has. -/
def WorkerPc.roles : WorkerPc Task Cond Arg → List (Task × Status)
  | .checkState task => [(task, .active)]
  | .checkPoll task => [(task, .active)]
  | .clearPoll task => [(task, .active)]
  | .resume task => [(task, .active)]
  | .running task => [(task, .active)]
  | .finalize task => [(task, .finished)]
  | .addRemaining task => [(task, .creating)]
  | .create task => [(task, .creating)]
  | .enqueueForked task newTask => [(task, .active), (newTask, .active)]
  | .enqueuePriority newTask => [(newTask, .active)]
  | .setPoll task _ _ => [(task, .active)]
  | .mustSleep task => [(task, .deciding)]
  | .wake task wakers again =>
    (task, if again then .active else .finished) :: wakers.map fun waker ↦ (waker, .active)
  | .enqueue task => [(task, .active)]
  | _ => []

/-- A task with its status, outside the hands of a worker. -/
inductive State.Outside (s : State n Task Cond Arg) (self : Fin n) : Task → Status → Prop
  | queued {task : Task} (index : Fin n) (hqueued : task ∈ queued (s.memory.queues index)) :
      Outside s self task .active
  | waker {task : Task} (hwaker : task ∈ s.memory.wakers) : Outside s self task .active
  | worker {task : Task} {status : Status} {other : Fin n} (hne : other ≠ self)
      (hroles : (task, status) ∈ (s.workers other).roles) : Outside s self task status

/-- A task with its status. -/
inductive State.Role (s : State n Task Cond Arg) : Task → Status → Prop
  | queued {task : Task} (index : Fin n) (hqueued : task ∈ queued (s.memory.queues index)) :
      Role s task .active
  | waker {task : Task} (hwaker : task ∈ s.memory.wakers) : Role s task .active
  | worker {task : Task} {status : Status} (self : Fin n)
      (hroles : (task, status) ∈ (s.workers self).roles) : Role s task status

omit [DecidableEq Task] in
theorem WorkerPc.mem_hands_of_roles {pc : WorkerPc Task Cond Arg} {task : Task} {status : Status}
    (hroles : (task, status) ∈ pc.roles) : task ∈ pc.hands := by
  cases pc with
  | wake current wakers resume =>
    rcases List.mem_cons.mp hroles with heq | hmem
    · exact Multiset.mem_add.mpr (.inl (Multiset.mem_singleton.mpr (Prod.mk.inj heq).1))
    · obtain ⟨waker, hwaker, heq⟩ := List.mem_map.mp hmem
      rw [← (Prod.mk.inj heq).1]
      exact Multiset.mem_add.mpr (.inr hwaker)
  | enqueueForked current newTask =>
    have hcases : task = current ∨ task = newTask :=
      (by simpa [WorkerPc.roles] using hroles :
        task = current ∧ status = .active ∨ task = newTask ∧ status = .active).imp And.left And.left
    exact Multiset.mem_add.mpr (.inl (by simpa [WorkerPc.held] using hcases))
  | _ => simp_all [WorkerPc.roles, WorkerPc.hands, WorkerPc.held]

section Roles

variable {s : State n Task Cond Arg} {self : Fin n} {task : Task} {status : Status}
  {pc : WorkerPc Task Cond Arg} {memory : Memory n Task Cond Arg} {live : Finset Task}
  {choice : Choice Task Cond Arg}

omit [DecidableEq Task] in
theorem State.Role.outside_or (h : s.Role task status) (self : Fin n) :
    s.Outside self task status ∨ (task, status) ∈ (s.workers self).roles := by
  cases h with
  | queued index hqueued => exact .inl (.queued index hqueued)
  | waker hwaker => exact .inl (.waker hwaker)
  | worker other hroles =>
    by_cases heq : other = self
    · subst heq
      exact .inr hroles
    · exact .inl (.worker heq hroles)

omit [DecidableEq Task] in
theorem State.Outside.role (h : s.Outside self task status) : s.Role task status := by
  cases h with
  | queued index hqueued => exact .queued index hqueued
  | waker hwaker => exact .waker hwaker
  | worker _ hroles => exact .worker _ hroles

omit [DecidableEq Task] in
theorem mem_contents_of_queued {m : Memory n Task Cond Arg} (index : Fin n)
    (hqueued : task ∈ queued (m.queues index)) : task ∈ m.contents :=
  Multiset.mem_add.mpr (.inl (mem_total.mpr ⟨index, hqueued⟩))

omit [DecidableEq Task] in
/-- A task in any role is in a place. -/
theorem State.Role.mem_places (h : s.Role task status) : task ∈ s.places := by
  cases h with
  | queued index hqueued => exact Multiset.mem_add.mpr (.inl (mem_contents_of_queued index hqueued))
  | waker hwaker => exact Multiset.mem_add.mpr (.inl (Multiset.mem_add.mpr (.inr hwaker)))
  | worker other hroles =>
    exact Conserves.mem_places_of_hands (WorkerPc.mem_hands_of_roles hroles)

omit [DecidableEq Task] in
/-- The task that a worker holds is nowhere else. -/
theorem Conserves.not_outside (h : Conserves s live) (hhands : task ∈ (s.workers self).hands) :
    ¬ s.Outside self task status := by
  have hdisjoint := (Multiset.nodup_add.mp h.nodup).2.2
  have hnot : task ∉ s.memory.contents := fun hmem ↦
    Multiset.disjoint_left.mp hdisjoint hmem (mem_total.mpr ⟨self, hhands⟩)
  intro houtside
  cases houtside with
  | queued index hqueued => exact hnot (mem_contents_of_queued index hqueued)
  | waker hwaker => exact hnot (Multiset.mem_add.mpr (.inr hwaker))
  | worker hne hroles =>
    exact hne (h.eq_of_mem_hands hhands (WorkerPc.mem_hands_of_roles hroles)).symm

omit [DecidableEq Task] in
/-- Assumes: the queues and the wakers hold only what they held before. -/
theorem State.Outside.of_update
    (h : State.Outside { memory := memory, workers := Function.update s.workers self pc } self
      task status)
    (hqueues : ∀ index task, task ∈ Scheduler.queued (memory.queues index) →
      task ∈ Scheduler.queued (s.memory.queues index))
    (hwakers : ∀ task, task ∈ memory.wakers → task ∈ s.memory.wakers) :
    s.Outside self task status := by
  cases h with
  | queued index hqueued => exact .queued index (hqueues _ _ hqueued)
  | waker hwaker => exact .waker (hwakers _ hwaker)
  | worker hne hroles =>
    simp only [Function.update_of_ne hne] at hroles
    exact .worker hne hroles

/-! ### The steps of a worker -/

omit [DecidableEq Task] in
/-- What an operation leaves in a queue was there, or is pushed. -/
theorem mem_queued_apply {operation : Operation Task} {queue : Option Task × List Task}
    (h : task ∈ queued (slotFifo.apply operation queue).1) :
    task ∈ queued queue ∨ operation = .push task ∨ operation = .priorityPush task := by
  cases operation with
  | push elt =>
    rw [queued_push] at h
    exact (Multiset.mem_add.mp h).imp_right fun hmem ↦
      .inl (congrArg _ (Multiset.mem_singleton.mp hmem).symm)
  | priorityPush elt =>
    rw [queued_priorityPush] at h
    exact (Multiset.mem_add.mp h).imp_right fun hmem ↦
      .inr (congrArg _ (Multiset.mem_singleton.mp hmem).symm)
  | pop =>
    rw [← queued_pop queue]
    exact .inl (Multiset.mem_add.mpr (.inl h))
  | steal =>
    rw [← queued_steal queue]
    exact .inl (Multiset.mem_add.mpr (.inl h))

omit [DecidableEq Task] in
/-- What a worker takes from a queue was there. -/
theorem mem_queued_of_taken {operation : Operation Task} {queue : Option Task × List Task}
    (h : (slotFifo.apply operation queue).2 = some task) : task ∈ queued queue := by
  cases operation with
  | push elt => exact absurd h (by simp [slotFifo])
  | priorityPush elt => exact absurd h (by simp [slotFifo])
  | pop =>
    rw [← queued_pop queue, h]
    exact Multiset.mem_add.mpr (.inr (Multiset.mem_singleton_self task))
  | steal =>
    rw [← queued_steal queue, h]
    exact Multiset.mem_add.mpr (.inr (Multiset.mem_singleton_self task))

omit [DecidableEq Task] in
/-- A worker pushes a task that it holds and that is to be resumed. -/
theorem mem_roles_of_push {index : Fin n} {operation : Operation Task}
    (hcalls : pc.calls self = some (index, operation))
    (hpush : operation = .push task ∨ operation = .priorityPush task) :
    (task, .active) ∈ pc.roles := by
  cases pc with
  | steal i =>
    by_cases hlt : i < n
    · have heq := (Prod.mk.inj (Option.some.inj ((if_pos hlt).symm.trans hcalls))).2
      rcases hpush with rfl | rfl <;> exact absurd heq (by simp)
    · exact absurd ((if_neg hlt).symm.trans hcalls) (by simp)
  | wake current wakers again =>
    cases wakers with
    | nil => exact absurd hcalls (by simp [WorkerPc.calls])
    | cons waker wakers =>
      obtain ⟨-, rfl⟩ := Prod.mk.inj (Option.some.inj hcalls)
      have heq : waker = task := by simpa using hpush
      simp [WorkerPc.roles, heq]
  | _ => rcases hpush with rfl | rfl <;> simp_all [WorkerPc.calls, WorkerPc.roles]

omit [DecidableEq Task] in
/-- What a worker holds after an operation it held before, or has taken from the queue. -/
theorem mem_roles_of_returns {index : Fin n} {operation : Operation Task}
    {queue : Option Task × List Task} (hcalls : pc.calls self = some (index, operation))
    (hroles : (task, status) ∈ (pc.returns (slotFifo.apply operation queue).2).roles) :
    (task, status) ∈ pc.roles ∨ status = .active ∧ task ∈ queued queue := by
  have htaken : ∀ {next : WorkerPc Task Cond Arg}, next.roles = [] →
      (task, status) ∈ ((slotFifo.apply operation queue).2.elim next .checkState).roles →
        status = .active ∧ task ∈ queued queue := by
    intro next hnext hmem
    cases hresult : (slotFifo.apply operation queue).2 with
    | none => simp [hresult, hnext] at hmem
    | some taken =>
      obtain ⟨rfl, rfl⟩ : task = taken ∧ status = .active := by
        simpa [hresult, WorkerPc.roles] using hmem
      exact ⟨rfl, mem_queued_of_taken hresult⟩
  cases pc with
  | pop => exact .inr (htaken rfl hroles)
  | steal i => exact .inr (htaken rfl hroles)
  | enqueueForked current newTask => exact .inl (List.mem_cons_of_mem _ hroles)
  | enqueuePriority newTask => exact absurd hroles (by simp [WorkerPc.returns, WorkerPc.roles])
  | enqueue current => exact absurd hroles (by simp [WorkerPc.returns, WorkerPc.roles])
  | wake current wakers again =>
    cases wakers with
    | nil => exact absurd hcalls (by simp [WorkerPc.calls])
    | cons waker wakers =>
      rcases List.mem_cons.mp hroles with heq | hmem
      · exact .inl (heq ▸ List.mem_cons_self)
      · exact .inl (List.mem_cons_of_mem _ (List.mem_cons_of_mem _ hmem))
  | _ => exact absurd hcalls (by simp [WorkerPc.calls])

/-- A step that calls no function of a queue, and that neither performs a request, creates, frees
nor decides, leaves the queues and the wakers and keeps the tasks of the worker in their roles, and
allocated. -/
theorem roles_of_calls_none (hcalls : pc.calls self = none) {m : Memory n Task Cond Arg}
    {next : WorkerPc Task Cond Arg} (hrunning : ∀ task, pc ≠ .running task)
    (hmustSleep : ∀ task, pc ≠ .mustSleep task) (hcreate : ∀ task, pc ≠ .create task)
    (hfinalize : ∀ task, pc ≠ .finalize task)
    (hadvance : pc.advance self choice m = some (next, memory)) :
    memory.queues = m.queues ∧ memory.wakers = m.wakers ∧ next.roles ⊆ pc.roles ∧
      ∀ task, (memory.tasks task).isSome = (m.tasks task).isSome := by
  have hsame : ∀ {after : WorkerPc Task Cond Arg} {final : Memory n Task Cond Arg},
      some (after, final) = some (next, memory) → final.queues = m.queues →
      final.wakers = m.wakers → after.roles ⊆ pc.roles →
      (∀ task, (final.tasks task).isSome = (m.tasks task).isSome) →
      memory.queues = m.queues ∧ memory.wakers = m.wakers ∧ next.roles ⊆ pc.roles ∧
        ∀ task, (memory.tasks task).isSome = (m.tasks task).isSome := by
    intro after final heq hqueues hwakers hroles htasks
    obtain ⟨rfl, rfl⟩ := Prod.mk.inj (Option.some.inj heq)
    exact ⟨hqueues, hwakers, hroles, htasks⟩
  cases pc with
  | running task => exact absurd rfl (hrunning task)
  | mustSleep task => exact absurd rfl (hmustSleep task)
  | create task => exact absurd rfl (hcreate task)
  | finalize task => exact absurd rfl (hfinalize task)
  | steal i =>
    have hle : ¬ i < n := fun hlt ↦ absurd hcalls (by simp [WorkerPc.calls, hlt])
    simp only [WorkerPc.advance, if_neg hle] at hadvance
    exact hsame hadvance rfl rfl (List.Subset.refl _) fun _ ↦ rfl
  | loadRemaining =>
    simp only [WorkerPc.advance] at hadvance
    split_ifs at hadvance
    · exact hsame hadvance rfl rfl (List.Subset.refl _) fun _ ↦ rfl
    · exact hsame hadvance rfl rfl (List.Subset.refl _) fun _ ↦ rfl
  | checkState task =>
    obtain ⟨value, -, hadvance⟩ := Option.bind_eq_some_iff.mp hadvance
    split_ifs at hadvance
    · exact hsame hadvance rfl rfl (List.Subset.refl _) fun _ ↦ rfl
    · exact hsame hadvance rfl rfl (List.nil_subset _) fun _ ↦ rfl
  | checkPoll task =>
    obtain ⟨value, -, hadvance⟩ := Option.bind_eq_some_iff.mp hadvance
    split_ifs at hadvance
    · exact hsame hadvance rfl rfl (List.Subset.refl _) fun _ ↦ rfl
    · exact hsame hadvance rfl rfl (List.Subset.refl _) fun _ ↦ rfl
  | clearPoll task =>
    obtain ⟨value, hvalue, hadvance⟩ := Option.bind_eq_some_iff.mp hadvance
    exact hsame hadvance rfl rfl (List.Subset.refl _) (Conserves.isSome_write hvalue _)
  | setPoll task pollCondition pollArg =>
    obtain ⟨value, hvalue, hadvance⟩ := Option.bind_eq_some_iff.mp hadvance
    exact hsame hadvance rfl rfl (List.Subset.refl _) (Conserves.isSome_write hvalue _)
  | wake task wakers again =>
    cases wakers with
    | nil => cases again <;> exact hsame hadvance rfl rfl (List.Subset.refl _) fun _ ↦ rfl
    | cons waker wakers => exact absurd hcalls (by simp [WorkerPc.calls])
  | resume task => exact hsame hadvance rfl rfl (List.Subset.refl _) fun _ ↦ rfl
  | subRemaining => exact hsame hadvance rfl rfl (List.Subset.refl _) fun _ ↦ rfl
  | addRemaining task => exact hsame hadvance rfl rfl (List.Subset.refl _) fun _ ↦ rfl
  | asleep => exact hsame hadvance rfl rfl (List.Subset.refl _) fun _ ↦ rfl
  | pop => exact absurd hcalls (by simp [WorkerPc.calls])
  | enqueueForked current newTask => exact absurd hcalls (by simp [WorkerPc.calls])
  | enqueuePriority newTask => exact absurd hcalls (by simp [WorkerPc.calls])
  | enqueue current => exact absurd hcalls (by simp [WorkerPc.calls])
  | exited => exact absurd hadvance (by simp [WorkerPc.advance])
  | fatal => exact absurd hadvance (by simp [WorkerPc.advance])

/-- A step that neither performs a request, creates, frees nor decides keeps the tasks in their
roles. -/
theorem role_of_advance (hrunning : ∀ task, s.workers self ≠ .running task)
    (hmustSleep : ∀ task, s.workers self ≠ .mustSleep task)
    (hcreate : ∀ task, s.workers self ≠ .create task)
    (hfinalize : ∀ task, s.workers self ≠ .finalize task)
    (hadvance : (s.workers self).advance self choice s.memory = some (pc, memory))
    (hrole : State.Role { memory := memory, workers := Function.update s.workers self pc } task
      status) : s.Role task status := by
  obtain ⟨current, hcurrent⟩ : ∃ current, s.workers self = current := ⟨_, rfl⟩
  rw [hcurrent] at hrunning hmustSleep hcreate hfinalize hadvance
  cases hcalls : current.calls self with
  | some call =>
    obtain ⟨index, operation⟩ := call
    rw [advance_of_calls hcalls choice s.memory] at hadvance
    obtain ⟨rfl, rfl⟩ := Prod.mk.inj (Option.some.inj hadvance)
    cases hrole with
    | queued other hqueued =>
      by_cases heq : other = index
      · subst heq
        simp only [Function.update_self] at hqueued
        rcases mem_queued_apply hqueued with hmem | hpush
        · exact .queued other hmem
        · exact .worker self (hcurrent ▸ mem_roles_of_push hcalls hpush)
      · simp only [Function.update_of_ne heq] at hqueued
        exact .queued other hqueued
    | waker hwaker => exact .waker hwaker
    | worker other hroles =>
      by_cases heq : other = self
      · subst heq
        simp only [Function.update_self] at hroles
        rcases mem_roles_of_returns hcalls hroles with hmem | ⟨rfl, hmem⟩
        · exact .worker other (hcurrent ▸ hmem)
        · exact .queued index hmem
      · simp only [Function.update_of_ne heq] at hroles
        exact .worker other hroles
  | none =>
    obtain ⟨hqueues, hwakers, hsubset, -⟩ :=
      roles_of_calls_none hcalls hrunning hmustSleep hcreate hfinalize hadvance
    rcases hrole.outside_or self with houtside | hroles
    · exact (houtside.of_update (fun index task hmem ↦ hqueues ▸ hmem)
        fun task hmem ↦ hwakers ▸ hmem).role
    · simp only [Function.update_self] at hroles
      exact .worker self (hcurrent ▸ hsubset hroles)

/-- A step that neither performs a request, creates, frees nor decides frees and allocates nothing.
-/
theorem isSome_tasks_of_advance (hrunning : ∀ task, s.workers self ≠ .running task)
    (hmustSleep : ∀ task, s.workers self ≠ .mustSleep task)
    (hcreate : ∀ task, s.workers self ≠ .create task)
    (hfinalize : ∀ task, s.workers self ≠ .finalize task)
    (hadvance : (s.workers self).advance self choice s.memory = some (pc, memory)) (task : Task) :
    (memory.tasks task).isSome = (s.memory.tasks task).isSome := by
  cases hcalls : (s.workers self).calls self with
  | some call =>
    obtain ⟨index, operation⟩ := call
    rw [advance_of_calls hcalls choice s.memory] at hadvance
    obtain ⟨rfl, rfl⟩ := Prod.mk.inj (Option.some.inj hadvance)
    rfl
  | none =>
    exact (roles_of_calls_none hcalls hrunning hmustSleep hcreate hfinalize hadvance).2.2.2 _

/-- What a worker does with a request: the task gets the status of the request, and those that it
wakes come from the wakers. -/
theorem roles_of_handle {value : TaskT Cond Arg} {m : Memory n Task Cond Arg}
    {request : Request Task Cond Arg} (hvalue : m.tasks task = some value)
    (hhandle : request.handle task value m = some (pc, memory)) :
    memory.queues = m.queues ∧ (∀ waker, waker ∈ memory.wakers → waker ∈ m.wakers) ∧
      (∀ other status, (other, status) ∈ pc.roles →
        other = task ∧ status = request.status ∨ status = .active ∧ other ∈ m.wakers) ∧
      ∀ other, (memory.tasks other).isSome = (m.tasks other).isSome := by
  have hsingle : ∀ {other : Task} {status : Status}, (other, status) ∈ [(task, request.status)] →
      other = task ∧ status = request.status ∨ status = .active ∧ other ∈ m.wakers :=
    fun hmem ↦ .inl (Prod.mk.inj (List.mem_singleton.mp hmem))
  cases request with
  | ret =>
    obtain ⟨rfl, rfl⟩ := Prod.mk.inj (Option.some.inj hhandle)
    exact ⟨rfl, fun _ hmem ↦ hmem, fun _ _ ↦ hsingle, Conserves.isSome_write hvalue _⟩
  | fork =>
    obtain ⟨rfl, rfl⟩ := Prod.mk.inj (Option.some.inj hhandle)
    exact ⟨rfl, fun _ hmem ↦ hmem, fun _ _ ↦ hsingle, fun _ ↦ rfl⟩
  | poll pollCondition pollArg =>
    obtain ⟨rfl, rfl⟩ := Prod.mk.inj (Option.some.inj hhandle)
    exact ⟨rfl, fun _ hmem ↦ hmem, fun _ _ ↦ hsingle, fun _ ↦ rfl⟩
  | sleep =>
    obtain ⟨rfl, rfl⟩ := Prod.mk.inj (Option.some.inj hhandle)
    exact ⟨rfl, fun _ hmem ↦ hmem, fun _ _ ↦ hsingle, fun _ ↦ rfl⟩
  | wake wakers again =>
    simp only [Request.handle] at hhandle
    split_ifs at hhandle with hle
    obtain ⟨rfl, rfl⟩ := Prod.mk.inj (Option.some.inj hhandle)
    refine ⟨rfl, fun waker hmem ↦ Multiset.mem_of_le (Multiset.sub_le_self _ _) hmem,
      fun other status hmem ↦ ?_, fun _ ↦ rfl⟩
    rcases List.mem_cons.mp hmem with heq | hwaker
    · exact .inl (Prod.mk.inj heq)
    · obtain ⟨waker, hlisted, heq⟩ := List.mem_map.mp hwaker
      obtain ⟨rfl, rfl⟩ := Prod.mk.inj heq
      exact .inr ⟨rfl, Multiset.mem_of_le hle hlisted⟩

/-- A task that performs a request has the status of the request. -/
theorem role_of_request (hworker : s.workers self = .running task)
    (hadvance : (s.workers self).advance self choice s.memory = some (pc, memory)) :
    (∀ other status, State.Role { memory := memory, workers := Function.update s.workers self pc }
        other status →
      other = task ∧ status = choice.request.status ∨ s.Outside self other status) ∧
      ∀ other, (memory.tasks other).isSome = (s.memory.tasks other).isSome := by
  rw [hworker] at hadvance
  obtain ⟨value, hvalue, hhandle⟩ := Option.bind_eq_some_iff.mp hadvance
  obtain ⟨hqueues, hwakers, hroles, htasks⟩ := roles_of_handle hvalue hhandle
  refine ⟨fun other status hrole ↦ ?_, htasks⟩
  rcases hrole.outside_or self with houtside | hmem
  · exact .inr (houtside.of_update (fun index _ h ↦ hqueues ▸ h) hwakers)
  · simp only [Function.update_self] at hmem
    rcases hroles _ _ hmem with heq | ⟨rfl, hwaker⟩
    · exact .inl heq
    · exact .inr (.waker hwaker)

/-- A task for which `must_sleep` has returned is to be resumed. -/
theorem role_of_answer (hworker : s.workers self = .mustSleep task)
    (hadvance : (s.workers self).advance self choice s.memory = some (pc, memory)) :
    (∀ other status, State.Role { memory := memory, workers := Function.update s.workers self pc }
        other status → other = task ∧ status = .active ∨ s.Outside self other status) ∧
      ∀ other, (memory.tasks other).isSome = (s.memory.tasks other).isSome := by
  rw [hworker] at hadvance
  simp only [WorkerPc.advance] at hadvance
  split_ifs at hadvance with hanswer
  · obtain ⟨rfl, rfl⟩ := Prod.mk.inj (Option.some.inj hadvance)
    refine ⟨fun other status hrole ↦ ?_, fun _ ↦ rfl⟩
    cases hrole with
    | queued index hqueued => exact .inr (.queued index hqueued)
    | waker hwaker =>
      rcases Multiset.mem_cons.mp hwaker with rfl | hmem
      · exact .inl ⟨rfl, rfl⟩
      · exact .inr (.waker hmem)
    | worker another hmem =>
      by_cases heq : another = self
      · subst heq
        simp [WorkerPc.roles] at hmem
      · simp only [Function.update_of_ne heq] at hmem
        exact .inr (.worker heq hmem)
  · obtain ⟨rfl, rfl⟩ := Prod.mk.inj (Option.some.inj hadvance)
    refine ⟨fun other status hrole ↦ ?_, fun _ ↦ rfl⟩
    rcases hrole.outside_or self with houtside | hmem
    · exact .inr (houtside.of_update (fun _ _ h ↦ h) fun _ h ↦ h)
    · simp only [Function.update_self] at hmem
      exact .inl (Prod.mk.inj (List.mem_singleton.mp hmem))

/-- A fork makes a new task, and both tasks are to be resumed. -/
theorem role_of_create (hworker : s.workers self = .create task)
    (hadvance : (s.workers self).advance self choice s.memory = some (pc, memory)) :
    s.memory.tasks choice.fresh = none ∧
    (∀ other status, State.Role { memory := memory, workers := Function.update s.workers self pc }
        other status → (other = task ∨ other = choice.fresh) ∧ status = .active ∨
          s.Outside self other status) ∧
      memory.tasks = Function.update s.memory.tasks choice.fresh (some .new) := by
  rw [hworker] at hadvance
  simp only [WorkerPc.advance] at hadvance
  split_ifs at hadvance with hfresh
  obtain ⟨rfl, rfl⟩ := Prod.mk.inj (Option.some.inj hadvance)
  refine ⟨Option.isNone_iff_eq_none.mp hfresh, fun other status hrole ↦ ?_, rfl⟩
  rcases hrole.outside_or self with houtside | hmem
  · exact .inr (houtside.of_update (fun _ _ h ↦ h) fun _ h ↦ h)
  · simp only [Function.update_self] at hmem
    rcases List.mem_cons.mp hmem with heq | hnew
    · obtain ⟨rfl, rfl⟩ := Prod.mk.inj heq
      exact .inl ⟨.inl rfl, rfl⟩
    · obtain ⟨rfl, rfl⟩ := Prod.mk.inj (List.mem_singleton.mp hnew)
      exact .inl ⟨.inr rfl, rfl⟩

/-- A task that is freed has no role any more. -/
theorem role_of_finalize (hworker : s.workers self = .finalize task)
    (hadvance : (s.workers self).advance self choice s.memory = some (pc, memory)) :
    (∀ other status, State.Role { memory := memory, workers := Function.update s.workers self pc }
        other status → s.Outside self other status) ∧
      memory.tasks = Function.update s.memory.tasks task none := by
  rw [hworker] at hadvance
  obtain ⟨rfl, rfl⟩ := Prod.mk.inj (Option.some.inj hadvance)
  refine ⟨fun other status hrole ↦ ?_, rfl⟩
  rcases hrole.outside_or self with houtside | hmem
  · exact houtside.of_update (fun _ _ h ↦ h) fun _ h ↦ h
  · simp [WorkerPc.roles] at hmem

end Roles

/-! ### Coherence -/

/-- The programs are where the scheduler says: an allocated task has a program, at a point with the
status of its role. -/
structure Coherent (programs : TaskPrograms Task Cond Arg Code Shared)
    (s : ProgramState n Task Cond Arg Code Shared) : Prop where
  domain : ∀ task, (s.codes task).isSome = (s.scheduler.memory.tasks task).isSome
  roles : ∀ task status, s.scheduler.Role task status →
    ∃ code, s.codes task = some code ∧ programs.status code = status

namespace Coherent

variable {programs : TaskPrograms Task Cond Arg Code Shared}
  {s after : ProgramState n Task Cond Arg Code Shared} {live : Finset Task}

omit [DecidableEq Task] in
/-- The tasks with a program are the allocated ones. -/
theorem mem_live_iff (h : Coherent programs s) (hlive : Conserves s.scheduler live) (task : Task) :
    task ∈ live ↔ (s.codes task).isSome := by rw [hlive.allocated, h.domain]

omit [DecidableEq Task] in
/-- No task is left when a worker has left its loop. -/
theorem codes_eq_none (h : Coherent programs s) (hlive : Conserves s.scheduler live) {self : Fin n}
    (hexited : s.scheduler.workers self = .exited) (task : Task) : s.codes task = none := by
  have hplaces := (hlive.places_eq_zero (hlive.exited self hexited)).1
  have hnot : task ∉ live := by
    rw [← Finset.mem_val, ← hlive.places, hplaces]
    exact Multiset.notMem_zero task
  rw [h.mem_live_iff hlive] at hnot
  exact Option.not_isSome_iff_eq_none.mp hnot

/-- Assumes: a task whose role is another than before gets another point in its program. -/
theorem update (h : Coherent programs s) {next : ProgramState n Task Cond Arg Code Shared}
    {task : Task} {code : Code} {status : Status} (hstatus : programs.status code = status)
    (hcodes : next.codes = Function.update s.codes task (some code))
    (hcode : (s.codes task).isSome)
    (hroles : ∀ other given, next.scheduler.Role other given → other = task ∧ given = status ∨
      other ≠ task ∧ s.scheduler.Role other given)
    (htasks : ∀ other, (next.scheduler.memory.tasks other).isSome =
      (s.scheduler.memory.tasks other).isSome) : Coherent programs next where
  domain other := by
    rw [htasks, ← h.domain, hcodes]
    by_cases heq : other = task
    · subst heq
      rw [Function.update_self, hcode]
      rfl
    · rw [Function.update_of_ne heq]
  roles other given hrole := by
    rw [hcodes]
    rcases hroles other given hrole with ⟨rfl, rfl⟩ | ⟨hne, hbefore⟩
    · exact ⟨code, Function.update_self .., hstatus⟩
    · rw [Function.update_of_ne hne]
      exact h.roles other given hbefore

omit [DecidableEq Task] in
/-- A role outside the worker of a task is that of another task. -/
theorem ne_of_outside (hlive : Conserves s.scheduler live) {self : Fin n} {task other : Task}
    {status given : Status} (hroles : (task, status) ∈ (s.scheduler.workers self).roles)
    (houtside : s.scheduler.Outside self other given) :
    other ≠ task ∧ s.scheduler.Role other given := by
  refine ⟨?_, houtside.role⟩
  rintro rfl
  exact hlive.not_outside (WorkerPc.mem_hands_of_roles hroles) houtside

omit [DecidableEq Task] in
/-- The role of the task of a worker is the one that the worker gives it. -/
theorem role_own (hlive : Conserves s.scheduler live) {self : Fin n} {task other : Task}
    {status given : Status} (hroles : (s.scheduler.workers self).roles = [(task, status)])
    (hrole : s.scheduler.Role other given) :
    other = task ∧ given = status ∨ other ≠ task ∧ s.scheduler.Role other given := by
  rcases hrole.outside_or self with houtside | hmem
  · exact .inr (ne_of_outside hlive (hroles ▸ List.mem_singleton_self _) houtside)
  · rw [hroles] at hmem
    exact .inl (Prod.mk.inj (List.mem_singleton.mp hmem))

variable {self : Fin n} {choice : Choice Task Cond Arg} {pc : WorkerPc Task Cond Arg}
  {memory : Memory n Task Cond Arg} {task : Task}

/-- No program moves where the scheduler only moves tasks. -/
theorem moved (h : Coherent programs s)
    (hadvance : (s.scheduler.workers self).advance self choice s.scheduler.memory =
      some (pc, memory))
    (hrunning : ∀ task, s.scheduler.workers self ≠ .running task)
    (hmustSleep : ∀ task, s.scheduler.workers self ≠ .mustSleep task)
    (hcreate : ∀ task, s.scheduler.workers self ≠ .create task)
    (hfinalize : ∀ task, s.scheduler.workers self ≠ .finalize task) :
    Coherent programs
      { s with
        scheduler :=
          { memory := memory, workers := Function.update s.scheduler.workers self pc } } :=
  ⟨fun task ↦ (h.domain task).trans
      (isSome_tasks_of_advance hrunning hmustSleep hcreate hfinalize hadvance task).symm,
    fun task given hrole ↦
      h.roles task given (role_of_advance hrunning hmustSleep hcreate hfinalize hadvance hrole)⟩

/-- A fork gives the new task a program, and the one that forked it goes on. -/
theorem create (h : Coherent programs s) (hlive : Conserves s.scheduler live)
    {code start code' : Code} (hworker : s.scheduler.workers self = .create task)
    (hadvance : (s.scheduler.workers self).advance self choice s.scheduler.memory =
      some (pc, memory)) (hcode : s.codes task = some code)
    (hforked : programs.forked code = some (start, code')) :
    Coherent programs
      { s with
        scheduler := { memory := memory, workers := Function.update s.scheduler.workers self pc }
        codes :=
          Function.update (Function.update s.codes task (some code')) choice.fresh
            (some start) } := by
  obtain ⟨hfresh, hroles, htasks⟩ := role_of_create hworker hadvance
  obtain ⟨-, hstart, hafter⟩ := programs.forked_status hforked
  have hisNone : s.codes choice.fresh = none := by
    have hdomain := h.domain choice.fresh
    rw [hfresh] at hdomain
    exact Option.not_isSome_iff_eq_none.mp (by simp [hdomain])
  have hfreshNe : task ≠ choice.fresh := by
    rintro rfl
    exact absurd (hcode.symm.trans hisNone) (by simp)
  refine ⟨fun other ↦ ?_, fun other given hrole ↦ ?_⟩
  · simp only [htasks]
    by_cases heq : other = choice.fresh
    · rw [heq, Function.update_self, Function.update_self]
      rfl
    · rw [Function.update_of_ne heq, Function.update_of_ne heq, ← h.domain]
      by_cases htask : other = task
      · rw [htask, Function.update_self, hcode]
        rfl
      · rw [Function.update_of_ne htask]
  · rcases hroles other given hrole with ⟨rfl | rfl, rfl⟩ | houtside
    · exact ⟨code', by simp [Function.update_of_ne hfreshNe], hafter⟩
    · exact ⟨start, by simp, hstart⟩
    · obtain ⟨hother, hbefore⟩ :=
        ne_of_outside hlive (by rw [hworker]; exact List.mem_singleton_self _) houtside
      obtain ⟨current, hcurrent, hstatus⟩ := h.roles other given hbefore
      have hold : other ≠ choice.fresh := by
        rintro rfl
        exact absurd (hcurrent.symm.trans hisNone) (by simp)
      exact ⟨current, by simpa [Function.update_of_ne hold, Function.update_of_ne hother], hstatus⟩

/-- The program of a task that is freed is gone. -/
theorem finalize (h : Coherent programs s) (hlive : Conserves s.scheduler live)
    (hworker : s.scheduler.workers self = .finalize task)
    (hadvance : (s.scheduler.workers self).advance self choice s.scheduler.memory =
      some (pc, memory)) :
    Coherent programs
      { s with
        scheduler := { memory := memory, workers := Function.update s.scheduler.workers self pc }
        codes := Function.update s.codes task none } := by
  obtain ⟨hroles, htasks⟩ := role_of_finalize hworker hadvance
  refine ⟨fun other ↦ ?_, fun other given hrole ↦ ?_⟩
  · simp only [htasks]
    by_cases heq : other = task
    · rw [heq, Function.update_self, Function.update_self]
      rfl
    · rw [Function.update_of_ne heq, Function.update_of_ne heq, h.domain]
  · obtain ⟨hother, hbefore⟩ :=
      ne_of_outside hlive (by rw [hworker]; exact List.mem_singleton_self _)
        (hroles other given hrole)
    simp only [Function.update_of_ne hother]
    exact h.roles other given hbefore

/-- Assumes: the tasks are conserved. A step keeps the programs where the scheduler says. -/
theorem step (h : Coherent programs s) (hlive : Conserves s.scheduler live)
    {label : ProgramLabel n Task Cond Arg} (hstep : ProgramStep programs s label after) :
    Coherent programs after := by
  cases hstep with
  | @advance self task code code' shared hworker hcode hadvance =>
    exact h.update (programs.advance_status hadvance).2 rfl (by rw [hcode]; rfl)
      (fun other given hrole ↦ role_own hlive (by rw [hworker]; rfl) hrole) fun _ ↦ rfl
  | @mustSleep self task code code' shared hworker hcode hmustSleep =>
    exact h.update (programs.mustSleep_status hmustSleep).2 rfl (by rw [hcode]; rfl)
      (fun other given hrole ↦ role_own hlive (by rw [hworker]; rfl) hrole) fun _ ↦ rfl
  | @scheduler self choice pc memory codes shared hadvance hfollows =>
    generalize hworker : s.scheduler.workers self = current at hfollows
    cases hfollows with
    | @request task code code' hcode hrequest =>
      obtain ⟨hroles, htasks⟩ := role_of_request hworker hadvance
      exact h.update (programs.request_status hrequest).2 rfl (by rw [hcode]; rfl)
        (fun other given hrole ↦ (hroles other given hrole).imp_right
          (ne_of_outside hlive (by rw [hworker]; exact List.mem_singleton_self _))) htasks
    | @answer task code code' shared hcode hanswer =>
      obtain ⟨hroles, htasks⟩ := role_of_answer hworker hadvance
      exact h.update (programs.answer_status hanswer).2 rfl (by rw [hcode]; rfl)
        (fun other given hrole ↦ (hroles other given hrole).imp_right
          (ne_of_outside hlive (by rw [hworker]; exact List.mem_singleton_self _))) htasks
    | @create task code start code' hcode hforked =>
      exact h.create hlive hworker hadvance hcode hforked
    | @finalize task => exact h.finalize hlive hworker hadvance
    | @checkPoll task hanswer =>
      have hpc : ∀ {pc : WorkerPc Task Cond Arg}, .checkPoll task ≠ pc →
          s.scheduler.workers self ≠ pc := fun hpc ↦ hworker ▸ hpc
      exact h.moved hadvance (fun _ ↦ hpc (by simp)) (fun _ ↦ hpc (by simp))
        (fun _ ↦ hpc (by simp)) fun _ ↦ hpc (by simp)
    | other hrunning hmustSleep hcreate hfinalize hcheckPoll =>
      rw [← hworker] at hrunning hmustSleep hcreate hfinalize
      exact h.moved hadvance hrunning hmustSleep hcreate hfinalize

omit [DecidableEq Task] in
/-- The tasks that are scheduled are to be resumed. -/
theorem initial (hdomain : ∀ task, (s.codes task).isSome = (s.scheduler.memory.tasks task).isSome)
    (hstatus : ∀ task code, s.codes task = some code → programs.status code = .active)
    (hworkers : ∀ self, s.scheduler.workers self = .pop) (hlive : Conserves s.scheduler live) :
    Coherent programs s := by
  refine ⟨hdomain, fun task status hrole ↦ ?_⟩
  have hsome := hlive.isSome_of_mem hrole.mem_places
  rw [← hdomain] at hsome
  obtain ⟨code, hcode⟩ := Option.isSome_iff_exists.mp hsome
  refine ⟨code, hcode, ?_⟩
  cases hrole with
  | queued => exact hstatus task code hcode
  | waker => exact hstatus task code hcode
  | worker self hroles =>
    rw [hworkers] at hroles
    simp [WorkerPc.roles] at hroles

end Coherent

/-- Assumes: a property of the scheduled tasks which every step preserves, where the tasks are
conserved and the programs are where the scheduler says. It holds in every run. -/
theorem programRun_invariant [NeZero n] {programs : TaskPrograms Task Cond Arg Code Shared}
    {scheduled property : ProgramState n Task Cond Arg Code Shared → Prop}
    {labels : List (ProgramLabel n Task Cond Arg)}
    {s : ProgramState n Task Cond Arg Code Shared}
    (hrun : (programRun programs scheduled).Run (fun _ _ ↦ True) labels s)
    (hinitial : ∀ s, (programRun programs scheduled).initial s → property s)
    (hstep : ∀ s live label next, property s → Conserves s.scheduler live →
      Coherent programs s → ProgramStep programs s label next → property next) :
    property s ∧ ∃ live, Conserves s.scheduler live ∧ Coherent programs s := by
  induction hrun with
  | @start s h =>
    obtain ⟨live, hlive⟩ := Conserves.of_run (scheff_of_programRun (.start h))
    exact ⟨hinitial s h, live, hlive, .initial h.2.2.2.1 h.2.2.2.2 h.2.2.1 hlive⟩
  | @step labels s next label hrun _ h ih =>
    obtain ⟨hproperty, live, hlive, hcoherent⟩ := ih
    obtain ⟨live', hlive'⟩ := Conserves.of_run (scheff_of_programRun (hrun.step trivial h))
    exact ⟨hstep s live label next hproperty hlive hcoherent h, live', hlive',
      hcoherent.step hlive h⟩

/-- In every run the tasks are conserved, and the programs are where the scheduler says. -/
theorem coherent_of_run [NeZero n] {programs : TaskPrograms Task Cond Arg Code Shared}
    {scheduled : ProgramState n Task Cond Arg Code Shared → Prop}
    {labels : List (ProgramLabel n Task Cond Arg)}
    {s : ProgramState n Task Cond Arg Code Shared}
    (hrun : (programRun programs scheduled).Run (fun _ _ ↦ True) labels s) :
    ∃ live, Conserves s.scheduler live ∧ Coherent programs s := by
  have hinvariant : True ∧ ∃ live, Conserves s.scheduler live ∧ Coherent programs s :=
    programRun_invariant hrun (fun _ _ ↦ trivial) fun _ _ _ _ _ _ _ _ ↦ trivial
  exact hinvariant.2

/-- Assumes: a task that starts, performs a request or comes out of `must_sleep` holds nothing. So
only a task that a worker runs holds something. -/
theorem running_of_holds [NeZero n] {programs : TaskPrograms Task Cond Arg Code Shared}
    {scheduled : ProgramState n Task Cond Arg Code Shared → Prop} (holds : Code → Prop)
    (hscheduled : ∀ s task code, scheduled s → s.codes task = some code → ¬ holds code)
    (hrequest : ∀ {code after : Code} {request : Request Task Cond Arg},
      programs.request code = some (request, after) → ¬ holds after)
    (hanswer : ∀ {code after : Code} {shared shared' : Shared} {result : Bool},
      programs.answer code shared = some (result, after, shared') → ¬ holds after)
    (hforked : ∀ {code start after : Code}, programs.forked code = some (start, after) →
      ¬ holds start ∧ ¬ holds after)
    {labels : List (ProgramLabel n Task Cond Arg)}
    {s : ProgramState n Task Cond Arg Code Shared}
    (hrun : (programRun programs scheduled).Run (fun _ _ ↦ True) labels s) {task : Task}
    {code : Code} (hcode : s.codes task = some code) (hholds : holds code) :
    ∃ self, s.scheduler.workers self = .running task ∨
      s.scheduler.workers self = .mustSleep task := by
  induction hrun generalizing task code with
  | start h => exact absurd hholds (hscheduled _ task code h.1 hcode)
  | @step labels s next label hrun _ hstep ih =>
    have hother : ∀ {self : Fin n} {pc : WorkerPc Task Cond Arg}, s.codes task = some code →
        s.scheduler.workers self ≠ .running task → s.scheduler.workers self ≠ .mustSleep task →
        ∃ other, (Function.update s.scheduler.workers self pc) other = .running task ∨
          (Function.update s.scheduler.workers self pc) other = .mustSleep task := by
      intro self pc hbefore hrunning hmustSleep
      obtain ⟨other, hworker⟩ := ih hbefore hholds
      have hne : other ≠ self := by
        rintro rfl
        exact hworker.elim hrunning hmustSleep
      refine ⟨other, ?_⟩
      rwa [Function.update_of_ne hne]
    cases hstep with
    | @advance self current before after shared hworker hbefore hadvance =>
      by_cases heq : task = current
      · exact ⟨self, .inl (heq ▸ hworker)⟩
      · simp only [Function.update_of_ne heq] at hcode
        exact ih hcode hholds
    | @mustSleep self current before after shared hworker hbefore hmustSleep =>
      by_cases heq : task = current
      · exact ⟨self, .inr (heq ▸ hworker)⟩
      · simp only [Function.update_of_ne heq] at hcode
        exact ih hcode hholds
    | @scheduler self choice pc memory codes shared hadvance hfollows =>
      generalize hworker : s.scheduler.workers self = current at hfollows
      cases hfollows with
      | @request current before after hbefore hperform =>
        by_cases heq : task = current
        · subst heq
          simp only [Function.update_self] at hcode
          exact absurd (Option.some.inj hcode ▸ hholds) (hrequest hperform)
        · simp only [Function.update_of_ne heq] at hcode
          exact hother hcode (by simp [hworker, Ne.symm heq]) (by simp [hworker])
      | @answer current before after shared hbefore hreturn =>
        by_cases heq : task = current
        · subst heq
          simp only [Function.update_self] at hcode
          exact absurd (Option.some.inj hcode ▸ hholds) (hanswer hreturn)
        · simp only [Function.update_of_ne heq] at hcode
          exact hother hcode (by simp [hworker]) (by simp [hworker, Ne.symm heq])
      | @create current before start after hbefore hfork =>
        obtain ⟨hstart, hafter⟩ := hforked hfork
        by_cases hfresh : task = choice.fresh
        · subst hfresh
          simp only [Function.update_self] at hcode
          exact absurd (Option.some.inj hcode ▸ hholds) hstart
        · simp only [Function.update_of_ne hfresh] at hcode
          by_cases heq : task = current
          · subst heq
            rw [Function.update_self] at hcode
            exact absurd (Option.some.inj hcode ▸ hholds) hafter
          · rw [Function.update_of_ne heq] at hcode
            exact hother hcode (by simp [hworker]) (by simp [hworker])
      | @finalize current =>
        by_cases heq : task = current
        · subst heq
          simp only [Function.update_self] at hcode
          exact absurd hcode (by simp)
        · simp only [Function.update_of_ne heq] at hcode
          exact hother hcode (by simp [hworker]) (by simp [hworker])
      | checkPoll => exact hother hcode (by simp [hworker]) (by simp [hworker])
      | other hrunning hmustSleep =>
        exact hother hcode (hworker ▸ hrunning task) (hworker ▸ hmustSleep task)

/-! ### The moves of the tasks -/

/-- The tasks as they see each other: where each is in its program, the memory that they share, and
the wakers that have been handed out. -/
structure TaskState (Task Code Shared : Type*) where
  codes : Task → Option Code
  shared : Shared
  wakers : Multiset Task

/-- The tasks of a scheduler. -/
def ProgramState.tasks (s : ProgramState n Task Cond Arg Code Shared) :
    TaskState Task Code Shared where
  codes := s.codes
  shared := s.shared
  wakers := s.scheduler.memory.wakers

/-- The wakers that a request uses. -/
def Request.woken : Request Task Cond Arg → List Task
  | .wake wakers _ => wakers
  | _ => []

/-- What a step of the scheduler is for the tasks. Only a task whose waker has not been handed out
takes part in one. -/
inductive TaskPrograms.Move (programs : TaskPrograms Task Cond Arg Code Shared) :
    TaskState Task Code Shared → TaskState Task Code Shared → Prop
  | idle {s : TaskState Task Code Shared} : Move programs s s
  | advance {s : TaskState Task Code Shared} {task : Task} {code after : Code} {shared : Shared}
      (hawake : task ∉ s.wakers) (hcode : s.codes task = some code)
      (hadvance : programs.advance code s.shared = some (after, shared)) :
      Move programs s
        { s with codes := Function.update s.codes task (some after), shared := shared }
  | mustSleep {s : TaskState Task Code Shared} {task : Task} {code after : Code} {shared : Shared}
      (hawake : task ∉ s.wakers) (hcode : s.codes task = some code)
      (hmustSleep : programs.mustSleep task code s.shared = some (after, shared)) :
      Move programs s
        { s with codes := Function.update s.codes task (some after), shared := shared }
  | request {s : TaskState Task Code Shared} {task : Task} {code after : Code}
      {request : Request Task Cond Arg} (hawake : task ∉ s.wakers)
      (hcode : s.codes task = some code) (hrequest : programs.request code = some (request, after))
      (hwoken : (request.woken : Multiset Task) ≤ s.wakers) :
      Move programs s
        { s with
          codes := Function.update s.codes task (some after)
          wakers := s.wakers - request.woken }
  | answer {s : TaskState Task Code Shared} {task : Task} {code after : Code} {shared : Shared}
      {asleep : Bool} (hawake : task ∉ s.wakers) (hcode : s.codes task = some code)
      (hanswer : programs.answer code s.shared = some (asleep, after, shared)) :
      Move programs s
        { codes := Function.update s.codes task (some after)
          shared := shared
          wakers := if asleep then task ::ₘ s.wakers else s.wakers }
  | create {s : TaskState Task Code Shared} {task fresh : Task} {code start after : Code}
      (hawake : task ∉ s.wakers) (hcode : s.codes task = some code)
      (hfresh : s.codes fresh = none) (hforked : programs.forked code = some (start, after)) :
      Move programs s
        { s with
          codes := Function.update (Function.update s.codes task (some after)) fresh (some start) }
  | finalize {s : TaskState Task Code Shared} {task : Task} {code : Code} (hawake : task ∉ s.wakers)
      (hcode : s.codes task = some code) (hstatus : programs.status code = .finished) :
      Move programs s { s with codes := Function.update s.codes task none }

/-- The wakers after a request. -/
theorem wakers_of_handle {task : Task} {value : TaskT Cond Arg} {m memory : Memory n Task Cond Arg}
    {request : Request Task Cond Arg} {pc : WorkerPc Task Cond Arg}
    (hhandle : request.handle task value m = some (pc, memory)) :
    (request.woken : Multiset Task) ≤ m.wakers ∧ memory.wakers = m.wakers - request.woken := by
  cases request with
  | wake wakers again =>
    simp only [Request.handle] at hhandle
    split_ifs at hhandle with hle
    obtain ⟨rfl, rfl⟩ := Prod.mk.inj (Option.some.inj hhandle)
    exact ⟨hle, rfl⟩
  | _ =>
    obtain ⟨rfl, rfl⟩ := Prod.mk.inj (Option.some.inj hhandle)
    exact ⟨Multiset.zero_le _, (Multiset.sub_zero _).symm⟩

/-- A step that neither performs a request nor decides leaves the wakers. -/
theorem wakers_of_advance {s : State n Task Cond Arg} {self : Fin n} {pc : WorkerPc Task Cond Arg}
    {memory : Memory n Task Cond Arg} {choice : Choice Task Cond Arg}
    (hrunning : ∀ task, s.workers self ≠ .running task)
    (hmustSleep : ∀ task, s.workers self ≠ .mustSleep task)
    (hcreate : ∀ task, s.workers self ≠ .create task)
    (hfinalize : ∀ task, s.workers self ≠ .finalize task)
    (hadvance : (s.workers self).advance self choice s.memory = some (pc, memory)) :
    memory.wakers = s.memory.wakers := by
  cases hcalls : (s.workers self).calls self with
  | some call =>
    obtain ⟨index, operation⟩ := call
    rw [advance_of_calls hcalls choice s.memory] at hadvance
    obtain ⟨rfl, rfl⟩ := Prod.mk.inj (Option.some.inj hadvance)
    rfl
  | none => exact (roles_of_calls_none hcalls hrunning hmustSleep hcreate hfinalize hadvance).2.1

/-- Assumes: the tasks are conserved, and the programs are where the scheduler says. A step of the
scheduler is a move of the tasks. -/
theorem ProgramStep.move {programs : TaskPrograms Task Cond Arg Code Shared}
    {s next : ProgramState n Task Cond Arg Code Shared} {live : Finset Task}
    {label : ProgramLabel n Task Cond Arg} (hstep : ProgramStep programs s label next)
    (hlive : Conserves s.scheduler live) (hcoherent : Coherent programs s) :
    programs.Move s.tasks next.tasks := by
  have hawake : ∀ {self : Fin n} {task : Task} {status : Status},
      (s.scheduler.workers self).roles = [(task, status)] → task ∉ s.scheduler.memory.wakers := by
    intro self task status hroles hwaker
    exact hlive.not_outside (WorkerPc.mem_hands_of_roles (hroles ▸ List.mem_singleton_self _))
      (.waker hwaker)
  cases hstep with
  | advance hworker hcode hadvance =>
    exact .advance (hawake (by rw [hworker]; rfl)) hcode hadvance
  | mustSleep hworker hcode hmustSleep =>
    exact .mustSleep (hawake (by rw [hworker]; rfl)) hcode hmustSleep
  | @scheduler self choice pc memory codes shared hadvance hfollows =>
    have hidle : memory.wakers = s.scheduler.memory.wakers → programs.Move s.tasks
        ⟨s.codes, s.shared, memory.wakers⟩ := by
      intro hwakers
      rw [hwakers]
      exact .idle
    generalize hworker : s.scheduler.workers self = current at hfollows
    cases hfollows with
    | request hcode hrequest =>
      rw [hworker] at hadvance
      obtain ⟨value, -, hhandle⟩ := Option.bind_eq_some_iff.mp hadvance
      obtain ⟨hwoken, hwakers⟩ := wakers_of_handle hhandle
      unfold ProgramState.tasks
      rw [hwakers]
      exact .request (hawake (by rw [hworker]; rfl)) hcode hrequest hwoken
    | answer hcode hanswer =>
      have hmove := TaskPrograms.Move.answer (s := s.tasks) (hawake (by rw [hworker]; rfl)) hcode
        hanswer
      rw [hworker] at hadvance
      simp only [WorkerPc.advance] at hadvance
      split_ifs at hadvance with hasleep <;>
        obtain ⟨rfl, rfl⟩ := Prod.mk.inj (Option.some.inj hadvance)
      · rwa [if_pos hasleep] at hmove
      · rwa [if_neg hasleep] at hmove
    | create hcode hforked =>
      obtain ⟨hfresh, -, -⟩ := role_of_create hworker hadvance
      have hdomain := hcoherent.domain choice.fresh
      rw [hfresh] at hdomain
      have hnone : s.codes choice.fresh = none :=
        Option.not_isSome_iff_eq_none.mp (by simp [hdomain])
      have hmove := TaskPrograms.Move.create (s := s.tasks) (hawake (by rw [hworker]; rfl)) hcode
        hnone hforked
      rw [hworker] at hadvance
      simp only [WorkerPc.advance] at hadvance
      split_ifs at hadvance
      obtain ⟨rfl, rfl⟩ := Prod.mk.inj (Option.some.inj hadvance)
      exact hmove
    | @finalize task =>
      obtain ⟨code, hcode, hstatus⟩ := hcoherent.roles task .finished
        (.worker self (by rw [hworker]; exact List.mem_singleton_self _))
      have hmove := TaskPrograms.Move.finalize (s := s.tasks) (hawake (by rw [hworker]; rfl)) hcode
        hstatus
      rw [hworker] at hadvance
      obtain ⟨rfl, rfl⟩ := Prod.mk.inj (Option.some.inj hadvance)
      exact hmove
    | @checkPoll task hanswer =>
      have hpc : ∀ {pc : WorkerPc Task Cond Arg}, .checkPoll task ≠ pc →
          s.scheduler.workers self ≠ pc := fun hpc ↦ hworker ▸ hpc
      exact hidle (wakers_of_advance (fun _ ↦ hpc (by simp)) (fun _ ↦ hpc (by simp))
        (fun _ ↦ hpc (by simp)) (fun _ ↦ hpc (by simp)) hadvance)
    | other hrunning hmustSleep hcreate hfinalize hcheckPoll =>
      rw [← hworker] at hrunning hmustSleep hcreate hfinalize
      exact hidle (wakers_of_advance hrunning hmustSleep hcreate hfinalize hadvance)

/-! ### Progress -/

/-- A worker takes any request whose wakers have been handed out. -/
theorem exists_handle (task : Task) (value : TaskT Cond Arg) {m : Memory n Task Cond Arg}
    {request : Request Task Cond Arg} (hwoken : (request.woken : Multiset Task) ≤ m.wakers) :
    ∃ next, request.handle task value m = some next := by
  cases request with
  | wake wakers again => exact ⟨_, if_pos hwoken⟩
  | _ => exact ⟨_, rfl⟩

/-- A worker that is apart from the programs has a step, before it has left its loop, if its tasks
are allocated. -/
theorem exists_advance (self : Fin n) (choice : Choice Task Cond Arg) {m : Memory n Task Cond Arg}
    {pc : WorkerPc Task Cond Arg} (hapart : pc.Apart) (hexited : pc ≠ .exited)
    (hnotFatal : pc ≠ .fatal)
    (hvalues : ∀ task status, (task, status) ∈ pc.roles → ∃ value, m.tasks task = some value) :
    ∃ next, pc.advance self choice m = some next := by
  have hfirst : ∀ {task : Task} {status : Status}, pc.roles = [(task, status)] →
      ∃ value, m.tasks task = some value :=
    fun hroles ↦ hvalues _ _ (hroles ▸ List.mem_singleton_self _)
  cases pc with
  | exited => exact absurd rfl hexited
  | fatal => exact absurd rfl hnotFatal
  | running task => exact hapart.elim
  | mustSleep task => exact hapart.elim
  | create task => exact hapart.elim
  | finalize task => exact hapart.elim
  | checkPoll task => exact hapart.elim
  | steal i =>
    simp only [WorkerPc.advance]
    split_ifs <;> exact ⟨_, rfl⟩
  | loadRemaining =>
    simp only [WorkerPc.advance]
    split_ifs <;> exact ⟨_, rfl⟩
  | checkState task =>
    obtain ⟨value, hvalue⟩ := hfirst rfl
    simp only [WorkerPc.advance, hvalue, Option.bind_some]
    split_ifs <;> exact ⟨_, rfl⟩
  | clearPoll task =>
    obtain ⟨value, hvalue⟩ := hfirst rfl
    exact ⟨_, by rw [WorkerPc.advance, hvalue]; rfl⟩
  | setPoll task pollCondition pollArg =>
    obtain ⟨value, hvalue⟩ := hfirst rfl
    exact ⟨_, by rw [WorkerPc.advance, hvalue]; rfl⟩
  | wake task wakers again =>
    cases wakers with
    | nil => cases again <;> exact ⟨_, rfl⟩
    | cons waker wakers => exact ⟨_, rfl⟩
  | _ => exact ⟨_, rfl⟩

section Progress

variable {programs : TaskPrograms Task Cond Arg Code Shared}
  {s : ProgramState n Task Cond Arg Code Shared} {live : Finset Task} {self : Fin n} {task : Task}

omit [DecidableEq Task] in
/-- A task in the hands of a worker has a program, and is allocated. -/
theorem Coherent.exists_code (hcoherent : Coherent programs s) {status : Status}
    (hroles : (task, status) ∈ (s.scheduler.workers self).roles) :
    (∃ code, s.codes task = some code ∧ programs.status code = status) ∧
      ∃ value, s.scheduler.memory.tasks task = some value := by
  obtain ⟨code, hcode, hstatus⟩ := hcoherent.roles task status (.worker self hroles)
  refine ⟨⟨code, hcode, hstatus⟩, Option.isSome_iff_exists.mp ?_⟩
  rw [← hcoherent.domain, hcode]
  rfl

/-- A step of the scheduler, for which the program of the task is ready. -/
theorem exists_step_of_follows {current : WorkerPc Task Cond Arg}
    (hworker : s.scheduler.workers self = current) {choice : Choice Task Cond Arg}
    {codes : Task → Option Code} {shared : Shared}
    (hfollows : programs.Follows s choice current codes shared)
    (hadvance : ∃ next, current.advance self choice s.scheduler.memory = some next) :
    ∃ event next, ProgramStep programs s ⟨self, event⟩ next := by
  subst hworker
  obtain ⟨⟨pc, memory⟩, hadvance⟩ := hadvance
  exact ⟨_, _, .scheduler hadvance hfollows⟩

/-- The task that a worker runs advances, or performs a request. -/
theorem exists_step_of_running (hworker : s.scheduler.workers self = .running task) {code : Code}
    (hcode : s.codes task = some code) {value : TaskT Cond Arg}
    (hvalue : s.scheduler.memory.tasks task = some value) (fresh : Task)
    (hready : (∃ next, programs.advance code s.shared = some next) ∨
      ∃ request after, programs.request code = some (request, after) ∧
        (request.woken : Multiset Task) ≤ s.scheduler.memory.wakers) :
    ∃ event next, ProgramStep programs s ⟨self, event⟩ next := by
  rcases hready with ⟨next, hnext⟩ | ⟨request, after, hrequest, hwoken⟩
  · exact ⟨_, _, .advance hworker hcode hnext⟩
  · have hadvance : ∃ next, (WorkerPc.running task).advance self ⟨request, true, fresh⟩
        s.scheduler.memory = some next := by
      simp only [WorkerPc.advance, hvalue, Option.bind_some]
      exact exists_handle task value hwoken
    exact exists_step_of_follows hworker (.request hcode hrequest) hadvance

/-- A worker goes on with `must_sleep`, or `must_sleep` returns. -/
theorem exists_step_of_mustSleep (hworker : s.scheduler.workers self = .mustSleep task)
    {code : Code} (hcode : s.codes task = some code) (fresh : Task)
    (hready : (∃ next, programs.mustSleep task code s.shared = some next) ∨
      ∃ next, programs.answer code s.shared = some next) :
    ∃ event next, ProgramStep programs s ⟨self, event⟩ next := by
  rcases hready with ⟨next, hnext⟩ | ⟨⟨asleep, after, shared⟩, hanswer⟩
  · exact ⟨_, _, .mustSleep hworker hcode hnext⟩
  · have hadvance : ∃ next, (WorkerPc.mustSleep task).advance self ⟨.ret, asleep, fresh⟩
        s.scheduler.memory = some next := by
      cases asleep <;> exact ⟨_, rfl⟩
    exact exists_step_of_follows hworker (.answer hcode hanswer) hadvance

/-- A worker creates the task that is forked. -/
theorem exists_step_of_create (hworker : s.scheduler.workers self = .create task) {code : Code}
    (hcode : s.codes task = some code) (hforked : ∃ next, programs.forked code = some next)
    {fresh : Task} (hfresh : s.scheduler.memory.tasks fresh = none) :
    ∃ event next, ProgramStep programs s ⟨self, event⟩ next := by
  obtain ⟨⟨start, after⟩, hforked⟩ := hforked
  have hadvance : ∃ next, (WorkerPc.create task).advance self ⟨.ret, true, fresh⟩
      s.scheduler.memory = some next := ⟨_, if_pos (by rw [hfresh]; rfl)⟩
  exact exists_step_of_follows hworker (.create hcode hforked) hadvance

/-- A worker evaluates the condition that a task polls. -/
theorem exists_step_of_checkPoll (hworker : s.scheduler.workers self = .checkPoll task)
    {value : TaskT Cond Arg} (hvalue : s.scheduler.memory.tasks task = some value) (fresh : Task) :
    ∃ event next, ProgramStep programs s ⟨self, event⟩ next := by
  have hadvance : ∃ next, (WorkerPc.checkPoll task).advance self
      ⟨.ret, programs.answerOf s.shared value, fresh⟩ s.scheduler.memory = some next := by
    simp only [WorkerPc.advance, hvalue, Option.bind_some]
    split_ifs <;> exact ⟨_, rfl⟩
  exact exists_step_of_follows hworker (.of_value hvalue) hadvance

/-- Assumes: the tasks are conserved, the programs are where the scheduler says, and none of them is
stuck; what it wakes has been handed out; and there is memory for another task. No worker is ever
stuck before it has left its loop. -/
theorem exists_step (hlive : Conserves s.scheduler live) (hcoherent : Coherent programs s)
    (hfresh : ∃ fresh, s.scheduler.memory.tasks fresh = none)
    (hactive : ∀ task code, s.codes task = some code → task ∉ s.scheduler.memory.wakers →
      programs.status code = .active → (∃ next, programs.advance code s.shared = some next) ∨
        ∃ request after, programs.request code = some (request, after) ∧
          (request.woken : Multiset Task) ≤ s.scheduler.memory.wakers)
    (hcreating : ∀ code, programs.status code = .creating →
      ∃ next, programs.forked code = some next)
    (hdeciding : ∀ task code, programs.status code = .deciding →
      (∃ next, programs.mustSleep task code s.shared = some next) ∨
        ∃ next, programs.answer code s.shared = some next)
    (hexited : s.scheduler.workers self ≠ .exited) :
    ∃ event next, ProgramStep programs s ⟨self, event⟩ next := by
  obtain ⟨fresh, hfresh⟩ := hfresh
  have hrole : ∀ {task : Task} {status : Status},
      (s.scheduler.workers self).roles = [(task, status)] →
      (∃ code, s.codes task = some code ∧ programs.status code = status) ∧
        ∃ value, s.scheduler.memory.tasks task = some value :=
    fun hroles ↦ hcoherent.exists_code (hroles ▸ List.mem_singleton_self _)
  by_cases hapart : (s.scheduler.workers self).Apart
  · exact exists_step_of_follows rfl (.of_apart hapart) (exists_advance self ⟨.ret, true, fresh⟩
      hapart hexited (hlive.notFatal self) fun _ _ hroles ↦ (hcoherent.exists_code hroles).2)
  · cases hworker : s.scheduler.workers self with
    | running task =>
      obtain ⟨⟨code, hcode, hstatus⟩, value, hvalue⟩ := hrole (by rw [hworker]; rfl)
      have hawake : task ∉ s.scheduler.memory.wakers := fun hwaker ↦
        hlive.not_outside (WorkerPc.mem_hands_of_roles
          (by rw [hworker]; exact List.mem_singleton_self (task, Status.active))) (.waker hwaker)
      exact exists_step_of_running hworker hcode hvalue fresh
        (hactive task code hcode hawake hstatus)
    | mustSleep task =>
      obtain ⟨⟨code, hcode, hstatus⟩, -⟩ := hrole (by rw [hworker]; rfl)
      exact exists_step_of_mustSleep hworker hcode fresh (hdeciding task code hstatus)
    | create task =>
      obtain ⟨⟨code, hcode, hstatus⟩, -⟩ := hrole (by rw [hworker]; rfl)
      exact exists_step_of_create hworker hcode (hcreating code hstatus) hfresh
    | finalize task =>
      have hadvance : ∃ next, (WorkerPc.finalize task).advance self ⟨.ret, true, fresh⟩
          s.scheduler.memory = some next := ⟨_, rfl⟩
      exact exists_step_of_follows hworker .finalize hadvance
    | checkPoll task =>
      obtain ⟨-, value, hvalue⟩ := hrole (by rw [hworker]; rfl)
      exact exists_step_of_checkPoll hworker hvalue fresh
    | _ => exact absurd (by rw [hworker]; exact trivial) hapart

end Progress

end Libseff.Scheduler
