import Libseff.Foundation.FairRuns
import Libseff.Scheduler.TaskPrograms

/-!
# When `scheff_run` returns

The scheduler does its part: where the tasks come to an end, all workers leave their loop, in every
run in which no worker is left standing (`TaskPrograms.Ends.exited_of_fair`). That the tasks come to
an end (`TaskPrograms.Ends`) means that what they do lowers some measure, that where one of them
waits for a lock another one runs and does not, that not all of them sleep, and that none of them
polls.

When the measure has come to rest no worker is on the way to a task any more (`not_busy`). So
every queue is tried in vain, and all workers come back to their loop and stay there. A task that is
awake would be in a queue then, which its worker would try.
-/

set_option autoImplicit false
set_option relaxedAutoImplicit false

namespace Libseff.Scheduler

open Foundation Queues Queues.TlQueue

variable {n : ℕ} {Task Cond Arg : Type*}

/-! ### The points of a worker -/

/-- The next step of the worker is one of its task, or of the program of the task. -/
def WorkerPc.Works : WorkerPc Task Cond Arg → Prop
  | .running _ => True
  | .mustSleep _ => True
  | .create _ => True
  | .finalize _ => True
  | _ => False

/-- The worker goes on until it works. -/
def WorkerPc.Busy : WorkerPc Task Cond Arg → Prop
  | .checkState _ => True
  | .checkPoll _ => True
  | .clearPoll _ => True
  | .resume _ => True
  | .running _ => True
  | .mustSleep _ => True
  | .create _ => True
  | .finalize _ => True
  | .addRemaining _ => True
  | .wake _ _ again => again = false
  | _ => False

/-- The worker looks for a task, or has left its loop. -/
def WorkerPc.Home : WorkerPc Task Cond Arg → Prop
  | .pop => True
  | .steal _ => True
  | .loadRemaining => True
  | .exited => True
  | _ => False

/-- The steps to the point where the worker works, or where it is home. -/
def WorkerPc.distance : WorkerPc Task Cond Arg → ℕ
  | .checkState _ => 4
  | .checkPoll _ => 3
  | .clearPoll _ => 2
  | .resume _ => 1
  | .addRemaining _ => 1
  | .wake _ wakers _ => wakers.length + 2
  | .enqueueForked _ _ => 2
  | .setPoll _ _ _ => 2
  | .enqueuePriority _ => 1
  | .enqueue _ => 1
  | .asleep => 1
  | .subRemaining => 1
  | _ => 0

variable [DecidableEq Task]

section Points

variable {self : Fin n} {pc next : WorkerPc Task Cond Arg} {choice : Choice Task Cond Arg}
  {m memory : Memory n Task Cond Arg}

/-- Assumes: no task polls. A busy worker stays busy until it works. -/
theorem WorkerPc.Busy.advance (hbusy : pc.Busy) (hworks : ¬ pc.Works)
    (hadvance : pc.advance self choice m = some (next, memory)) (hfatal : next ≠ .fatal)
    (hpoll : ∀ task value, m.tasks task = some value → value.pollCondition = none) :
    next.Busy ∧ next.distance < pc.distance := by
  cases pc with
  | checkState task =>
    obtain ⟨value, -, hadvance⟩ := Option.bind_eq_some_iff.mp hadvance
    split_ifs at hadvance <;> obtain ⟨rfl, rfl⟩ := Prod.mk.inj (Option.some.inj hadvance)
    · exact ⟨trivial, by simp [WorkerPc.distance]⟩
    · exact absurd rfl hfatal
  | checkPoll task =>
    obtain ⟨value, hvalue, hadvance⟩ := Option.bind_eq_some_iff.mp hadvance
    rw [hpoll task value hvalue] at hadvance
    obtain ⟨rfl, rfl⟩ := Prod.mk.inj (Option.some.inj hadvance)
    exact ⟨trivial, by simp [WorkerPc.distance]⟩
  | clearPoll task =>
    obtain ⟨value, -, hadvance⟩ := Option.bind_eq_some_iff.mp hadvance
    obtain ⟨rfl, rfl⟩ := Prod.mk.inj (Option.some.inj hadvance)
    exact ⟨trivial, by simp [WorkerPc.distance]⟩
  | resume task =>
    obtain ⟨rfl, rfl⟩ := Prod.mk.inj (Option.some.inj hadvance)
    exact ⟨trivial, by simp [WorkerPc.distance]⟩
  | addRemaining task =>
    obtain ⟨rfl, rfl⟩ := Prod.mk.inj (Option.some.inj hadvance)
    exact ⟨trivial, by simp [WorkerPc.distance]⟩
  | wake task wakers again =>
    obtain rfl : again = false := hbusy
    cases wakers with
    | nil =>
      obtain ⟨rfl, rfl⟩ := Prod.mk.inj (Option.some.inj hadvance)
      exact ⟨trivial, by simp [WorkerPc.distance]⟩
    | cons waker wakers =>
      obtain ⟨rfl, rfl⟩ := Prod.mk.inj (Option.some.inj hadvance)
      exact ⟨rfl, by simp [WorkerPc.distance]⟩
  | running task => exact absurd trivial hworks
  | mustSleep task => exact absurd trivial hworks
  | create task => exact absurd trivial hworks
  | finalize task => exact absurd trivial hworks
  | _ => exact absurd hbusy id

/-- A worker that neither is nor becomes busy goes home. -/
theorem WorkerPc.advance_home (hbusy : ¬ pc.Busy) (hhome : ¬ pc.Home)
    (hadvance : pc.advance self choice m = some (next, memory)) :
    next.Home ∨ next.distance < pc.distance := by
  cases pc with
  | subRemaining =>
    obtain ⟨rfl, rfl⟩ := Prod.mk.inj (Option.some.inj hadvance)
    exact .inl trivial
  | enqueueForked task newTask =>
    obtain ⟨rfl, rfl⟩ := Prod.mk.inj (Option.some.inj hadvance)
    exact .inr (by simp [WorkerPc.distance])
  | enqueuePriority newTask =>
    obtain ⟨rfl, rfl⟩ := Prod.mk.inj (Option.some.inj hadvance)
    exact .inl trivial
  | setPoll task pollCondition pollArg =>
    obtain ⟨value, -, hadvance⟩ := Option.bind_eq_some_iff.mp hadvance
    obtain ⟨rfl, rfl⟩ := Prod.mk.inj (Option.some.inj hadvance)
    exact .inr (by simp [WorkerPc.distance])
  | asleep =>
    obtain ⟨rfl, rfl⟩ := Prod.mk.inj (Option.some.inj hadvance)
    exact .inl trivial
  | wake task wakers again =>
    have hagain : again = true := by
      cases again
      · exact absurd rfl hbusy
      · rfl
    subst hagain
    cases wakers with
    | nil =>
      obtain ⟨rfl, rfl⟩ := Prod.mk.inj (Option.some.inj hadvance)
      exact .inr (by simp [WorkerPc.distance])
    | cons waker wakers =>
      obtain ⟨rfl, rfl⟩ := Prod.mk.inj (Option.some.inj hadvance)
      exact .inr (by simp [WorkerPc.distance])
  | enqueue task =>
    obtain ⟨rfl, rfl⟩ := Prod.mk.inj (Option.some.inj hadvance)
    exact .inl trivial
  | fatal => exact absurd hadvance (by simp [WorkerPc.advance])
  | pop => exact absurd trivial hhome
  | steal i => exact absurd trivial hhome
  | loadRemaining => exact absurd trivial hhome
  | exited => exact absurd trivial hhome
  | _ => exact absurd trivial hbusy

/-- The steps of a worker that finds no task, to the test of `remaining_tasks`. -/
def WorkerPc.rounds (n : ℕ) : WorkerPc Task Cond Arg → ℕ
  | .pop => n + 3
  | .steal i => n - i + 2
  | .loadRemaining => 1
  | _ => 0

omit [DecidableEq Task] in
/-- A queue that is tried in vain stays as it is. -/
theorem slotFifo_pop_eq {queue : Option Task × List Task}
    (hnone : (slotFifo.apply .pop queue).2 = none) :
    (slotFifo.apply .pop queue).1 = queue ∧ queued queue = 0 := by
  obtain ⟨slot, ring⟩ := queue
  cases slot with
  | some task => exact absurd hnone (by simp [slotFifo])
  | none =>
    cases ring with
    | nil => exact ⟨rfl, rfl⟩
    | cons first rest => exact absurd hnone (by simp [slotFifo])

omit [DecidableEq Task] in
theorem slotFifo_steal_eq {queue : Option Task × List Task}
    (hnone : (slotFifo.apply .steal queue).2 = none) :
    (slotFifo.apply .steal queue).1 = queue := by
  obtain ⟨slot, ring⟩ := queue
  cases ring with
  | nil => rfl
  | cons first rest => exact absurd hnone (by simp [slotFifo])

/-- A worker that is home and finds no task leaves the memory, and goes around. -/
theorem WorkerPc.Home.advance (hhome : pc.Home) (hbusy : ¬ next.Busy)
    (hadvance : pc.advance self choice m = some (next, memory)) :
    next.Home ∧ memory = m ∧ (pc = .pop → queued (m.queues self) = 0) ∧
      (pc ≠ .loadRemaining → next.rounds n < pc.rounds n) ∧
      (pc = .loadRemaining → next = if m.remainingTasks = 0 then .exited else .pop) := by
  cases pc with
  | pop =>
    obtain ⟨rfl, rfl⟩ := Prod.mk.inj (Option.some.inj hadvance)
    cases hresult : (slotFifo.apply .pop (m.queues self)).2 with
    | some task =>
      rw [hresult] at hbusy
      exact absurd trivial hbusy
    | none =>
      obtain ⟨hsame, hempty⟩ := slotFifo_pop_eq hresult
      have hrounds : n - 1 + 2 < n + 3 := by omega
      rw [hsame, Function.update_eq_self]
      exact ⟨trivial, rfl, fun _ ↦ hempty, fun _ ↦ hrounds, by simp⟩
  | steal i =>
    simp only [WorkerPc.advance] at hadvance
    split_ifs at hadvance with hi
    · obtain ⟨rfl, rfl⟩ := Prod.mk.inj (Option.some.inj hadvance)
      cases hresult : (slotFifo.apply .steal (m.queues (victim self i))).2 with
      | some task =>
        rw [hresult] at hbusy
        exact absurd trivial hbusy
      | none =>
        have hrounds : n - (i + 1) + 2 < n - i + 2 := by omega
        rw [slotFifo_steal_eq hresult, Function.update_eq_self]
        exact ⟨trivial, rfl, by simp, fun _ ↦ hrounds, by simp⟩
    · obtain ⟨rfl, rfl⟩ := Prod.mk.inj (Option.some.inj hadvance)
      have hrounds : 1 < n - i + 2 := by omega
      exact ⟨trivial, rfl, by simp, fun _ ↦ hrounds, by simp⟩
  | loadRemaining =>
    simp only [WorkerPc.advance] at hadvance
    split_ifs at hadvance with hzero <;>
      obtain ⟨rfl, rfl⟩ := Prod.mk.inj (Option.some.inj hadvance)
    · exact ⟨trivial, rfl, by simp, fun hne ↦ absurd rfl hne, fun _ ↦ (if_pos hzero).symm⟩
    · exact ⟨trivial, rfl, by simp, fun hne ↦ absurd rfl hne, fun _ ↦ (if_neg hzero).symm⟩
  | exited => exact absurd hadvance (by simp [WorkerPc.advance])
  | _ => exact absurd hhome id

end Points

/-! ### No task polls -/

/-- No task has a condition, or is about to get one. -/
structure Unpolled (s : State n Task Cond Arg) : Prop where
  conditions : ∀ task value, s.memory.tasks task = some value → value.pollCondition = none
  workers : ∀ self task pollCondition pollArg,
    s.workers self ≠ .setPoll task pollCondition pollArg

namespace Unpolled

variable {s : State n Task Cond Arg}

theorem conditions_write {m : Memory n Task Cond Arg} {task : Task}
    {value : Option (TaskT Cond Arg)}
    (h : ∀ task value, m.tasks task = some value → value.pollCondition = none)
    (hvalue : ∀ given, value = some given → given.pollCondition = none) (other : Task)
    (given : TaskT Cond Arg) (hgiven : (m.write task value).tasks other = some given) :
    given.pollCondition = none := by
  by_cases heq : other = task
  · subst heq
    rw [Memory.tasks_write_self] at hgiven
    exact hvalue given hgiven
  · rw [Memory.tasks_write_of_ne m heq] at hgiven
    exact h other given hgiven

omit [DecidableEq Task] in
theorem setPoll_update (h : Unpolled s) {self : Fin n} {pc : WorkerPc Task Cond Arg}
    {memory : Memory n Task Cond Arg}
    (hconditions : ∀ task value, memory.tasks task = some value → value.pollCondition = none)
    (hpc : ∀ task pollCondition pollArg, pc ≠ .setPoll task pollCondition pollArg) :
    Unpolled { memory := memory, workers := Function.update s.workers self pc } := by
  refine ⟨hconditions, fun other task pollCondition pollArg ↦ ?_⟩
  by_cases heq : other = self
  · subst heq
    simp only [Function.update_self]
    exact hpc task pollCondition pollArg
  · simp only [Function.update_of_ne heq]
    exact h.workers other task pollCondition pollArg

omit [DecidableEq Task] in
/-- The tasks stay as they are, and the worker sets no condition. -/
theorem same (h : Unpolled s) {self : Fin n} {pc next : WorkerPc Task Cond Arg}
    {memory final : Memory n Task Cond Arg} (heq : some (next, final) = some (pc, memory))
    (htasks : final.tasks = s.memory.tasks)
    (hnext : ∀ task pollCondition pollArg, next ≠ .setPoll task pollCondition pollArg) :
    Unpolled { memory := memory, workers := Function.update s.workers self pc } := by
  obtain ⟨rfl, rfl⟩ := Prod.mk.inj (Option.some.inj heq)
  exact h.setPoll_update (htasks ▸ h.conditions) hnext

/-- A task is written without a condition. -/
theorem write (h : Unpolled s) {self : Fin n} {pc next : WorkerPc Task Cond Arg}
    {memory : Memory n Task Cond Arg} {task : Task} {value : Option (TaskT Cond Arg)}
    (heq : some (next, s.memory.write task value) = some (pc, memory))
    (hvalue : ∀ given, value = some given → given.pollCondition = none)
    (hnext : ∀ task pollCondition pollArg, next ≠ .setPoll task pollCondition pollArg) :
    Unpolled { memory := memory, workers := Function.update s.workers self pc } := by
  obtain ⟨rfl, rfl⟩ := Prod.mk.inj (Option.some.inj heq)
  exact h.setPoll_update (conditions_write h.conditions hvalue) hnext

/-- Only a poll sets a condition. -/
theorem request (h : Unpolled s) {self : Fin n} {pc : WorkerPc Task Cond Arg}
    {memory : Memory n Task Cond Arg} {task : Task} {value : TaskT Cond Arg}
    (hvalue : s.memory.tasks task = some value) {request : Request Task Cond Arg}
    (hpoll : ∀ pollCondition pollArg, request ≠ .poll pollCondition pollArg)
    (hhandle : request.handle task value s.memory = some (pc, memory)) :
    Unpolled { memory := memory, workers := Function.update s.workers self pc } := by
  cases request with
  | ret =>
    refine h.write hhandle (fun given hgiven ↦ ?_) (by simp)
    rw [← Option.some.inj hgiven]
    exact h.conditions task value hvalue
  | fork => exact h.same hhandle rfl (by simp)
  | poll pollCondition pollArg => exact absurd rfl (hpoll pollCondition pollArg)
  | sleep => exact h.same hhandle rfl (by simp)
  | wake wakers again =>
    simp only [Request.handle] at hhandle
    split_ifs at hhandle
    exact h.same hhandle rfl (by simp)

/-- Assumes: the request, where the step is one, is no poll. -/
theorem advance (h : Unpolled s) {self : Fin n} {choice : Choice Task Cond Arg}
    {pc : WorkerPc Task Cond Arg} {memory : Memory n Task Cond Arg}
    (hrequest : ∀ task, s.workers self = .running task → ∀ pollCondition pollArg,
      choice.request ≠ .poll pollCondition pollArg)
    (hadvance : (s.workers self).advance self choice s.memory = some (pc, memory)) :
    Unpolled { memory := memory, workers := Function.update s.workers self pc } := by
  generalize hcurrent : s.workers self = current at hadvance
  cases current with
  | pop =>
    refine h.same hadvance rfl fun _ _ _ ↦ ?_
    cases (slotFifo.apply .pop (s.memory.queues self)).2 <;> simp
  | steal i =>
    simp only [WorkerPc.advance] at hadvance
    split_ifs at hadvance
    · refine h.same hadvance rfl fun _ _ _ ↦ ?_
      cases (slotFifo.apply .steal (s.memory.queues (victim self i))).2 <;> simp
    · exact h.same hadvance rfl (by simp)
  | loadRemaining =>
    simp only [WorkerPc.advance] at hadvance
    split_ifs at hadvance <;> exact h.same hadvance rfl (by simp)
  | checkState task =>
    obtain ⟨value, -, hadvance⟩ := Option.bind_eq_some_iff.mp hadvance
    split_ifs at hadvance <;> exact h.same hadvance rfl (by simp)
  | checkPoll task =>
    obtain ⟨value, -, hadvance⟩ := Option.bind_eq_some_iff.mp hadvance
    split_ifs at hadvance <;> exact h.same hadvance rfl (by simp)
  | clearPoll task =>
    obtain ⟨value, -, hadvance⟩ := Option.bind_eq_some_iff.mp hadvance
    exact h.write hadvance (fun given hgiven ↦ by rw [← Option.some.inj hgiven]) (by simp)
  | running task =>
    obtain ⟨value, hvalue, hhandle⟩ := Option.bind_eq_some_iff.mp hadvance
    exact h.request hvalue (hrequest task hcurrent) hhandle
  | finalize task => exact h.write hadvance (by simp) (by simp)
  | create task =>
    simp only [WorkerPc.advance] at hadvance
    split_ifs at hadvance
    refine h.write hadvance (fun given hgiven ↦ ?_) (by simp)
    rw [← Option.some.inj hgiven]
    rfl
  | setPoll task pollCondition pollArg =>
    exact absurd hcurrent (h.workers self task pollCondition pollArg)
  | mustSleep task =>
    simp only [WorkerPc.advance] at hadvance
    split_ifs at hadvance <;> exact h.same hadvance rfl (by simp)
  | wake task wakers again =>
    cases wakers with
    | nil => cases again <;> exact h.same hadvance rfl (by simp)
    | cons waker wakers => exact h.same hadvance rfl (by simp)
  | resume task => exact h.same hadvance rfl (by simp)
  | subRemaining => exact h.same hadvance rfl (by simp)
  | addRemaining task => exact h.same hadvance rfl (by simp)
  | enqueueForked task newTask => exact h.same hadvance rfl (by simp)
  | enqueuePriority newTask => exact h.same hadvance rfl (by simp)
  | asleep => exact h.same hadvance rfl (by simp)
  | enqueue task => exact h.same hadvance rfl (by simp)
  | exited => exact absurd hadvance (by simp [WorkerPc.advance])
  | fatal => exact absurd hadvance (by simp [WorkerPc.advance])

theorem scheduled [NeZero n] {m : Memory n Task Cond Arg} (h : Scheduled m) (task : Task)
    (value : TaskT Cond Arg) (hvalue : m.tasks task = some value) :
    value.pollCondition = none := by
  induction h generalizing task value with
  | init => exact absurd hvalue (by simp [scheffInit])
  | schedule h hfresh ih =>
    refine conditions_write ih (fun given hgiven ↦ ?_) task value hvalue
    rw [← Option.some.inj hgiven]
    rfl

end Unpolled

/-! ### The tasks come to an end -/

variable {Code Shared : Type*}

/-- The worker runs a task that waits: a step of the task on its own changes nothing. -/
def TaskPrograms.Spins (programs : TaskPrograms Task Cond Arg Code Shared)
    (s : ProgramState n Task Cond Arg Code Shared) (self : Fin n) : Prop :=
  ∃ task code, s.codes task = some code ∧
    (s.scheduler.workers self = .running task ∧
        programs.advance code s.shared = some (code, s.shared) ∨
      s.scheduler.workers self = .mustSleep task ∧
        programs.mustSleep task code s.shared = some (code, s.shared))

/-- What the scheduler relies on to return. -/
structure TaskPrograms.Ends [NeZero n] (programs : TaskPrograms Task Cond Arg Code Shared)
    (scheduled : ProgramState n Task Cond Arg Code Shared → Prop)
    (work : TaskState Task Code Shared → ℕ) : Prop where
  unpolled : ∀ {code after : Code} {request : Request Task Cond Arg},
    programs.request code = some (request, after) →
      ∀ pollCondition pollArg, request ≠ .poll pollCondition pollArg
  request_ne : ∀ {code after : Code} {request : Request Task Cond Arg},
    programs.request code = some (request, after) → after ≠ code
  work_lt : ∀ {labels : List (ProgramLabel n Task Cond Arg)}
    {s next : ProgramState n Task Cond Arg Code Shared} {label : ProgramLabel n Task Cond Arg},
    (programRun programs scheduled).Run (fun _ _ ↦ True) labels s →
      ProgramStep programs s label next → next.tasks = s.tasks ∨ work next.tasks < work s.tasks
  spins : ∀ {labels : List (ProgramLabel n Task Cond Arg)}
    {s : ProgramState n Task Cond Arg Code Shared} {self : Fin n},
    (programRun programs scheduled).Run (fun _ _ ↦ True) labels s → programs.Spins s self →
      ∃ other, (s.scheduler.workers other).Works ∧ ¬ programs.Spins s other
  awake : ∀ {labels : List (ProgramLabel n Task Cond Arg)}
    {s : ProgramState n Task Cond Arg Code Shared},
    (programRun programs scheduled).Run (fun _ _ ↦ True) labels s →
      (∃ task, (s.codes task).isSome) →
        ∃ task, (s.codes task).isSome ∧ task ∉ s.scheduler.memory.wakers

variable {programs : TaskPrograms Task Cond Arg Code Shared}
  {s next : ProgramState n Task Cond Arg Code Shared} {label : ProgramLabel n Task Cond Arg}

/-- The others stay where they are. -/
theorem ProgramStep.workers_of_ne (hstep : ProgramStep programs s label next) {self : Fin n}
    (hne : label.self ≠ self) : next.scheduler.workers self = s.scheduler.workers self := by
  cases hstep with
  | advance => rfl
  | mustSleep => rfl
  | scheduler hadvance hfollows => exact Function.update_of_ne (Ne.symm hne) ..

/-- A worker that does not work takes a step of the scheduler. -/
theorem ProgramStep.advance_of_not_works (hstep : ProgramStep programs s label next)
    (hworks : ¬ (s.scheduler.workers label.self).Works) : ∃ choice pc memory,
      (s.scheduler.workers label.self).advance label.self choice s.scheduler.memory =
        some (pc, memory) ∧
      next.scheduler =
        { memory := memory, workers := Function.update s.scheduler.workers label.self pc } := by
  cases hstep with
  | advance hworker hcode hadvance => exact absurd (by rw [hworker]; exact trivial) hworks
  | mustSleep hworker hcode hmustSleep => exact absurd (by rw [hworker]; exact trivial) hworks
  | scheduler hadvance hfollows => exact ⟨_, _, _, hadvance, rfl⟩

/-- A worker that works, and does not spin, changes the tasks. -/
theorem ProgramStep.tasks_ne (hstep : ProgramStep programs s label next)
    (hcoherent : Coherent programs s)
    (hrequest : ∀ {code after : Code} {request : Request Task Cond Arg},
      programs.request code = some (request, after) → after ≠ code)
    (hworks : (s.scheduler.workers label.self).Works) (hspins : ¬ programs.Spins s label.self) :
    next.tasks ≠ s.tasks := by
  have hcodes : ∀ {task : Task} {codes : Task → Option Code} {value : Option Code},
      codes task = value → s.codes task ≠ value → codes ≠ s.codes := by
    rintro task codes value hvalue hne rfl
    exact hne hvalue
  intro heq
  cases hstep with
  | @advance self task code after shared hworker hcode hadvance =>
    have hsame := congrFun (congrArg TaskState.codes heq) task
    have hshared : shared = s.shared := congrArg TaskState.shared heq
    change Function.update s.codes task (some after) task = s.codes task at hsame
    rw [Function.update_self, hcode] at hsame
    obtain rfl := Option.some.inj hsame
    rw [hshared] at hadvance
    exact hspins ⟨task, after, hcode, .inl ⟨hworker, hadvance⟩⟩
  | @mustSleep self task code after shared hworker hcode hmustSleep =>
    have hsame := congrFun (congrArg TaskState.codes heq) task
    have hshared : shared = s.shared := congrArg TaskState.shared heq
    change Function.update s.codes task (some after) task = s.codes task at hsame
    rw [Function.update_self, hcode] at hsame
    obtain rfl := Option.some.inj hsame
    rw [hshared] at hmustSleep
    exact hspins ⟨task, after, hcode, .inr ⟨hworker, hmustSleep⟩⟩
  | @scheduler self choice pc memory codes shared hadvance hfollows =>
    have hsame : codes = s.codes := congrArg TaskState.codes heq
    generalize hworker : s.scheduler.workers self = current at hfollows hworks
    cases hfollows with
    | @request task code after hcode hperform =>
      refine hcodes (Function.update_self ..) ?_ hsame
      rw [hcode]
      exact fun hafter ↦ hrequest hperform (Option.some.inj hafter).symm
    | @answer task code after shared hcode hanswer =>
      obtain ⟨hstatus, hafterStatus⟩ := programs.answer_status hanswer
      refine hcodes (Function.update_self ..) ?_ hsame
      rw [hcode]
      intro hafter
      rw [Option.some.inj hafter, hafterStatus] at hstatus
      exact absurd hstatus (by simp)
    | @create task code start after hcode hforked =>
      obtain ⟨hstatus, hstartStatus, hafterStatus⟩ := programs.forked_status hforked
      have hcurrent := congrFun hsame task
      rw [hcode] at hcurrent
      by_cases hfresh : task = choice.fresh
      · subst hfresh
        rw [Function.update_self] at hcurrent
        rw [← Option.some.inj hcurrent, hstartStatus] at hstatus
        exact absurd hstatus (by simp)
      · rw [Function.update_of_ne hfresh, Function.update_self] at hcurrent
        rw [← Option.some.inj hcurrent, hafterStatus] at hstatus
        exact absurd hstatus (by simp)
    | @finalize task =>
      obtain ⟨code, hcode, -⟩ := hcoherent.roles task .finished
        (.worker self (by rw [hworker]; exact List.mem_singleton_self _))
      refine hcodes (Function.update_self ..) ?_ hsame
      rw [hcode]
      simp
    | checkPoll => exact absurd hworks id
    | other hrunning hmustSleep hcreate hfinalize hcheckPoll =>
      cases current with
      | running task => exact hrunning task rfl
      | mustSleep task => exact hmustSleep task rfl
      | create task => exact hcreate task rfl
      | finalize task => exact hfinalize task rfl
      | _ => exact absurd hworks id

omit [DecidableEq Task] in
/-- Whether a worker spins is seen from its point, and from the tasks. -/
theorem TaskPrograms.Spins.congr {self : Fin n} (hspins : programs.Spins s self)
    (hworker : next.scheduler.workers self = s.scheduler.workers self)
    (htasks : next.tasks = s.tasks) : programs.Spins next self := by
  have hcodes : next.codes = s.codes := congrArg TaskState.codes htasks
  have hshared : next.shared = s.shared := congrArg TaskState.shared htasks
  unfold TaskPrograms.Spins at hspins ⊢
  rwa [hworker, hcodes, hshared]

/-! ### The workers, when the tasks have come to rest -/

section Rest

variable [NeZero n] {scheduled : ProgramState n Task Cond Arg Code Shared → Prop}
  {work : TaskState Task Code Shared → ℕ}

theorem unpolled_of_run (h : programs.Ends scheduled work)
    {labels : List (ProgramLabel n Task Cond Arg)}
    (hrun : (programRun programs scheduled).Run (fun _ _ ↦ True) labels s) :
    Unpolled s.scheduler := by
  induction hrun with
  | start hinitial =>
    refine ⟨Unpolled.scheduled hinitial.2.1, fun self task pollCondition pollArg ↦ ?_⟩
    rw [hinitial.2.2.1 self]
    simp
  | @step labels s next label hrun _ hstep ih =>
    cases hstep with
    | advance => exact ih
    | mustSleep => exact ih
    | scheduler hadvance hfollows =>
      refine ih.advance (fun task hworker ↦ ?_) hadvance
      rw [hworker] at hfollows
      cases hfollows with
      | request hcode hrequest => exact h.unpolled hrequest
      | other hrunning => exact absurd rfl (hrunning task)

/-- The runs in which no worker is left standing. -/
abbrev FairProgramRun (programs : TaskPrograms Task Cond Arg Code Shared)
    (scheduled : ProgramState n Task Cond Arg Code Shared → Prop) :=
  FairRun (programRun programs scheduled) ProgramLabel.self
    fun s self ↦ s.scheduler.workers self = .exited

variable (run : FairProgramRun programs scheduled)

/-- The point of a worker. -/
def workerOf (s : ProgramState n Task Cond Arg Code Shared) (self : Fin n) :
    WorkerPc Task Cond Arg := s.scheduler.workers self

omit [NeZero n] in
theorem workerOf_of_ne (hstep : ProgramStep programs s label next) {self : Fin n}
    (hne : label.self ≠ self) : workerOf next self = workerOf s self :=
  hstep.workers_of_ne hne

theorem workerOf_others (moment : ℕ) (label : ProgramLabel n Task Cond Arg) (self : Fin n)
    (hturn : run.turns moment = some label) (hne : label.self ≠ self) :
    workerOf (run.states (moment + 1)) self = workerOf (run.states moment) self :=
  workerOf_of_ne (run.step moment label hturn) hne

/-- The tasks have come to rest. -/
def AtRest (start : ℕ) : Prop :=
  ∀ moment ≥ start, (run.states moment).tasks = (run.states start).tasks

namespace TaskPrograms.Ends

variable {run} {start : ℕ}

/-- No worker works any more. -/
theorem not_works (h : programs.Ends scheduled work) (hrest : AtRest run start) {moment : ℕ}
    (hle : start ≤ moment) (self : Fin n) : ¬ (workerOf (run.states moment) self).Works := by
  -- A worker that does not spin would take a step that changes the tasks.
  have hsteady : ∀ self, (workerOf (run.states moment) self).Works →
      programs.Spins (run.states moment) self := by
    intro self hworks
    by_contra hspins
    have hexited : ¬ (run.states moment).scheduler.workers self = .exited := by
      intro heq
      unfold workerOf at hworks
      rw [heq] at hworks
      exact hworks
    obtain ⟨later, hlater, label, hturn, rfl, hworker⟩ :=
      run.exists_turn (workerOf_others run) hexited
    have hlaterLe := hle.trans hlater
    have htasks := (hrest later hlaterLe).trans (hrest moment hle).symm
    obtain ⟨labels, hrun⟩ := run.exists_run later
    obtain ⟨live, -, hcoherent⟩ := coherent_of_run hrun
    refine (run.step later label hturn).tasks_ne hcoherent h.request_ne ?_ ?_ ?_
    · change (workerOf (run.states later) label.self).Works
      rwa [hworker]
    · exact fun hlaterSpins ↦ hspins (hlaterSpins.congr hworker.symm htasks.symm)
    · exact (hrest _ (hlaterLe.trans (Nat.le_succ later))).trans (hrest later hlaterLe).symm
  intro hworks
  obtain ⟨labels, hrun⟩ := run.exists_run moment
  obtain ⟨other, hother, hnot⟩ := h.spins hrun (hsteady self hworks)
  exact hnot (hsteady other hother)

/-- What a worker does at its turn: a step of the scheduler. -/
theorem exists_advance (h : programs.Ends scheduled work) (hrest : AtRest run start) {moment : ℕ}
    (hle : start ≤ moment) {label : ProgramLabel n Task Cond Arg}
    (hturn : run.turns moment = some label) : ∃ choice memory,
      (workerOf (run.states moment) label.self).advance label.self choice
        (run.states moment).scheduler.memory =
          some (workerOf (run.states (moment + 1)) label.self, memory) ∧
      (run.states (moment + 1)).scheduler.memory = memory := by
  obtain ⟨choice, pc, memory, hadvance, hscheduler⟩ :=
    (run.step moment label hturn).advance_of_not_works (h.not_works hrest hle label.self)
  have hworker : workerOf (run.states (moment + 1)) label.self = pc := by
    rw [workerOf, hscheduler]
    exact Function.update_self ..
  rw [hworker, hscheduler]
  exact ⟨choice, memory, hadvance, rfl⟩

/-- No worker is on the way to a task any more. -/
theorem not_busy (h : programs.Ends scheduled work) (hrest : AtRest run start) {moment : ℕ}
    (hle : start ≤ moment) (self : Fin n) : ¬ (workerOf (run.states moment) self).Busy := by
  obtain ⟨bound, hbound⟩ : ∃ bound, (workerOf (run.states moment) self).distance = bound :=
    ⟨_, rfl⟩
  induction bound using Nat.strong_induction_on generalizing moment with
  | _ bound ih =>
    intro hbusy
    have hexited : ¬ (run.states moment).scheduler.workers self = .exited := by
      intro heq
      unfold workerOf at hbusy
      rw [heq] at hbusy
      exact hbusy
    obtain ⟨later, hlater, label, hturn, rfl, hworker⟩ :=
      run.exists_turn (workerOf_others run) hexited
    have hlaterLe := hle.trans hlater
    obtain ⟨choice, memory, hadvance, -⟩ := h.exists_advance hrest hlaterLe hturn
    obtain ⟨labels, hrun⟩ := run.exists_run later
    obtain ⟨labels', hrun'⟩ := run.exists_run (later + 1)
    obtain ⟨live, hlive, -⟩ := coherent_of_run hrun'
    rw [hworker] at hadvance
    obtain ⟨hnext, hlt⟩ := hbusy.advance (h.not_works hrest hle label.self) hadvance
      (hlive.notFatal label.self) (unpolled_of_run h hrun).conditions
    rw [hbound] at hlt
    exact ih _ hlt (hlaterLe.trans (Nat.le_succ later)) rfl hnext

/-- Every worker comes home, and stays there. -/
theorem exists_home (h : programs.Ends scheduled work) (hrest : AtRest run start) :
    ∃ home ≥ start, ∀ moment ≥ home, ∀ self, (workerOf (run.states moment) self).Home := by
  have hone : ∀ self, ∃ home, ∀ moment ≥ home, (workerOf (run.states moment) self).Home := by
    intro self
    have hexited : ∀ moment ≥ start, (run.states moment).scheduler.workers self = .exited →
        (workerOf (run.states moment) self).Home := by
      intro moment _ hexited
      rw [workerOf, hexited]
      exact trivial
    obtain ⟨home, hhome, hgoal⟩ := run.exists_goal (workerOf_others run) WorkerPc.Home
      WorkerPc.distance hexited (fun moment hle label hturn hself hnot ↦ by
        obtain ⟨choice, memory, hadvance, -⟩ := h.exists_advance hrest hle hturn
        rw [hself] at hadvance
        exact WorkerPc.advance_home (h.not_busy hrest hle self) hnot hadvance) le_rfl
    refine ⟨home, fun moment hle ↦ ?_⟩
    refine run.preserved (fun s ↦ (workerOf s self).Home) hgoal ?_ hle
    intro moment label hle hbefore hturn
    by_cases hself : label.self = self
    · have hmoment := hhome.trans hle
      obtain ⟨choice, memory, hadvance, -⟩ := h.exists_advance hrest hmoment hturn
      rw [hself] at hadvance
      exact (hbefore.advance (h.not_busy hrest (hmoment.trans (Nat.le_succ moment)) self)
        hadvance).1
    · rwa [workerOf_others run moment label self hturn hself]
  obtain ⟨home, hhome⟩ := exists_forall_ge hone
  exact ⟨max home start, le_max_right _ _,
    fun moment hle ↦ hhome moment ((le_max_left _ _).trans hle)⟩

section Home

variable {home : ℕ}

/-- What a worker that is home does at its turn. -/
theorem home_advance (h : programs.Ends scheduled work) (hrest : AtRest run start)
    (hle : start ≤ home) (hhome : ∀ moment ≥ home, ∀ self, (workerOf (run.states moment) self).Home)
    {moment : ℕ} (hmoment : home ≤ moment) {label : ProgramLabel n Task Cond Arg}
    (hturn : run.turns moment = some label) :
    (run.states (moment + 1)).scheduler.memory = (run.states moment).scheduler.memory ∧
      (workerOf (run.states moment) label.self = .pop →
        queued ((run.states moment).scheduler.memory.queues label.self) = 0) ∧
      (workerOf (run.states moment) label.self ≠ .loadRemaining →
        (workerOf (run.states (moment + 1)) label.self).rounds n <
          (workerOf (run.states moment) label.self).rounds n) ∧
      (workerOf (run.states moment) label.self = .loadRemaining →
        workerOf (run.states (moment + 1)) label.self =
          if (run.states moment).scheduler.memory.remainingTasks = 0 then .exited else .pop) := by
  have hlater := hle.trans hmoment
  obtain ⟨choice, memory, hadvance, hmemory⟩ := h.exists_advance hrest hlater hturn
  obtain ⟨-, rfl, hpop, hrounds, hload⟩ := (hhome moment hmoment label.self).advance
    (h.not_busy hrest (hlater.trans (Nat.le_succ moment)) label.self) hadvance
  exact ⟨hmemory, hpop, hrounds, hload⟩

/-- Nothing happens to the queues, and to what is counted, when all workers are home. -/
theorem memory_eq (h : programs.Ends scheduled work) (hrest : AtRest run start)
    (hle : start ≤ home) (hhome : ∀ moment ≥ home, ∀ self, (workerOf (run.states moment) self).Home)
    {moment : ℕ} (hmoment : home ≤ moment) :
    (run.states moment).scheduler.memory = (run.states home).scheduler.memory := by
  refine run.preserved (fun s ↦ s.scheduler.memory = (run.states home).scheduler.memory) rfl ?_
    hmoment
  intro moment label hmoment hbefore hturn
  rw [(h.home_advance hrest hle hhome hmoment hturn).1, hbefore]

/-- No task is left when all workers are home. -/
theorem codes_eq_none (h : programs.Ends scheduled work) (hrest : AtRest run start)
    (hle : start ≤ home) (hhome : ∀ moment ≥ home, ∀ self, (workerOf (run.states moment) self).Home)
    (task : Task) : (run.states home).codes task = none := by
  by_contra hsome
  have hcodes : ∀ moment ≥ home, (run.states moment).codes = (run.states home).codes :=
    fun moment hmoment ↦ congrArg TaskState.codes
      ((hrest moment (hle.trans hmoment)).trans (hrest home hle).symm)
  obtain ⟨labels, hrun⟩ := run.exists_run home
  obtain ⟨awake, hawake, hwakers⟩ := h.awake hrun ⟨task, Option.isSome_iff_ne_none.mpr hsome⟩
  obtain ⟨live, hlive, hcoherent⟩ := coherent_of_run hrun
  -- A task that is awake is in a queue, as all hands are empty.
  obtain ⟨self, hqueued⟩ :
      ∃ self, awake ∈ queued ((run.states home).scheduler.memory.queues self) := by
    have hplaces : awake ∈ (run.states home).scheduler.places := by
      rw [hlive.places, Finset.mem_val, hlive.allocated, ← hcoherent.domain]
      exact hawake
    rcases Multiset.mem_add.mp hplaces with hcontents | hhands
    · rcases Multiset.mem_add.mp hcontents with hqueues | hwaker
      · exact mem_total.mp hqueues
      · exact absurd hwaker hwakers
    · obtain ⟨self, hself⟩ := mem_total.mp hhands
      have hworker := hhome home le_rfl self
      unfold workerOf at hworker
      cases hpc : (run.states home).scheduler.workers self with
      | _ => simp_all [WorkerPc.hands, WorkerPc.held, WorkerPc.waking, WorkerPc.Home]
  have hexited : ∀ moment ≥ home, (run.states moment).scheduler.workers self ≠ .exited := by
    intro moment hmoment hexited
    obtain ⟨labels, hrun⟩ := run.exists_run moment
    obtain ⟨live, hlive, hcoherent⟩ := coherent_of_run hrun
    have hnone := (hlive.places_eq_zero (hlive.exited self hexited)).1
    have hmem : awake ∈ (run.states moment).scheduler.places := by
      rw [hlive.places, Finset.mem_val, hlive.allocated, ← hcoherent.domain, hcodes moment hmoment]
      exact hawake
    rw [hnone] at hmem
    exact Multiset.notMem_zero awake hmem
  obtain ⟨moment, hmoment, hpop⟩ := run.exists_goal (workerOf_others run) (· = .pop)
    (WorkerPc.rounds n) (fun moment hmoment heq ↦ absurd heq (hexited moment hmoment))
    (fun moment hmoment label hturn hself hnot ↦ by
      obtain ⟨-, -, hrounds, hload⟩ := h.home_advance hrest hle hhome hmoment hturn
      rw [hself] at hrounds hload
      by_cases hloading : workerOf (run.states moment) self = .loadRemaining
      · refine .inl ((hload hloading).trans (if_neg fun hzero ↦ ?_))
        refine hexited (moment + 1) (hmoment.trans (Nat.le_succ moment)) ?_
        exact (hload hloading).trans (if_pos hzero)
      · exact .inr (hrounds hloading)) le_rfl
  obtain ⟨later, hlater, label, hturn, rfl, hworker⟩ :=
    run.exists_turn (workerOf_others run) (hexited moment hmoment)
  have hlaterLe := hmoment.trans hlater
  have hempty := (h.home_advance hrest hle hhome hlaterLe hturn).2.1 (hworker.trans hpop)
  rw [h.memory_eq hrest hle hhome hlaterLe] at hempty
  rw [hempty] at hqueued
  exact Multiset.notMem_zero awake hqueued

/-- All workers leave their loop when they are home and no task is left. -/
theorem exists_exited (h : programs.Ends scheduled work) (hrest : AtRest run start)
    (hle : start ≤ home)
    (hhome : ∀ moment ≥ home, ∀ self, (workerOf (run.states moment) self).Home) :
    ∃ final, ∀ moment ≥ final, ∀ self, (run.states moment).scheduler.workers self = .exited := by
  obtain ⟨labels, hrun⟩ := run.exists_run home
  obtain ⟨live, hlive, hcoherent⟩ := coherent_of_run hrun
  have hzero : (run.states home).scheduler.memory.remainingTasks = 0 := by
    have hnone : live = ∅ := by
      refine Finset.eq_empty_of_forall_notMem fun task ↦ ?_
      rw [hlive.allocated, ← hcoherent.domain, h.codes_eq_none hrest hle hhome task]
      simp
    have hcount : ∀ {f : WorkerPc Task Cond Arg → ℕ}, (∀ pc, pc.Home → f pc = 0) →
        total f (run.states home).scheduler.workers = 0 := by
      intro f hf
      exact Finset.sum_eq_zero fun self _ ↦ hf _ (hhome home le_rfl self)
    rw [hlive.remaining, hnone, hcount, hcount]
    · rfl
    · intro pc hpc
      cases pc <;> first | rfl | exact absurd hpc id
    · intro pc hpc
      cases pc <;> first | rfl | exact absurd hpc id
  refine exists_forall_ge fun self ↦ ?_
  obtain ⟨final, hfinal, hexited⟩ := run.exists_goal (workerOf_others run) (· = .exited)
    (WorkerPc.rounds n) (fun moment _ heq ↦ heq)
    (fun moment hmoment label hturn hself hnot ↦ by
      obtain ⟨-, -, hrounds, hload⟩ := h.home_advance hrest hle hhome hmoment hturn
      rw [hself] at hrounds hload
      by_cases hloading : workerOf (run.states moment) self = .loadRemaining
      · refine .inl ((hload hloading).trans (if_pos ?_))
        rw [h.memory_eq hrest hle hhome hmoment, hzero]
      · exact .inr (hrounds hloading)) (le_refl home)
  refine ⟨final, fun moment hmoment ↦ ?_⟩
  refine run.preserved (fun s ↦ workerOf s self = .exited) hexited ?_ hmoment
  intro moment label hmoment hbefore hturn
  by_cases hself : label.self = self
  · subst hself
    obtain ⟨choice, memory, hadvance, -⟩ :=
      h.exists_advance hrest (hle.trans (hfinal.trans hmoment)) hturn
    rw [hbefore] at hadvance
    exact absurd hadvance (by simp [WorkerPc.advance])
  · rwa [workerOf_others run moment label self hturn hself]

end Home

/-- Where the tasks come to an end, all workers leave their loop, in every run in which no worker is
left standing. -/
theorem exited_of_fair (h : programs.Ends scheduled work)
    (run : FairProgramRun programs scheduled) :
    ∃ final, ∀ moment ≥ final, ∀ self, (run.states moment).scheduler.workers self = .exited := by
  obtain ⟨start, hrest⟩ := run.exists_stable ProgramState.tasks work fun moment label hturn ↦ by
    obtain ⟨labels, hrun⟩ := run.exists_run moment
    exact h.work_lt hrun (run.step moment label hturn)
  obtain ⟨home, hle, hhome⟩ := h.exists_home hrest
  exact h.exists_exited hrest hle hhome

end TaskPrograms.Ends

end Rest

end Libseff.Scheduler
