import Libseff.Foundation.Totals
import Libseff.Scheduler.Scheff

/-!
# Conservation of the tasks

Every allocated task is in one place: in the ring or the slot of a queue, in the hands of one
worker, or handed out as a waker. A worker that steps moves tasks between its hands, a queue, and
the wakers (`Conserves.move`); only `fork` creates a task (`Conserves.create`) and only `FINALIZE`
frees one (`Conserves.finalize`). `remaining_tasks` is ahead of the tasks where a fork is counted
and not created, or a task is freed and not discounted. So it is zero only when there is no task
left, and no worker can bring one back.
-/

set_option autoImplicit false
set_option relaxedAutoImplicit false

namespace Libseff.Scheduler

open Foundation Coroutine Queues Queues.TlQueue

variable {n : ℕ} {Task Cond Arg : Type*}

/-! ### Where the tasks are -/

/-- The tasks that a worker holds: the one it runs, and one that it has created. -/
def WorkerPc.held : WorkerPc Task Cond Arg → Multiset Task
  | .checkState task => {task}
  | .checkPoll task => {task}
  | .clearPoll task => {task}
  | .resume task => {task}
  | .running task => {task}
  | .finalize task => {task}
  | .addRemaining task => {task}
  | .create task => {task}
  | .enqueueForked task newTask => {task, newTask}
  | .enqueuePriority newTask => {newTask}
  | .setPoll task _ _ => {task}
  | .mustSleep task => {task}
  | .wake task _ _ => {task}
  | .enqueue task => {task}
  | _ => 0

/-- The wakers that a worker has not enqueued yet. -/
def WorkerPc.waking : WorkerPc Task Cond Arg → Multiset Task
  | .wake _ wakers _ => wakers
  | _ => 0

/-- The tasks in the hands of a worker. -/
def WorkerPc.hands (pc : WorkerPc Task Cond Arg) : Multiset Task := pc.held + pc.waking

/-- A fork that is counted and not created. -/
def WorkerPc.uncreated : WorkerPc Task Cond Arg → ℕ
  | .create _ => 1
  | _ => 0

/-- A task that is freed and not discounted. -/
def WorkerPc.undiscounted : WorkerPc Task Cond Arg → ℕ
  | .subRemaining => 1
  | _ => 0

/-- The tasks in a queue. -/
def queued (queue : Option Task × List Task) : Multiset Task := queue.1.toList + queue.2

/-- The tasks in the queues, and those handed out as wakers. -/
def Memory.contents (m : Memory n Task Cond Arg) : Multiset Task :=
  total queued m.queues + m.wakers

/-- The tasks in all places. -/
def State.places (s : State n Task Cond Arg) : Multiset Task :=
  s.memory.contents + total WorkerPc.hands s.workers

/-! ### Queues -/

theorem queued_push (queue : Option Task × List Task) (task : Task) :
    queued (slotFifo.apply (.push task) queue).1 = queued queue + {task} := by
  obtain ⟨slot, ring⟩ := queue
  change (slot.toList : Multiset Task) + (ring ++ [task] : List Task) = slot.toList + ring + {task}
  rw [← Multiset.coe_add, add_assoc]
  rfl

theorem queued_priorityPush (queue : Option Task × List Task) (task : Task) :
    queued (slotFifo.apply (.priorityPush task) queue).1 = queued queue + {task} := by
  obtain ⟨slot, ring⟩ := queue
  change ({task} : Multiset Task) + (ring ++ slot.toList : List Task) =
    slot.toList + ring + {task}
  rw [← Multiset.coe_add]
  abel

theorem queued_pop (queue : Option Task × List Task) :
    queued (slotFifo.apply .pop queue).1 + (slotFifo.apply .pop queue).2.toList =
      queued queue := by
  obtain ⟨slot, ring⟩ := queue
  cases slot with
  | some task =>
    change (0 : Multiset Task) + ring + {task} = {task} + ring
    rw [zero_add, add_comm]
  | none =>
    cases ring with
    | nil => rfl
    | cons first rest =>
      change (0 : Multiset Task) + rest + {first} = 0 + (first :: rest : List Task)
      rw [zero_add, zero_add, add_comm]
      rfl

theorem queued_steal (queue : Option Task × List Task) :
    queued (slotFifo.apply .steal queue).1 + (slotFifo.apply .steal queue).2.toList =
      queued queue := by
  obtain ⟨slot, ring⟩ := queue
  cases ring with
  | nil => exact add_zero _
  | cons first rest =>
    change (slot.toList : Multiset Task) + rest + {first} =
      slot.toList + (first :: rest : List Task)
    rw [add_assoc, add_comm (rest : Multiset Task)]
    rfl

/-- A queue gets other contents. -/
theorem Memory.contents_update (m : Memory n Task Cond Arg) (self : Fin n)
    (queue : Option Task × List Task) :
    { m with queues := Function.update m.queues self queue }.contents + queued (m.queues self) =
      m.contents + queued queue := by
  have htotal := total_update queued m.queues self queue
  unfold Memory.contents
  dsimp only
  rw [add_right_comm, htotal, add_right_comm]

theorem Memory.contents_push (m : Memory n Task Cond Arg) (self : Fin n) (task : Task) :
    (m.push self task).contents = m.contents + {task} := by
  have hupdate := m.contents_update self (slotFifo.apply (.push task) (m.queues self)).1
  rw [queued_push, add_comm (queued _), ← add_assoc] at hupdate
  exact add_right_cancel hupdate

theorem Memory.contents_priorityPush (m : Memory n Task Cond Arg) (self : Fin n) (task : Task) :
    (m.priorityPush self task).contents = m.contents + {task} := by
  have hupdate := m.contents_update self (slotFifo.apply (.priorityPush task) (m.queues self)).1
  rw [queued_priorityPush, add_comm (queued _), ← add_assoc] at hupdate
  exact add_right_cancel hupdate

/-- A worker takes a task from a queue, or finds none. -/
theorem Memory.contents_take (m : Memory n Task Cond Arg) (self : Fin n)
    {queue : Option Task × List Task} {result : Option Task}
    (hqueue : queued queue + result.toList = queued (m.queues self)) :
    { m with queues := Function.update m.queues self queue }.contents + result.toList =
      m.contents := by
  have hupdate := m.contents_update self queue
  rw [← hqueue, add_comm (queued queue), ← add_assoc] at hupdate
  exact add_right_cancel hupdate

/-- The hands of a worker that has tried a queue. -/
theorem hands_elim {pc : WorkerPc Task Cond Arg} (hpc : pc.hands = 0) (result : Option Task) :
    (result.elim pc .checkState).hands = result.toList := by
  cases result with
  | none => exact hpc
  | some task => exact add_zero _

/-! ### The invariant -/

/-- The tasks are conserved: the allocated ones are those in all places, each once, and they are
counted. -/
structure Conserves (s : State n Task Cond Arg) (live : Finset Task) : Prop where
  allocated : ∀ task, task ∈ live ↔ (s.memory.tasks task).isSome
  places : s.places = live.val
  remaining : s.memory.remainingTasks = live.card + total WorkerPc.uncreated s.workers +
    total WorkerPc.undiscounted s.workers
  paused : ∀ task value, s.memory.tasks task = some value →
    value.state = .paused ∨ ∃ self, s.workers self = .finalize task
  notFatal : ∀ self, s.workers self ≠ .fatal
  exited : ∀ self, s.workers self = .exited → s.memory.remainingTasks = 0

namespace Conserves

variable {s : State n Task Cond Arg} {live : Finset Task} {self : Fin n}
  {pc : WorkerPc Task Cond Arg} {memory : Memory n Task Cond Arg} {task : Task}

/-- No task is in two places. -/
theorem nodup (h : Conserves s live) : s.places.Nodup := by
  rw [h.places]
  exact live.nodup

/-- A task in any place is allocated. -/
theorem isSome_of_mem (h : Conserves s live) (hmem : task ∈ s.places) :
    (s.memory.tasks task).isSome := by
  rw [h.places] at hmem
  exact (h.allocated task).mp hmem

theorem mem_places_of_hands (hmem : task ∈ (s.workers self).hands) : task ∈ s.places :=
  Multiset.mem_add.mpr (.inr (mem_total.mpr ⟨self, hmem⟩))

/-- No task is in the hands of two workers. -/
theorem eq_of_mem_hands (h : Conserves s live) {other : Fin n}
    (hself : task ∈ (s.workers self).hands) (hother : task ∈ (s.workers other).hands) :
    self = other :=
  eq_of_mem_total (Multiset.nodup_add.mp h.nodup).2.1 hself hother

/-- A task that a worker holds is paused, unless the worker is about to free it. -/
theorem state_eq_paused (h : Conserves s live) (hmem : task ∈ (s.workers self).hands)
    (hne : s.workers self ≠ .finalize task) {value : TaskT Cond Arg}
    (hvalue : s.memory.tasks task = some value) : value.state = .paused := by
  refine (h.paused task value hvalue).resolve_right ?_
  rintro ⟨other, hother⟩
  have hmemOther : task ∈ (s.workers other).hands := by
    rw [hother]
    exact Multiset.mem_add.mpr (.inl (Multiset.mem_singleton_self task))
  obtain rfl := h.eq_of_mem_hands hmem hmemOther
  exact hne hother

/-- Nothing is left when `remaining_tasks` is zero. -/
theorem places_eq_zero (h : Conserves s live) (hzero : s.memory.remainingTasks = 0) :
    s.places = 0 ∧ total WorkerPc.uncreated s.workers = 0 ∧
      total WorkerPc.undiscounted s.workers = 0 := by
  have hcount := h.remaining
  rw [h.places, Finset.val_eq_zero, ← Finset.card_eq_zero]
  omega

/-- No worker holds a task then. -/
theorem notMem_hands (h : Conserves s live) (hzero : s.memory.remainingTasks = 0) :
    task ∉ (s.workers self).hands := by
  intro hmem
  have hplaces := mem_places_of_hands hmem
  rw [(h.places_eq_zero hzero).1] at hplaces
  exact Multiset.notMem_zero task hplaces

/-- Other workers stay where they are. -/
theorem forall_update (property : WorkerPc Task Cond Arg → Prop) (hpc : property pc)
    (hall : ∀ other, property (s.workers other)) (other : Fin n) :
    property (Function.update s.workers self pc other) := by
  by_cases heq : other = self
  · subst heq
    rwa [Function.update_self]
  · rw [Function.update_of_ne heq]
    exact hall other

/-- A worker that is about to free a task stays where it is. -/
theorem finalizing_update (hfinalize : ∃ other, s.workers other = .finalize task)
    (hne : s.workers self ≠ .finalize task) :
    ∃ other, Function.update s.workers self pc other = .finalize task := by
  obtain ⟨other, hother⟩ := hfinalize
  have hdifferent : other ≠ self := by
    rintro rfl
    exact hne hother
  exact ⟨other, by rwa [Function.update_of_ne hdifferent]⟩

/-- The tasks in all places after a step. -/
theorem places_update (given taken : Multiset Task)
    (hhands : memory.contents + pc.hands + taken =
      s.memory.contents + (s.workers self).hands + given) :
    State.places { memory := memory, workers := Function.update s.workers self pc } + taken =
      s.places + given := by
  have htotal := total_update WorkerPc.hands s.workers self pc
  refine add_right_cancel (b := (s.workers self).hands) ?_
  calc memory.contents + total WorkerPc.hands (Function.update s.workers self pc) + taken +
        (s.workers self).hands
      = memory.contents + taken + (total WorkerPc.hands (Function.update s.workers self pc) +
        (s.workers self).hands) := by abel
    _ = (memory.contents + pc.hands + taken) + total WorkerPc.hands s.workers := by
        rw [htotal]
        abel
    _ = s.memory.contents + total WorkerPc.hands s.workers + given + (s.workers self).hands := by
        rw [hhands]
        abel

/-- A worker moves tasks, and neither creates nor frees one. -/
theorem move (h : Conserves s live)
    (hhands : memory.contents + pc.hands = s.memory.contents + (s.workers self).hands)
    (hremaining : memory.remainingTasks + (s.workers self).uncreated +
        (s.workers self).undiscounted =
      s.memory.remainingTasks + pc.uncreated + pc.undiscounted)
    (htasks : ∀ task, (memory.tasks task).isSome = (s.memory.tasks task).isSome)
    (hpaused : ∀ task value, memory.tasks task = some value → value.state = .paused ∨
      s.memory.tasks task = some value ∨ pc = .finalize task)
    (hundiscounted_le : pc.undiscounted ≤ (s.workers self).undiscounted)
    (hold : ∀ task, s.workers self ≠ .finalize task) (hfatal : pc ≠ .fatal)
    (hexited : pc = .exited → s.memory.remainingTasks = 0) :
    Conserves { memory := memory, workers := Function.update s.workers self pc } live := by
  have huncreated := total_update WorkerPc.uncreated s.workers self pc
  have hundiscounted := total_update WorkerPc.undiscounted s.workers self pc
  have hcount := h.remaining
  refine
    { allocated := fun task ↦ by rw [h.allocated, ← htasks]
      places := ?_
      remaining := by dsimp only; omega
      paused := fun task value hvalue ↦ ?_
      notFatal := forall_update (· ≠ .fatal) hfatal h.notFatal
      exited := fun other hother ↦ ?_ }
  · have hplaces := places_update 0 0 (congrArg (· + 0) hhands)
    rw [add_zero, add_zero] at hplaces
    rw [hplaces, h.places]
  · rcases hpaused task value hvalue with hpaused | hsame | rfl
    · exact .inl hpaused
    · exact (h.paused task value hsame).imp id fun hfinalize ↦
        finalizing_update hfinalize (hold task)
    · exact .inr ⟨self, Function.update_self ..⟩
  · have hzero : s.memory.remainingTasks = 0 := forall_update
      (fun pc ↦ pc = .exited → s.memory.remainingTasks = 0) hexited h.exited other hother
    obtain ⟨hplaces, hnoneCreated, hnoneFreed⟩ := h.places_eq_zero hzero
    have hcreated := weight_eq_zero_of_total hnoneCreated self
    have hfreed := weight_eq_zero_of_total hnoneFreed self
    have hempty : pc.hands = 0 := by
      unfold State.places at hplaces
      rw [add_eq_zero] at hplaces
      have hhandsZero : (s.workers self).hands = 0 :=
        Multiset.eq_zero_of_forall_notMem fun task ↦ h.notMem_hands hzero
      rw [hplaces.1, hhandsZero, add_zero, add_eq_zero] at hhands
      exact hhands.2
    have hnone : pc.uncreated = 0 := by
      cases pc with
      | create task => exact absurd hempty (Multiset.singleton_ne_zero task)
      | _ => rfl
    dsimp only
    omega

/-- The tasks move, and `remaining_tasks` and the tasks themselves stay the same. -/
theorem move_same (h : Conserves s live)
    (hhands : memory.contents + pc.hands = s.memory.contents + (s.workers self).hands)
    (hremaining : memory.remainingTasks = s.memory.remainingTasks)
    (htasks : memory.tasks = s.memory.tasks)
    (huncreated : pc.uncreated = (s.workers self).uncreated)
    (hundiscounted : pc.undiscounted = (s.workers self).undiscounted)
    (hold : ∀ task, s.workers self ≠ .finalize task) (hfatal : pc ≠ .fatal)
    (hexited : pc = .exited → s.memory.remainingTasks = 0) :
    Conserves { memory := memory, workers := Function.update s.workers self pc } live :=
  h.move hhands (by rw [hremaining, huncreated, hundiscounted]) (fun task ↦ by rw [htasks])
    (fun task value hvalue ↦ .inr (.inl (by rwa [htasks] at hvalue))) hundiscounted.le hold hfatal
    hexited

/-- A worker moves tasks between its hands, a queue, and the wakers. -/
theorem moved (h : Conserves s live) {current : WorkerPc Task Cond Arg}
    (hpc : s.workers self = current)
    (hhands : memory.contents + pc.hands = s.memory.contents + current.hands)
    (hremaining : memory.remainingTasks = s.memory.remainingTasks)
    (htasks : memory.tasks = s.memory.tasks) (huncreated : pc.uncreated = current.uncreated)
    (hundiscounted : pc.undiscounted = current.undiscounted)
    (hold : ∀ task, current ≠ .finalize task) (hfatal : pc ≠ .fatal)
    (hexited : pc = .exited → s.memory.remainingTasks = 0) :
    Conserves { memory := memory, workers := Function.update s.workers self pc } live := by
  subst hpc
  exact h.move_same hhands hremaining htasks huncreated hundiscounted hold hfatal hexited

/-- Counting a task before it is created, or discounting one that is freed. -/
theorem count (h : Conserves s live) {current : WorkerPc Task Cond Arg}
    (hpc : s.workers self = current) (remaining : ℤ)
    (hremaining : remaining + current.uncreated + current.undiscounted =
      s.memory.remainingTasks + pc.uncreated + pc.undiscounted)
    (hhands : pc.hands = current.hands) (hundiscounted : pc.undiscounted ≤ current.undiscounted)
    (hold : ∀ task, current ≠ .finalize task) (hfatal : pc ≠ .fatal) (hexited : pc ≠ .exited) :
    Conserves
      { memory := { s.memory with remainingTasks := remaining }
        workers := Function.update s.workers self pc } live := by
  subst hpc
  exact h.move (by rw [hhands]; rfl) hremaining (fun _ ↦ rfl)
    (fun _ _ hvalue ↦ .inr (.inl hvalue)) hundiscounted hold hfatal fun heq ↦ absurd heq hexited

/-- A worker puts a task from its hands at the end of its queue. -/
theorem enqueued (h : Conserves s live) {current : WorkerPc Task Cond Arg}
    (hpc : s.workers self = current) (hhands : {task} + pc.hands = current.hands)
    (huncreated : pc.uncreated = current.uncreated)
    (hundiscounted : pc.undiscounted = current.undiscounted)
    (hold : ∀ task, current ≠ .finalize task) (hfatal : pc ≠ .fatal) (hexited : pc ≠ .exited) :
    Conserves
      { memory := s.memory.push self task
        workers := Function.update s.workers self pc } live := by
  refine h.moved hpc ?_ rfl rfl huncreated hundiscounted hold hfatal fun heq ↦ absurd heq hexited
  rw [Memory.contents_push, add_assoc, hhands]

/-- A worker puts a task from its hands in the slot of its queue. -/
theorem enqueued_priority (h : Conserves s live) {current : WorkerPc Task Cond Arg}
    (hpc : s.workers self = current) (hhands : {task} + pc.hands = current.hands)
    (huncreated : pc.uncreated = current.uncreated)
    (hundiscounted : pc.undiscounted = current.undiscounted)
    (hold : ∀ task, current ≠ .finalize task) (hfatal : pc ≠ .fatal) (hexited : pc ≠ .exited) :
    Conserves
      { memory := s.memory.priorityPush self task
        workers := Function.update s.workers self pc } live := by
  refine h.moved hpc ?_ rfl rfl huncreated hundiscounted hold hfatal fun heq ↦ absurd heq hexited
  rw [Memory.contents_priorityPush, add_assoc, hhands]

section Allocation

variable [DecidableEq Task]

/-- A fork creates a task. -/
theorem create (h : Conserves s live) {newTask : Task} (hpc : s.workers self = .create task)
    (hfresh : s.memory.tasks newTask = none) :
    ∃ live', Conserves
      { memory := s.memory.write newTask (some .new)
        workers := Function.update s.workers self (.enqueueForked task newTask) } live' := by
  have hnew : newTask ∉ live := by
    rw [h.allocated, hfresh]
    exact nofun
  have hmem : task ∈ (s.workers self).hands := by
    rw [hpc]
    exact Multiset.mem_add.mpr (.inl (Multiset.mem_singleton_self task))
  have huncreated := total_update WorkerPc.uncreated s.workers self (.enqueueForked task newTask)
  have hundiscounted :=
    total_update WorkerPc.undiscounted s.workers self (.enqueueForked task newTask)
  have hhands : (s.memory.write newTask (some .new)).contents +
      (WorkerPc.enqueueForked task newTask : WorkerPc Task Cond Arg).hands + 0 =
        s.memory.contents + (s.workers self).hands + {newTask} := by
    rw [hpc]
    change s.memory.contents + ({task, newTask} + 0) + 0 =
      s.memory.contents + ({task} + 0) + {newTask}
    simp only [Multiset.insert_eq_cons, ← Multiset.singleton_add, add_zero, add_assoc]
  have hplaces := places_update {newTask} 0 hhands
  have hcount := h.remaining
  rw [hpc] at huncreated hundiscounted
  change _ + 1 = _ + 0 at huncreated
  change _ + 0 = _ + 0 at hundiscounted
  refine ⟨live.cons newTask hnew,
    { allocated := fun other ↦ ?_
      places := ?_
      remaining := ?_
      paused := fun other value hvalue ↦ ?_
      notFatal := forall_update (· ≠ .fatal) nofun h.notFatal
      exited := fun other hother ↦ ?_ }⟩
  · rw [Finset.mem_cons, h.allocated]
    by_cases heq : other = newTask
    · subst heq
      simp [Memory.write]
    · simp [Memory.write, heq]
  · rw [add_zero, h.places, add_comm] at hplaces
    exact hplaces
  · rw [Finset.card_cons]
    change s.memory.remainingTasks = _
    push_cast
    omega
  · change Function.update s.memory.tasks newTask (some .new) other = some value at hvalue
    by_cases heq : other = newTask
    · subst heq
      rw [Function.update_self] at hvalue
      obtain rfl := Option.some.inj hvalue
      exact .inl rfl
    · rw [Function.update_of_ne heq] at hvalue
      exact (h.paused other value hvalue).imp id fun hfinalize ↦
        finalizing_update hfinalize (by rw [hpc]; exact nofun)
  · have hzero : s.memory.remainingTasks = 0 := forall_update
      (fun pc ↦ pc = .exited → s.memory.remainingTasks = 0) (by exact nofun) h.exited other hother
    exact absurd hmem (h.notMem_hands hzero)

/-- `FINALIZE` frees a task. -/
theorem finalize (h : Conserves s live) (hpc : s.workers self = .finalize task) :
    ∃ live', Conserves
      { memory := s.memory.write task none
        workers := Function.update s.workers self .subRemaining } live' := by
  have hmem : task ∈ (s.workers self).hands := by
    rw [hpc]
    exact Multiset.mem_add.mpr (.inl (Multiset.mem_singleton_self task))
  have hlive : task ∈ live := by
    rw [h.allocated]
    exact h.isSome_of_mem (mem_places_of_hands hmem)
  have huncreated := total_update WorkerPc.uncreated s.workers self .subRemaining
  have hundiscounted := total_update WorkerPc.undiscounted s.workers self .subRemaining
  have hhands : (s.memory.write task none).contents +
      (WorkerPc.subRemaining : WorkerPc Task Cond Arg).hands + {task} =
        s.memory.contents + (s.workers self).hands + 0 := by
    rw [hpc]
    change s.memory.contents + (0 + 0) + {task} = s.memory.contents + ({task} + 0) + 0
    simp only [add_zero]
  have hplaces := places_update 0 {task} hhands
  have hcount := h.remaining
  rw [hpc] at huncreated hundiscounted
  change _ + 0 = _ + 0 at huncreated
  change _ + 0 = _ + 1 at hundiscounted
  refine ⟨live.erase task,
    { allocated := fun other ↦ ?_
      places := ?_
      remaining := ?_
      paused := fun other value hvalue ↦ ?_
      notFatal := forall_update (· ≠ .fatal) nofun h.notFatal
      exited := fun other hother ↦ ?_ }⟩
  · rw [Finset.mem_erase, h.allocated]
    by_cases heq : other = task
    · subst heq
      simp [Memory.write]
    · simp [Memory.write, heq]
  · rw [add_zero, h.places] at hplaces
    rw [Finset.erase_val, ← hplaces, add_comm]
    exact (Multiset.erase_cons_head _ _).symm
  · have hcard := Finset.card_erase_add_one hlive
    change s.memory.remainingTasks = _
    dsimp only
    omega
  · change Function.update s.memory.tasks task none other = some value at hvalue
    by_cases heq : other = task
    · subst heq
      rw [Function.update_self] at hvalue
      exact absurd hvalue nofun
    · rw [Function.update_of_ne heq] at hvalue
      refine (h.paused other value hvalue).imp id fun hfinalize ↦
        finalizing_update hfinalize ?_
      rw [hpc]
      exact fun hsame ↦ heq (WorkerPc.finalize.inj hsame).symm
  · have hzero : s.memory.remainingTasks = 0 := forall_update
      (fun pc ↦ pc = .exited → s.memory.remainingTasks = 0) (by exact nofun) h.exited other hother
    exact absurd hmem (h.notMem_hands hzero)

end Allocation

/-- A worker without a task tries a queue. -/
theorem take (h : Conserves s live) (hnone : (s.workers self).hands = 0)
    (huncreated : (s.workers self).uncreated = 0)
    (hundiscounted : (s.workers self).undiscounted = 0)
    (hold : ∀ task, s.workers self ≠ .finalize task) {tried : Fin n}
    {queue : Option Task × List Task} {result : Option Task}
    (hqueue : queued queue + result.toList = queued (s.memory.queues tried)) (i : ℕ) :
    Conserves
      { memory := { s.memory with queues := Function.update s.memory.queues tried queue }
        workers := Function.update s.workers self (result.elim (.steal i) .checkState) } live := by
  have htake := s.memory.contents_take tried hqueue
  refine h.move_same ?_ rfl rfl ?_ ?_ hold ?_ ?_
  · rw [hnone, add_zero, hands_elim rfl, htake]
  · rw [huncreated]
    cases result <;> rfl
  · rw [hundiscounted]
    cases result <;> rfl
  · cases result <;> exact nofun
  · cases result <;> exact nofun

variable [DecidableEq Task] {choice : Choice Task Cond Arg}

/-- A task that is written stays allocated. -/
theorem isSome_write {value : TaskT Cond Arg} (hvalue : memory.tasks task = some value)
    (value' : TaskT Cond Arg) (other : Task) :
    ((memory.write task (some value')).tasks other).isSome = (memory.tasks other).isSome := by
  by_cases heq : other = task
  · subst heq
    simp [Memory.write, hvalue]
  · simp [Memory.write, heq]

/-- The request of a task moves it to the next point. -/
theorem request (h : Conserves s live) (hpc : s.workers self = .running task)
    {value : TaskT Cond Arg} (hvalue : s.memory.tasks task = some value)
    {request : Request Task Cond Arg}
    (hhandle : request.handle task value s.memory = some (pc, memory)) :
    Conserves { memory := memory, workers := Function.update s.workers self pc } live := by
  cases request with
  | ret =>
    obtain ⟨rfl, rfl⟩ := Prod.mk.inj (Option.some.inj hhandle)
    refine h.move (by rw [hpc]; rfl) (by rw [hpc]; rfl) (isSome_write hvalue _)
      (fun other found hfound ↦ ?_) (Nat.zero_le _) (by rw [hpc]; exact nofun) nofun nofun
    by_cases heq : other = task
    · subst heq
      exact .inr (.inr rfl)
    · refine .inr (.inl ?_)
      simpa [Memory.write, heq] using hfound
  | wake wakers again =>
    simp only [Request.handle] at hhandle
    split_ifs at hhandle with hle
    obtain ⟨rfl, rfl⟩ := Prod.mk.inj (Option.some.inj hhandle)
    refine h.moved hpc ?_ rfl rfl rfl rfl nofun nofun nofun
    change total queued s.memory.queues + (s.memory.wakers - wakers) + ({task} + wakers) =
      total queued s.memory.queues + s.memory.wakers + ({task} + 0)
    rw [add_zero, add_comm ({task} : Multiset Task), ← add_assoc, add_assoc (total _ _),
      tsub_add_cancel_of_le hle]
  | _ =>
    obtain ⟨rfl, rfl⟩ := Prod.mk.inj (Option.some.inj hhandle)
    exact h.moved hpc rfl rfl rfl rfl rfl nofun nofun nofun

/-- Writing a task keeps it allocated. -/
theorem write (h : Conserves s live) {value value' : TaskT Cond Arg}
    (hvalue : s.memory.tasks task = some value) (hstate : value'.state = value.state)
    (hhands : pc.hands = (s.workers self).hands)
    (huncreated : pc.uncreated = (s.workers self).uncreated)
    (hundiscounted : pc.undiscounted = (s.workers self).undiscounted)
    (hold : ∀ task, s.workers self ≠ .finalize task) (hmem : task ∈ (s.workers self).hands)
    (hfatal : pc ≠ .fatal) (hexited : pc ≠ .exited) :
    Conserves
      { memory := s.memory.write task (some value')
        workers := Function.update s.workers self pc } live := by
  refine h.move (by rw [hhands]; rfl) (by rw [huncreated, hundiscounted]; rfl)
    (isSome_write hvalue value') (fun other found hfound ↦ ?_) hundiscounted.le hold hfatal
    fun heq ↦ absurd heq hexited
  by_cases heq : other = task
  · subst heq
    have hpaused := h.state_eq_paused hmem (hold other) hvalue
    simp only [Memory.write, Function.update_self, Option.some.injEq] at hfound
    rw [← hfound, hstate]
    exact .inl hpaused
  · refine .inr (.inl ?_)
    simpa [Memory.write, heq] using hfound

/-- A worker steals, and leaves the loop over the other queues after the last one. -/
theorem advance_steal (h : Conserves s live) {i : ℕ} (hpc : s.workers self = .steal i)
    (hadvance : (WorkerPc.steal i).advance self choice s.memory = some (pc, memory)) :
    Conserves { memory := memory, workers := Function.update s.workers self pc } live := by
  simp only [WorkerPc.advance] at hadvance
  split_ifs at hadvance with hlt
  · obtain ⟨rfl, rfl⟩ := Prod.mk.inj (Option.some.inj hadvance)
    exact h.take (by rw [hpc]; rfl) (by rw [hpc]; rfl) (by rw [hpc]; rfl)
      (by rw [hpc]; exact nofun) (queued_steal _) (i + 1)
  · obtain ⟨rfl, rfl⟩ := Prod.mk.inj (Option.some.inj hadvance)
    exact h.moved hpc rfl rfl rfl rfl rfl nofun nofun nofun

/-- A worker exits where `remaining_tasks` is zero. -/
theorem advance_loadRemaining (h : Conserves s live) (hpc : s.workers self = .loadRemaining)
    (hadvance : WorkerPc.loadRemaining.advance self choice s.memory = some (pc, memory)) :
    Conserves { memory := memory, workers := Function.update s.workers self pc } live := by
  simp only [WorkerPc.advance] at hadvance
  split_ifs at hadvance with hzero
  · obtain ⟨rfl, rfl⟩ := Prod.mk.inj (Option.some.inj hadvance)
    exact h.moved hpc rfl rfl rfl rfl rfl nofun nofun fun _ ↦ hzero
  · obtain ⟨rfl, rfl⟩ := Prod.mk.inj (Option.some.inj hadvance)
    exact h.moved hpc rfl rfl rfl rfl rfl nofun nofun nofun

/-- A task that a worker has taken is paused, so that the assertion on its state holds. -/
theorem advance_checkState (h : Conserves s live) (hpc : s.workers self = .checkState task)
    (hadvance : (WorkerPc.checkState task).advance self choice s.memory = some (pc, memory)) :
    Conserves { memory := memory, workers := Function.update s.workers self pc } live := by
  have hmem : task ∈ (s.workers self).hands := by
    rw [hpc]
    exact Multiset.mem_add.mpr (.inl (Multiset.mem_singleton_self task))
  have hold : s.workers self ≠ .finalize task := by
    rw [hpc]
    exact nofun
  obtain ⟨value, hvalue, hcheck⟩ := Option.bind_eq_some_iff.mp hadvance
  rw [if_pos (h.state_eq_paused hmem hold hvalue)] at hcheck
  obtain ⟨rfl, rfl⟩ := Prod.mk.inj (Option.some.inj hcheck)
  exact h.moved hpc rfl rfl rfl rfl rfl nofun nofun nofun

/-- A task whose condition does not hold goes back to the queue. -/
theorem advance_checkPoll (h : Conserves s live) (hpc : s.workers self = .checkPoll task)
    (hadvance : (WorkerPc.checkPoll task).advance self choice s.memory = some (pc, memory)) :
    Conserves { memory := memory, workers := Function.update s.workers self pc } live := by
  obtain ⟨value, -, hcheck⟩ := Option.bind_eq_some_iff.mp hadvance
  split_ifs at hcheck
  · obtain ⟨rfl, rfl⟩ := Prod.mk.inj (Option.some.inj hcheck)
    exact h.moved hpc rfl rfl rfl rfl rfl nofun nofun nofun
  · obtain ⟨rfl, rfl⟩ := Prod.mk.inj (Option.some.inj hcheck)
    exact h.moved hpc rfl rfl rfl rfl rfl nofun nofun nofun

/-- Writing a task that a worker goes on to hold keeps it allocated. -/
theorem write_of_held (h : Conserves s live) {current : WorkerPc Task Cond Arg}
    (hpc : s.workers self = current) (hheld : current.hands = {task} + 0)
    (hold : ∀ task, current ≠ .finalize task) {value value' : TaskT Cond Arg}
    (hvalue : s.memory.tasks task = some value) (hstate : value'.state = value.state)
    (hhands : pc.hands = current.hands) (huncreated : pc.uncreated = current.uncreated)
    (hundiscounted : pc.undiscounted = current.undiscounted) (hfatal : pc ≠ .fatal)
    (hexited : pc ≠ .exited) :
    Conserves
      { memory := s.memory.write task (some value')
        workers := Function.update s.workers self pc } live := by
  subst hpc
  have hmem : task ∈ (s.workers self).hands := by
    rw [hheld]
    exact Multiset.mem_add.mpr (.inl (Multiset.mem_singleton_self task))
  exact h.write hvalue hstate hhands huncreated hundiscounted hold hmem hfatal hexited

/-- A task that falls asleep is handed out as a waker. -/
theorem advance_mustSleep (h : Conserves s live) (hpc : s.workers self = .mustSleep task)
    (hadvance : (WorkerPc.mustSleep task).advance self choice s.memory = some (pc, memory)) :
    Conserves { memory := memory, workers := Function.update s.workers self pc } live := by
  simp only [WorkerPc.advance] at hadvance
  split_ifs at hadvance
  · obtain ⟨rfl, rfl⟩ := Prod.mk.inj (Option.some.inj hadvance)
    refine h.moved hpc ?_ rfl rfl rfl rfl nofun nofun nofun
    change total queued s.memory.queues + (task ::ₘ s.memory.wakers) + (0 + 0) =
      total queued s.memory.queues + s.memory.wakers + ({task} + 0)
    simp only [add_zero]
    rw [← Multiset.singleton_add, add_assoc, add_comm s.memory.wakers]
  · obtain ⟨rfl, rfl⟩ := Prod.mk.inj (Option.some.inj hadvance)
    exact h.moved hpc rfl rfl rfl rfl rfl nofun nofun nofun

/-- The wakers of a `wakeup` go to the slot of the worker's queue, one after the other. -/
theorem advance_wake (h : Conserves s live) {wakers : List Task} {again : Bool}
    (hpc : s.workers self = .wake task wakers again)
    (hadvance :
      (WorkerPc.wake task wakers again).advance self choice s.memory = some (pc, memory)) :
    Conserves { memory := memory, workers := Function.update s.workers self pc } live := by
  cases wakers with
  | cons waker wakers =>
    obtain ⟨rfl, rfl⟩ := Prod.mk.inj (Option.some.inj hadvance)
    refine h.enqueued_priority hpc ?_ rfl rfl nofun nofun nofun
    change {waker} + ({task} + (wakers : Multiset Task)) =
      {task} + ((waker :: wakers : List Task) : Multiset Task)
    rw [← Multiset.cons_coe, ← Multiset.singleton_add,
      add_left_comm ({waker} : Multiset Task) {task}]
  | nil =>
    cases again with
    | true =>
      obtain ⟨rfl, rfl⟩ := Prod.mk.inj (Option.some.inj hadvance)
      exact h.moved hpc rfl rfl rfl rfl rfl nofun nofun nofun
    | false =>
      obtain ⟨rfl, rfl⟩ := Prod.mk.inj (Option.some.inj hadvance)
      exact h.moved hpc rfl rfl rfl rfl rfl nofun nofun nofun

/-- A step of a worker conserves the tasks. -/
theorem advance (h : Conserves s live)
    (hadvance : (s.workers self).advance self choice s.memory = some (pc, memory)) :
    ∃ live',
      Conserves { memory := memory, workers := Function.update s.workers self pc } live' := by
  cases hpc : s.workers self with
  | pop =>
    rw [hpc] at hadvance
    obtain ⟨rfl, rfl⟩ := Prod.mk.inj (Option.some.inj hadvance)
    exact ⟨live, h.take (by rw [hpc]; rfl) (by rw [hpc]; rfl) (by rw [hpc]; rfl)
      (by rw [hpc]; exact nofun) (queued_pop _) 1⟩
  | steal i => exact ⟨live, h.advance_steal hpc (hpc ▸ hadvance)⟩
  | loadRemaining => exact ⟨live, h.advance_loadRemaining hpc (hpc ▸ hadvance)⟩
  | checkState task => exact ⟨live, h.advance_checkState hpc (hpc ▸ hadvance)⟩
  | checkPoll task => exact ⟨live, h.advance_checkPoll hpc (hpc ▸ hadvance)⟩
  | clearPoll task | setPoll task =>
    rw [hpc] at hadvance
    obtain ⟨value, hvalue, hwrite⟩ := Option.bind_eq_some_iff.mp hadvance
    obtain ⟨rfl, rfl⟩ := Prod.mk.inj (Option.some.inj hwrite)
    exact ⟨live, h.write_of_held hpc rfl nofun hvalue rfl rfl rfl rfl nofun nofun⟩
  | running task =>
    rw [hpc] at hadvance
    obtain ⟨value, hvalue, hhandle⟩ := Option.bind_eq_some_iff.mp hadvance
    exact ⟨live, h.request hpc hvalue hhandle⟩
  | finalize task =>
    rw [hpc] at hadvance
    obtain ⟨rfl, rfl⟩ := Prod.mk.inj (Option.some.inj hadvance)
    exact h.finalize hpc
  | subRemaining | addRemaining =>
    rw [hpc] at hadvance
    obtain ⟨rfl, rfl⟩ := Prod.mk.inj (Option.some.inj hadvance)
    refine ⟨live, h.count hpc _ ?_ rfl (Nat.zero_le _) nofun nofun nofun⟩
    simp [WorkerPc.uncreated, WorkerPc.undiscounted]
  | create task =>
    rw [hpc] at hadvance
    simp only [WorkerPc.advance] at hadvance
    split_ifs at hadvance with hfresh
    obtain ⟨rfl, rfl⟩ := Prod.mk.inj (Option.some.inj hadvance)
    exact h.create hpc (Option.isNone_iff_eq_none.mp hfresh)
  | enqueueForked | enqueue =>
    rw [hpc] at hadvance
    obtain ⟨rfl, rfl⟩ := Prod.mk.inj (Option.some.inj hadvance)
    exact ⟨live, h.enqueued hpc rfl rfl rfl nofun nofun nofun⟩
  | enqueuePriority newTask =>
    rw [hpc] at hadvance
    obtain ⟨rfl, rfl⟩ := Prod.mk.inj (Option.some.inj hadvance)
    exact ⟨live, h.enqueued_priority hpc rfl rfl rfl nofun nofun nofun⟩
  | mustSleep task => exact ⟨live, h.advance_mustSleep hpc (hpc ▸ hadvance)⟩
  | wake task wakers again => exact ⟨live, h.advance_wake hpc (hpc ▸ hadvance)⟩
  | resume | asleep =>
    rw [hpc] at hadvance
    obtain ⟨rfl, rfl⟩ := Prod.mk.inj (Option.some.inj hadvance)
    exact ⟨live, h.moved hpc rfl rfl rfl rfl rfl nofun nofun nofun⟩
  | exited | fatal =>
    rw [hpc] at hadvance
    exact absurd hadvance nofun

/-- The tasks are conserved before `scheff_run`. -/
theorem scheduled [NeZero n] {m : Memory n Task Cond Arg} (h : Scheduled m) :
    ∃ live, Conserves { memory := m, workers := fun _ ↦ .pop } live := by
  have hhands : total WorkerPc.hands (fun _ : Fin n ↦ (.pop : WorkerPc Task Cond Arg)) = 0 :=
    total_eq_zero fun _ ↦ rfl
  have huncreated : total WorkerPc.uncreated
      (fun _ : Fin n ↦ (.pop : WorkerPc Task Cond Arg)) = 0 := total_eq_zero fun _ ↦ rfl
  have hundiscounted : total WorkerPc.undiscounted
      (fun _ : Fin n ↦ (.pop : WorkerPc Task Cond Arg)) = 0 := total_eq_zero fun _ ↦ rfl
  induction h with
  | init =>
    have hqueues : total queued (fun _ : Fin n ↦ (slotFifo.start : Option Task × List Task)) = 0 :=
      total_eq_zero fun _ ↦ rfl
    refine ⟨∅,
      { allocated := fun task ↦ ⟨fun hmem ↦ absurd hmem (Finset.notMem_empty task), nofun⟩
        places := ?_
        remaining := ?_
        paused := nofun
        notFatal := nofun
        exited := nofun }⟩
    · unfold State.places Memory.contents
      dsimp only [scheffInit]
      rw [hqueues, hhands]
      rfl
    · dsimp only
      rw [huncreated, hundiscounted]
      rfl
  | @schedule m task _ hfresh ih =>
    obtain ⟨live, h⟩ := ih
    have hnew : task ∉ live := by
      rw [h.allocated, hfresh]
      exact nofun
    have hplaces := h.places
    have hcount := h.remaining
    unfold State.places at hplaces
    dsimp only at hplaces hcount
    rw [hhands, add_zero] at hplaces
    rw [huncreated, hundiscounted] at hcount
    refine ⟨live.cons task hnew,
      { allocated := fun other ↦ ?_
        places := ?_
        remaining := ?_
        paused := fun other value hvalue ↦ ?_
        notFatal := nofun
        exited := nofun }⟩
    · rw [Finset.mem_cons, h.allocated]
      by_cases heq : other = task
      · subst heq
        simp [scheffSchedule, Memory.push, Memory.write]
      · simp [scheffSchedule, Memory.push, Memory.write, heq]
    · unfold State.places
      dsimp only [scheffSchedule]
      rw [hhands, add_zero, Memory.contents_push, Finset.cons_val, ← Multiset.singleton_add,
        add_comm, ← hplaces]
      rfl
    · dsimp only
      rw [huncreated, hundiscounted, Finset.card_cons]
      change m.remainingTasks + 1 = _
      push_cast
      omega
    · change Function.update m.tasks task (some .new) other = some value at hvalue
      by_cases heq : other = task
      · subst heq
        rw [Function.update_self] at hvalue
        obtain rfl := Option.some.inj hvalue
        exact .inl rfl
      · rw [Function.update_of_ne heq] at hvalue
        exact h.paused other value hvalue

/-- The tasks are conserved. -/
def Conserved (s : State n Task Cond Arg) : Prop := ∃ live, Conserves s live

/-- The tasks are conserved in every run. -/
theorem of_run [NeZero n] {labels : List (Label n Task Cond Arg)}
    (hrun : (scheffRun n Task Cond Arg).Run (fun _ _ ↦ True) labels s) : Conserved s := by
  refine hrun.invariant ?_ ?_
  · rintro ⟨memory, workers⟩ ⟨hscheduled, hworkers⟩
    obtain rfl : workers = fun _ ↦ .pop := funext hworkers
    exact scheduled hscheduled
  · rintro s label next ⟨live, h⟩ - ⟨hadvance⟩
    exact h.advance hadvance

end Conserves

/-! ### Places -/

/-- Where a task can be: in the ring or the slot of a worker's queue, in the hands of a worker, or
handed out as a waker. -/
inductive Place (n : ℕ)
  | ring (self : Fin n)
  | slot (self : Fin n)
  | worker (self : Fin n)
  | waker

/-- The places, for each worker and the wakers. -/
def Place.equiv (n : ℕ) : Place n ≃ (Fin n ⊕ Fin n) ⊕ (Fin n ⊕ Unit) where
  toFun
    | .ring self => .inl (.inl self)
    | .slot self => .inl (.inr self)
    | .worker self => .inr (.inl self)
    | .waker => .inr (.inr ())
  invFun
    | .inl (.inl self) => .ring self
    | .inl (.inr self) => .slot self
    | .inr (.inl self) => .worker self
    | .inr (.inr ()) => .waker
  left_inv place := by cases place <;> rfl
  right_inv := by rintro ((self | self) | (self | ⟨⟩)) <;> rfl

instance (n : ℕ) : Fintype (Place n) := Fintype.ofEquiv _ (Place.equiv n).symm

/-- The tasks in a place. A waker is in its place until it is enqueued. -/
def State.tasksIn (s : State n Task Cond Arg) : Place n → Multiset Task
  | .ring self => (s.memory.queues self).2
  | .slot self => (s.memory.queues self).1.toList
  | .worker self => (s.workers self).held
  | .waker => s.memory.wakers + total WorkerPc.waking s.workers

theorem total_tasksIn (s : State n Task Cond Arg) : total s.tasksIn id = s.places := by
  have hsum : ∑ place, s.tasksIn place = ∑ point, s.tasksIn ((Place.equiv n).symm point) :=
    (Equiv.sum_comp (Place.equiv n).symm _).symm
  change ∑ place, s.tasksIn place = _
  rw [hsum, Fintype.sum_sum_type, Fintype.sum_sum_type, Fintype.sum_sum_type]
  unfold State.places Memory.contents total queued WorkerPc.hands
  rw [Finset.sum_add_distrib, Finset.sum_add_distrib]
  simp only [Finset.univ_unique, Finset.sum_singleton]
  change ∑ self, ((s.memory.queues self).2 : Multiset Task) +
      ∑ self, ((s.memory.queues self).1.toList : Multiset Task) +
      (∑ self, (s.workers self).held +
        (s.memory.wakers + ∑ self, (s.workers self).waking)) = _
  abel

/-- The task that a worker resumes, or has resumed. -/
def WorkerPc.Runs (pc : WorkerPc Task Cond Arg) (task : Task) : Prop :=
  pc = .resume task ∨ pc = .running task

theorem WorkerPc.Runs.mem_held {pc : WorkerPc Task Cond Arg} {task : Task} (h : pc.Runs task) :
    task ∈ pc.held := by
  rcases h with rfl | rfl <;> exact Multiset.mem_singleton_self task

/-- **Task conservation.** In every state of every run of `scheff_run`, each allocated task is in
exactly one place, once, and no place has a freed one. `remaining_tasks` counts the allocated tasks,
the forks that are counted and not created, and the freed tasks that are not discounted. So no task
is resumed by two workers at once or after being freed, no worker finds a finished coroutine, and
when a worker has left its loop no task is allocated. -/
theorem task_conservation [NeZero n] [DecidableEq Task] {s : State n Task Cond Arg}
    {labels : List (Label n Task Cond Arg)}
    (hrun : (scheffRun n Task Cond Arg).Run (fun _ _ ↦ True) labels s) :
    (∀ task, (s.memory.tasks task).isSome → ∃! place, task ∈ s.tasksIn place) ∧
    (∀ place, (s.tasksIn place).Nodup ∧
      ∀ task ∈ s.tasksIn place, (s.memory.tasks task).isSome) ∧
    (∃ live : Finset Task, (∀ task, task ∈ live ↔ (s.memory.tasks task).isSome) ∧
      s.memory.remainingTasks = live.card + total WorkerPc.uncreated s.workers +
        total WorkerPc.undiscounted s.workers) ∧
    (∀ self other task, (s.workers self).Runs task → (s.workers other).Runs task →
      self = other) ∧
    (∀ self task, (s.workers self).Runs task →
      ∃ value, s.memory.tasks task = some value ∧ value.state = .paused) ∧
    (∀ self, s.workers self ≠ .fatal) ∧
    ((∃ self, s.workers self = .exited) →
      s.memory.remainingTasks = 0 ∧ ∀ task, s.memory.tasks task = none) := by
  obtain ⟨live, h⟩ := Conserves.of_run hrun
  have hnodup : (total s.tasksIn id).Nodup := by
    rw [total_tasksIn]
    exact h.nodup
  have hmem : ∀ {task}, task ∈ total s.tasksIn id ↔ (s.memory.tasks task).isSome := by
    intro task
    rw [total_tasksIn, h.places]
    exact h.allocated task
  have hhands : ∀ {self task}, (s.workers self).Runs task → task ∈ (s.workers self).hands :=
    fun hruns ↦ Multiset.mem_add.mpr (.inl hruns.mem_held)
  refine ⟨fun task hsome ↦ existsUnique_of_mem_total hnodup (hmem.mpr hsome),
    fun place ↦ ⟨?_, fun task htask ↦ hmem.mp (mem_total.mpr ⟨place, htask⟩)⟩,
    ⟨live, h.allocated, h.remaining⟩,
    fun self other task hself hother ↦ h.eq_of_mem_hands (hhands hself) (hhands hother),
    fun self task hruns ↦ ?_, h.notFatal, fun ⟨self, hexited⟩ ↦ ?_⟩
  · exact Multiset.nodup_of_le (Finset.single_le_sum (fun _ _ ↦ Multiset.zero_le _)
      (Finset.mem_univ place)) hnodup
  · obtain ⟨value, hvalue⟩ := Option.isSome_iff_exists.mp
      (h.isSome_of_mem (Conserves.mem_places_of_hands (hhands hruns)))
    refine ⟨value, hvalue, h.state_eq_paused (hhands hruns) ?_ hvalue⟩
    rcases hruns with hpc | hpc <;> rw [hpc] <;> exact nofun
  · have hzero := h.exited self hexited
    refine ⟨hzero, fun task ↦ Option.not_isSome_iff_eq_none.mp fun hsome ↦ ?_⟩
    have hin := hmem.mpr hsome
    rw [total_tasksIn, (h.places_eq_zero hzero).1] at hin
    exact Multiset.notMem_zero task hin

/-- One worker runs a task, which returns, and leaves its loop. -/
def runTask : List (Label 1 ℕ Unit Unit) :=
  [⟨0, .silent⟩, ⟨0, .silent⟩, ⟨0, .silent⟩, ⟨0, .silent⟩, ⟨0, .resume 0⟩, ⟨0, .request 0 .ret⟩,
    ⟨0, .silent⟩, ⟨0, .silent⟩, ⟨0, .silent⟩, ⟨0, .silent⟩, ⟨0, .silent⟩]

theorem scheffRun_step {labels : List (Label 1 ℕ Unit Unit)} {s : State 1 ℕ Unit Unit}
    {pc : WorkerPc ℕ Unit Unit} {memory : Memory 1 ℕ Unit Unit}
    (hrun : (scheffRun 1 ℕ Unit Unit).Run (fun _ _ ↦ True) labels s)
    (hadvance : (s.workers 0).advance 0 ⟨.ret, true, 0⟩ s.memory = some (pc, memory)) :
    (scheffRun 1 ℕ Unit Unit).Run (fun _ _ ↦ True)
      (labels ++ [⟨0, (s.workers 0).event ⟨.ret, true, 0⟩ s.memory⟩])
      { memory := memory, workers := Function.update s.workers 0 pc } :=
  hrun.step trivial (.worker hadvance)

theorem run_runTask : ∃ s, (scheffRun 1 ℕ Unit Unit).Run (fun _ _ ↦ True) runTask s ∧
    s.workers 0 = .exited := by
  have hstart : (scheffRun 1 ℕ Unit Unit).Run (fun _ _ ↦ True) []
      ⟨scheffSchedule scheffInit 0, fun _ ↦ .pop⟩ := .start ⟨.schedule .init rfl, fun _ ↦ rfl⟩
  have hpop := scheffRun_step hstart rfl
  have hstate := scheffRun_step hpop rfl
  have hpoll := scheffRun_step hstate rfl
  have hclear := scheffRun_step hpoll rfl
  have hresume := scheffRun_step hclear rfl
  have hreturn := scheffRun_step hresume rfl
  have hfinalize := scheffRun_step hreturn rfl
  have hsub := scheffRun_step hfinalize rfl
  have hempty := scheffRun_step hsub rfl
  have hsteal := scheffRun_step hempty rfl
  exact ⟨_, scheffRun_step hsteal rfl, rfl⟩

theorem task_conservation_runTask :
    ∃ s, (scheffRun 1 ℕ Unit Unit).Run (fun _ _ ↦ True) runTask s ∧
      s.workers 0 = .exited ∧ ∀ task, s.memory.tasks task = none := by
  obtain ⟨s, hrun, hexited⟩ := run_runTask
  obtain ⟨-, -, -, -, -, -, hnone⟩ := task_conservation hrun
  exact ⟨s, hrun, hexited, (hnone ⟨0, hexited⟩).2⟩

end Libseff.Scheduler
