import Libseff.Scheduler.Conservation

/-!
# The order of a wake

A worker takes the task that it runs out of the slot of its queue, or finds the slot empty, and
fills it only where it is done with a request: in every state of a run the slot is empty while the
worker looks at a task, runs it, or handles a fork (`SlotEmptied`). So the first waker of a `wake`
goes to an empty slot, each further one moves the one before it to the ring (`WakeProgress`), and
behind them comes the task that issued the request, or it is freed.
-/

set_option autoImplicit false
set_option relaxedAutoImplicit false

namespace Libseff.Scheduler

open Foundation Coroutine Queues Queues.TlQueue

variable {n : ℕ} {Task Cond Arg : Type*}

/-- The operation of the next step of a worker on a queue. -/
def WorkerPc.access (self : Fin n) :
    WorkerPc Task Cond Arg → Option (Fin n × TlQueue.Operation Task)
  | .pop => some (self, .pop)
  | .steal i => if i < n then some (victim self i, .steal) else none
  | .enqueueForked task _ => some (self, .push task)
  | .enqueuePriority newTask => some (self, .priorityPush newTask)
  | .wake _ (waker :: _) _ => some (self, .priorityPush waker)
  | .enqueue task => some (self, .push task)
  | _ => none

/-- The queues after an operation on one of them. -/
def operate (queues : Fin n → Option Task × List Task) :
    Option (Fin n × TlQueue.Operation Task) → Fin n → Option Task × List Task
  | none => queues
  | some (accessed, operation) =>
    Function.update queues accessed (slotFifo.apply operation (queues accessed)).1

variable {self other : Fin n}

/-- The points at which the slot of the worker's own queue is empty: from the pop to the end of the
request, where it is filled. -/
def WorkerPc.Emptied : WorkerPc Task Cond Arg → Prop
  | .pop => False
  | .finalize _ => False
  | .subRemaining => False
  | .wake _ _ _ => False
  | .enqueue _ => False
  | _ => True

theorem slot_pop (queue : Option Task × List Task) : (slotFifo.apply .pop queue).1.1 = none := by
  obtain ⟨slot, ring⟩ := queue
  cases slot <;> rfl

/-- The operations of other workers leave the slot. -/
theorem slot_operate_of_ne (queues : Fin n → Option Task × List Task) (hne : other ≠ self)
    (pc : WorkerPc Task Cond Arg) :
    (operate queues (pc.access self) other).1 = (queues other).1 := by
  cases pc with
  | steal i =>
    simp only [WorkerPc.access]
    split_ifs
    · by_cases hvictim : other = victim self i
      · subst hvictim
        simp only [operate, Function.update_self]
        rfl
      · simp only [operate, Function.update_of_ne hvictim]
    · rfl
  | wake task wakers again =>
    cases wakers with
    | nil => rfl
    | cons waker wakers => exact congrArg Prod.fst (Function.update_of_ne hne _ _)
  | pop | enqueueForked | enqueuePriority | enqueue =>
    exact congrArg Prod.fst (Function.update_of_ne hne _ _)
  | _ => rfl

/-- How far a worker is with a wake, and what its queue holds there: the wakers that it has enqueued
behind the former contents of the ring, the last of them in the slot. -/
def WakeProgress (task : Task) (wakers : List Task) (resume : Bool) (ring : List Task)
    (queue : Option Task × List Task) : WorkerPc Task Cond Arg → Prop
  | .wake current rest again => current = task ∧ again = resume ∧ ∃ enqueued,
      wakers = enqueued ++ rest ∧ queue = (enqueued.getLast?, ring ++ enqueued.dropLast)
  | .enqueue current =>
      current = task ∧ resume = true ∧ queue = (wakers.getLast?, ring ++ wakers.dropLast)
  | .finalize current =>
      current = task ∧ resume = false ∧ queue = (wakers.getLast?, ring ++ wakers.dropLast)
  | .subRemaining => resume = false ∧ queue = (wakers.getLast?, ring ++ wakers.dropLast)
  | .pop =>
      queue = (wakers.getLast?, ring ++ wakers.dropLast ++ if resume then [task] else [])
  | _ => False

theorem dropLast_append_toList (list : List Task) :
    list.dropLast ++ list.getLast?.toList = list := by
  cases hlast : list.getLast? with
  | none => simp [List.getLast?_eq_none_iff.mp hlast]
  | some last => exact List.dropLast_append_getLast? last hlast

/-- A waker moves the one before it to the ring. -/
theorem priorityPush_enqueued (ring enqueued : List Task) (waker : Task) :
    (slotFifo.apply (.priorityPush waker) (enqueued.getLast?, ring ++ enqueued.dropLast)).1 =
      ((enqueued ++ [waker]).getLast?, ring ++ (enqueued ++ [waker]).dropLast) := by
  rw [List.getLast?_concat, List.dropLast_concat]
  change (some waker, ring ++ enqueued.dropLast ++ enqueued.getLast?.toList) = _
  rw [List.append_assoc, dropLast_append_toList]

/-- A task in a queue is in its ring or its slot. -/
theorem exists_place_of_queued {s : State n Task Cond Arg} {task : Task}
    (hmem : task ∈ queued (s.memory.queues self)) :
    ∃ place, task ∈ s.tasksIn place ∧ ∀ other, place ≠ .worker other := by
  rcases Multiset.mem_add.mp hmem with hslot | hring
  · exact ⟨.slot self, hslot, nofun⟩
  · exact ⟨.ring self, hring, nofun⟩

theorem mem_queued_enqueued {task : Task} (ring wakers rest : List Task) :
    task ∈ queued (wakers.getLast?, ring ++ wakers.dropLast ++ rest) ↔
      task ∈ ring ∨ task ∈ wakers ∨ task ∈ rest := by
  have hwakers : task ∈ wakers ↔ task ∈ wakers.dropLast ∨ task ∈ wakers.getLast?.toList := by
    rw [← List.mem_append, dropLast_append_toList]
  simp only [queued, Multiset.mem_add, Multiset.mem_coe, List.mem_append, hwakers]
  tauto

section Steps

variable [DecidableEq Task] {choice : Choice Task Cond Arg}
  {m memory : Memory n Task Cond Arg} {pc pc' : WorkerPc Task Cond Arg}

theorem Request.queues_handle {task : Task} {value : TaskT Cond Arg}
    {request : Request Task Cond Arg} (hhandle : request.handle task value m = some (pc, memory)) :
    memory.queues = m.queues := by
  cases request with
  | wake wakers again =>
    simp only [Request.handle] at hhandle
    split_ifs at hhandle
    rw [← (Prod.mk.inj (Option.some.inj hhandle)).2]
  | _ => rw [← (Prod.mk.inj (Option.some.inj hhandle)).2]; first | done | rfl

/-- A step does its operation, and leaves the other queues. -/
theorem WorkerPc.queues_advance (hadvance : pc.advance self choice m = some (pc', memory)) :
    memory.queues = operate m.queues (pc.access self) := by
  cases pc with
  | steal i =>
    simp only [advance, access] at hadvance ⊢
    split_ifs at hadvance ⊢ <;> rw [← (Prod.mk.inj (Option.some.inj hadvance)).2] <;> rfl
  | running task =>
    obtain ⟨value, -, hhandle⟩ := Option.bind_eq_some_iff.mp hadvance
    exact Request.queues_handle hhandle
  | wake task wakers again =>
    cases wakers with
    | cons waker wakers => rw [← (Prod.mk.inj (Option.some.inj hadvance)).2]; rfl
    | nil => cases again <;> rw [← (Prod.mk.inj (Option.some.inj hadvance)).2] <;> rfl
  | loadRemaining | create | mustSleep =>
    simp only [advance] at hadvance
    split_ifs at hadvance <;> rw [← (Prod.mk.inj (Option.some.inj hadvance)).2] <;> rfl
  | checkState | checkPoll =>
    obtain ⟨value, -, hcheck⟩ := Option.bind_eq_some_iff.mp hadvance
    split_ifs at hcheck <;> rw [← (Prod.mk.inj (Option.some.inj hcheck)).2] <;> rfl
  | clearPoll | setPoll =>
    obtain ⟨value, -, hwrite⟩ := Option.bind_eq_some_iff.mp hadvance
    rw [← (Prod.mk.inj (Option.some.inj hwrite)).2]
    rfl
  | exited | fatal => cases hadvance
  | _ =>
    rw [← (Prod.mk.inj (Option.some.inj hadvance)).2]
    rfl

/-- A worker comes to such a point by emptying the slot, or from such a point. -/
theorem slot_advance (hslot : pc.Emptied → (m.queues self).1 = none)
    (hadvance : pc.advance self choice m = some (pc', memory)) (hemptied : pc'.Emptied) :
    (memory.queues self).1 = none := by
  rw [WorkerPc.queues_advance hadvance]
  cases pc with
  | pop => simp only [WorkerPc.access, operate, Function.update_self, slot_pop]
  | steal i =>
    simp only [WorkerPc.access]
    split_ifs
    · by_cases hvictim : self = victim self i
      · simp only [operate]
        rw [← hvictim, Function.update_self]
        exact hslot trivial
      · simp only [operate, Function.update_of_ne hvictim]
        exact hslot trivial
    · exact hslot trivial
  | enqueueForked task newTask =>
    simp only [WorkerPc.access, operate, Function.update_self]
    exact hslot trivial
  | enqueuePriority | finalize | subRemaining | enqueue =>
    rw [← (Prod.mk.inj (Option.some.inj hadvance)).1] at hemptied
    exact hemptied.elim
  | wake task wakers again =>
    cases wakers with
    | cons waker wakers =>
      rw [← (Prod.mk.inj (Option.some.inj hadvance)).1] at hemptied
      exact hemptied.elim
    | nil =>
      cases again <;> rw [← (Prod.mk.inj (Option.some.inj hadvance)).1] at hemptied <;>
        exact hemptied.elim
  | _ => exact hslot trivial

/-- The slot is empty where the worker has emptied it. -/
def SlotEmptied (s : State n Task Cond Arg) : Prop :=
  ∀ self, (s.workers self).Emptied → (s.memory.queues self).1 = none

theorem SlotEmptied.step {s after : State n Task Cond Arg} {label : Label n Task Cond Arg}
    (h : SlotEmptied s) (hstep : Step s label after) : SlotEmptied after := by
  obtain ⟨choice, pc, memory, hadvance, -, rfl⟩ := hstep.advance
  intro other
  dsimp only
  by_cases hother : other = label.self
  · subst hother
    rw [Function.update_self]
    exact slot_advance (h label.self) hadvance
  · rw [Function.update_of_ne hother, WorkerPc.queues_advance hadvance,
      slot_operate_of_ne _ hother]
    exact h other

theorem slotEmptied_of_run [NeZero n] {labels : List (Label n Task Cond Arg)}
    {s : State n Task Cond Arg}
    (hrun : (scheffRun n Task Cond Arg).Run (fun _ _ ↦ True) labels s) : SlotEmptied s := by
  refine hrun.invariant (fun s hstart self hemptied ↦ ?_) fun _ _ _ h _ hstep ↦ h.step hstep
  rw [hstart.2 self] at hemptied
  exact hemptied.elim

/-! ### The loop of a wake -/

variable {task : Task} {wakers : List Task} {resume : Bool} {ring : List Task}

/-- A step of the worker. -/
theorem WakeProgress.advance
    (h : WakeProgress task wakers resume ring (m.queues self) pc) (hpc : pc ≠ .pop)
    (hadvance : pc.advance self choice m = some (pc', memory)) :
    WakeProgress task wakers resume ring (memory.queues self) pc' := by
  rw [WorkerPc.queues_advance hadvance]
  cases pc with
  | wake current rest again =>
    obtain ⟨rfl, rfl, enqueued, rfl, hqueue⟩ := h
    cases rest with
    | cons waker rest =>
      rw [← (Prod.mk.inj (Option.some.inj hadvance)).1]
      refine ⟨rfl, rfl, enqueued ++ [waker], by simp, ?_⟩
      simp only [WorkerPc.access, operate, Function.update_self]
      rw [hqueue, priorityPush_enqueued]
    | nil =>
      rw [List.append_nil]
      cases again <;> rw [← (Prod.mk.inj (Option.some.inj hadvance)).1] <;>
        exact ⟨rfl, rfl, hqueue⟩
  | enqueue current =>
    obtain ⟨rfl, rfl, hqueue⟩ := h
    rw [← (Prod.mk.inj (Option.some.inj hadvance)).1]
    simp only [WorkerPc.access, operate, Function.update_self]
    rw [hqueue]
    rfl
  | finalize current =>
    obtain ⟨rfl, rfl, hqueue⟩ := h
    rw [← (Prod.mk.inj (Option.some.inj hadvance)).1]
    exact ⟨rfl, hqueue⟩
  | subRemaining =>
    obtain ⟨rfl, hqueue⟩ := h
    rw [← (Prod.mk.inj (Option.some.inj hadvance)).1]
    change m.queues self = (_, _ ++ [])
    rw [List.append_nil]
    exact hqueue
  | pop => exact absurd rfl hpc
  | _ => exact h.elim

/-- A step of another worker that does not steal from the queue. -/
theorem queue_advance_of_ne (hne : other ≠ self)
    (hsteal : ∀ i, pc = .steal i → victim self i ≠ other)
    (hadvance : pc.advance self choice m = some (pc', memory)) :
    memory.queues other = m.queues other := by
  rw [WorkerPc.queues_advance hadvance]
  cases pc with
  | steal i =>
    simp only [WorkerPc.access]
    split_ifs
    · exact Function.update_of_ne (hsteal i rfl).symm _ _
    · rfl
  | wake task wakers again =>
    cases wakers with
    | nil => rfl
    | cons waker wakers => exact Function.update_of_ne hne _ _
  | pop | enqueueForked | enqueuePriority | enqueue => exact Function.update_of_ne hne _ _
  | _ => rfl

/-- How many steps a worker takes at most until it is done with a wake. -/
def WorkerPc.stepsLeft : WorkerPc Task Cond Arg → ℕ
  | .wake _ wakers _ => wakers.length + 3
  | .finalize _ => 2
  | .subRemaining => 1
  | .enqueue _ => 1
  | _ => 0

/-- A worker that handles a wake is not stuck, and comes closer to its end. -/
theorem WakeProgress.exists_advance
    (h : WakeProgress task wakers resume ring (m.queues self) pc) (hpc : pc ≠ .pop)
    (choice : Choice Task Cond Arg) : ∃ pc' memory,
      pc.advance self choice m = some (pc', memory) ∧ pc'.stepsLeft < pc.stepsLeft := by
  cases pc with
  | wake current rest again =>
    cases rest with
    | cons waker rest => exact ⟨_, _, rfl, Nat.lt_succ_self _⟩
    | nil => cases again <;> exact ⟨_, _, rfl, by simp [WorkerPc.stepsLeft]⟩
  | enqueue | finalize | subRemaining => exact ⟨_, _, rfl, by simp [WorkerPc.stepsLeft]⟩
  | pop => exact absurd rfl hpc
  | _ => exact h.elim

/-- What a wake changes where it is issued. Its wakers were in the hands of the tasks. -/
theorem Step.wake_request {s start : State n Task Cond Arg}
    (hrunning : s.workers self = .running task)
    (hrequest : Step s ⟨self, .request task (.wake wakers resume)⟩ start) :
    (wakers : Multiset Task) ≤ s.memory.wakers ∧ (s.memory.tasks task).isSome ∧
      start =
        { memory := { s.memory with wakers := s.memory.wakers - wakers }
          workers := Function.update s.workers self (.wake task wakers resume) } := by
  obtain ⟨choice, pc, memory, hadvance, hevent, hafter⟩ := hrequest.advance
  dsimp only at hadvance hevent hafter
  rw [hrunning] at hadvance hevent
  injection hevent with _ hchoice
  obtain ⟨value, hvalue, hhandle⟩ := Option.bind_eq_some_iff.mp hadvance
  rw [← hchoice] at hhandle
  simp only [Request.handle] at hhandle
  split_ifs at hhandle with hle
  obtain ⟨rfl, rfl⟩ := Prod.mk.inj (Option.some.inj hhandle)
  exact ⟨hle, by rw [hvalue]; rfl, hafter⟩

/-- The last waker is what the next pop takes. -/
theorem Step.pop_slot {s after : State n Task Cond Arg} {label : Label n Task Cond Arg}
    (hstep : Step s label after) (hpc : s.workers label.self = .pop) {last : Task}
    (hlast : (s.memory.queues label.self).1 = some last) :
    after.workers label.self = .checkState last := by
  obtain ⟨choice, pc, memory, hadvance, -, rfl⟩ := hstep.advance
  rw [hpc] at hadvance
  rw [← (Prod.mk.inj (Option.some.inj hadvance)).1]
  dsimp only
  rw [Function.update_self, show s.memory.queues label.self = (some last, _) from
    Prod.ext hlast rfl]
  rfl

/-- A worker has not come to its next pop, and no other one steals from its queue. -/
def Undisturbed (self : Fin n) (s : State n Task Cond Arg) (label : Label n Task Cond Arg) : Prop :=
  s.workers self ≠ .pop ∧
    (label.self ≠ self → ∀ i, s.workers label.self = .steal i → victim label.self i ≠ self)

/-- A worker has freed a task on the way. -/
def Freed [NeZero n] (start : State n Task Cond Arg) (self : Fin n) (task : Task)
    (labels : List (Label n Task Cond Arg)) : Prop :=
  ∃ before behind s after, labels = before ++ ⟨self, .silent⟩ :: behind ∧
    ((scheffRun n Task Cond Arg).startedIn start).Run (Undisturbed self) before s ∧
    s.workers self = .finalize task ∧ Step s ⟨self, .silent⟩ after ∧
    after.memory.tasks task = none

variable [NeZero n] {start s after : State n Task Cond Arg}
  {labels : List (Label n Task Cond Arg)}

theorem Freed.append (h : Freed start self task labels) (label : Label n Task Cond Arg) :
    Freed start self task (labels ++ [label]) := by
  obtain ⟨before, behind, s, after, rfl, hrest⟩ := h
  exact ⟨before, behind ++ [label], s, after, by simp, hrest⟩

/-- A worker that is done with the wakers has freed the task that is not resumed. -/
def Discharged (start : State n Task Cond Arg) (self : Fin n) (task : Task) (resume : Bool)
    (labels : List (Label n Task Cond Arg)) (s : State n Task Cond Arg) : Prop :=
  resume = false → s.workers self = .subRemaining ∨ s.workers self = .pop →
    Freed start self task labels

/-- What holds while a worker handles a wake. -/
structure Waking (start : State n Task Cond Arg) (worker : Fin n) (task : Task)
    (wakers : List Task) (resume : Bool) (ring : List Task)
    (labels : List (Label n Task Cond Arg)) (s : State n Task Cond Arg) : Prop where
  run : ((scheffRun n Task Cond Arg).startedIn start).Run (Undisturbed worker) labels s
  progress : WakeProgress task wakers resume ring (s.memory.queues worker) (s.workers worker)
  discharged : Discharged start worker task resume labels s

theorem Waking.step (h : Waking start self task wakers resume ring labels s)
    {label : Label n Task Cond Arg} (hundisturbed : Undisturbed self s label)
    (hstep : Step s label after) :
    Waking start self task wakers resume ring (labels ++ [label]) after := by
  obtain ⟨choice, pc, memory, hadvance, hevent, hafter⟩ := hstep.advance
  by_cases hself : label.self = self
  · obtain ⟨stepping, event⟩ := label
    obtain rfl : self = stepping := hself.symm
    have hprogress := h.progress.advance hundisturbed.1 hadvance
    refine ⟨h.run.step hundisturbed hstep, ?_, fun hresume hdone ↦ ?_⟩
    · rw [hafter]
      dsimp only
      rwa [Function.update_self]
    · have hold := h.progress
      cases hpc : s.workers self with
      | finalize current =>
        rw [hpc] at hold hevent hadvance
        obtain ⟨rfl, -, -⟩ := hold
        obtain rfl : event = .silent := hevent
        refine ⟨labels, [], s, after, rfl, h.run, hpc, hstep, ?_⟩
        rw [hafter, ← (Prod.mk.inj (Option.some.inj hadvance)).2]
        exact Function.update_self ..
      | subRemaining => exact (h.discharged hresume (.inl hpc)).append _
      | pop => exact absurd hpc hundisturbed.1
      | wake current rest again =>
        rw [hafter] at hdone
        dsimp only at hdone
        rw [Function.update_self] at hdone
        rw [hpc] at hold hadvance
        obtain ⟨rfl, rfl, -⟩ := hold
        subst hresume
        cases rest <;> rw [← (Prod.mk.inj (Option.some.inj hadvance)).1] at hdone <;>
          exact hdone.elim nofun nofun
      | enqueue current =>
        rw [hpc] at hold
        rw [hold.2.1] at hresume
        cases hresume
      | _ =>
        rw [hpc] at hold
        exact hold.elim
  · have hstays : after.workers self = s.workers self := by
      rw [hafter]
      exact Function.update_of_ne (Ne.symm hself) _ _
    have hqueue : after.memory.queues self = s.memory.queues self := by
      rw [hafter]
      exact queue_advance_of_ne (Ne.symm hself) (hundisturbed.2 hself) hadvance
    refine ⟨h.run.step hundisturbed hstep, ?_, fun hresume hdone ↦ ?_⟩
    · rw [hstays, hqueue]
      exact h.progress
    · rw [hstays] at hdone
      exact (h.discharged hresume hdone).append _

theorem waking_of_run (hstart : s.workers self = .running task)
    (hslot : (s.memory.queues self).1 = none)
    (hrequest : Step s ⟨self, .request task (.wake wakers resume)⟩ start)
    (hrun : ((scheffRun n Task Cond Arg).startedIn start).Run (Undisturbed self) labels after) :
    Waking start self task wakers resume (s.memory.queues self).2 labels after := by
  induction hrun with
  | @start state h =>
    obtain rfl : start = state := h.symm
    obtain ⟨-, -, hafter⟩ := hrequest.wake_request hstart
    have hpc : start.workers self = .wake task wakers resume := by
      rw [hafter]
      exact Function.update_self ..
    refine ⟨.start rfl, ?_, fun _ hdone ↦ ?_⟩
    · rw [hpc]
      refine ⟨rfl, rfl, [], rfl, ?_⟩
      rw [hafter]
      exact Prod.ext hslot (List.append_nil _).symm
    · rw [hpc] at hdone
      exact hdone.elim nofun nofun
  | step _ hundisturbed hstep ih => exact ih.step hundisturbed hstep

/-- A worker that handles a wake comes to its next pop by steps of its own. -/
theorem Waking.exists_finish
    (h : Waking start self task wakers resume ring labels s) : ∃ further after,
      ((scheffRun n Task Cond Arg).startedIn start).Run (Undisturbed self) (labels ++ further)
        after ∧ after.workers self = .pop := by
  induction hleft : (s.workers self).stepsLeft using Nat.strong_induction_on
    generalizing labels s with
  | _ left ih =>
    by_cases hpc : s.workers self = .pop
    · exact ⟨[], s, by rw [List.append_nil]; exact h.run, hpc⟩
    · -- neither the request nor the answer matters for these steps
      let choice : Choice Task Cond Arg := ⟨.ret, true, task⟩
      obtain ⟨pc, memory, hadvance, hless⟩ := h.progress.exists_advance hpc choice
      have hundisturbed : Undisturbed self s ⟨self, (s.workers self).event choice s.memory⟩ :=
        ⟨hpc, fun hne ↦ absurd rfl hne⟩
      have hstep := h.step hundisturbed (.worker hadvance)
      obtain ⟨further, after, hrun, hdone⟩ := ih _ (hleft ▸ hless) hstep
        (congrArg WorkerPc.stepsLeft (Function.update_self ..))
      rw [List.append_assoc] at hrun
      exact ⟨_, after, hrun, hdone⟩

/-- **The order of a wake.** In every state of every run the slot of a worker's queue is empty when
its task issues a request. If that is a wake, the worker comes to its next pop, and the ring it
finds there is the former one, followed by the wakers except the last one, which is in the slot, and
by the task that issued the request if it is resumed. Otherwise the worker has freed the task and
not enqueued it. Each waker is in one place, and the last one is what the pop takes.

Assumes: no steal from the queue in between. -/
theorem wake_order (hrun : (scheffRun n Task Cond Arg).Run (fun _ _ ↦ True) labels s)
    (hrunning : s.workers self = .running task) :
    (s.memory.queues self).1 = none ∧
    ∀ wakers resume start, Step s ⟨self, .request task (.wake wakers resume)⟩ start →
      wakers.Nodup ∧
      (∀ handled state, ((scheffRun n Task Cond Arg).startedIn start).Run (Undisturbed self)
          handled state → ∃ further after,
        ((scheffRun n Task Cond Arg).startedIn start).Run (Undisturbed self)
          (handled ++ further) after ∧ after.workers self = .pop) ∧
      ∀ handled after, ((scheffRun n Task Cond Arg).startedIn start).Run (Undisturbed self)
          handled after → after.workers self = .pop →
        after.memory.queues self = (wakers.getLast?, (s.memory.queues self).2 ++ wakers.dropLast ++
          if resume then [task] else []) ∧
        (∀ waker ∈ wakers, ∃! place, waker ∈ after.tasksIn place) ∧
        (resume = false → Freed start self task handled ∧
          task ∉ queued (after.memory.queues self)) ∧
        ∀ last, wakers.getLast? = some last → ∀ label next, label.self = self →
          Step after label next → next.workers self = .checkState last := by
  have hslot : (s.memory.queues self).1 = none := by
    refine slotEmptied_of_run hrun self ?_
    rw [hrunning]
    trivial
  refine ⟨hslot, fun wakers resume start hrequest ↦ ?_⟩
  obtain ⟨hwakers, hsome, -⟩ := hrequest.wake_request hrunning
  obtain ⟨hunique, hplaces, -⟩ := task_conservation hrun
  have hin : (wakers : Multiset Task) ≤ s.tasksIn .waker :=
    hwakers.trans (Multiset.le_add_right _ _)
  have hother : ∀ place, place ≠ .worker self → task ∉ s.tasksIn place := by
    intro place hne hmem
    have hheld : task ∈ s.tasksIn (.worker self) := by
      change task ∈ (s.workers self).held
      rw [hrunning]
      exact Multiset.mem_singleton_self task
    exact hne ((hunique task hsome).unique hmem hheld)
  refine ⟨?_, fun handled state hhandled ↦ ?_, fun handled after hhandled hdone ↦ ?_⟩
  · exact Multiset.coe_nodup.mp (Multiset.nodup_of_le hin (hplaces .waker).1)
  · exact (waking_of_run hrunning hslot hrequest hhandled).exists_finish
  have hwaking := waking_of_run hrunning hslot hrequest hhandled
  have hqueue : after.memory.queues self = _ := hdone ▸ hwaking.progress
  refine ⟨hqueue, fun waker hwaker ↦ ?_, fun hresume ↦ ⟨?_, ?_⟩, fun last hlast label next hself
    hstep ↦ ?_⟩
  · obtain ⟨hunique, hplaces, -⟩ :=
      task_conservation ((hrun.step trivial hrequest).append hhandled fun _ _ _ ↦ trivial)
    have hqueued : waker ∈ queued (after.memory.queues self) := by
      rw [hqueue, mem_queued_enqueued]
      exact .inr (.inl hwaker)
    obtain ⟨place, hmem, -⟩ := exists_place_of_queued hqueued
    exact hunique waker ((hplaces place).2 waker hmem)
  · exact hwaking.discharged hresume (.inr hdone)
  · intro hmem
    rw [hqueue, hresume, mem_queued_enqueued] at hmem
    rcases hmem with hring | hwaker | hnone
    · exact hother (.ring self) nofun hring
    · exact hother .waker nofun (Multiset.mem_of_le hin hwaker)
    · exact absurd hnone List.not_mem_nil
  · subst hself
    refine hstep.pop_slot hdone ?_
    rw [hqueue]
    exact hlast

end Steps

/-- A worker advances with one choice after another. -/
def State.advances [DecidableEq Task] (s : State n Task Cond Arg) (self : Fin n) :
    List (Choice Task Cond Arg) → Option (List (Label n Task Cond Arg) × State n Task Cond Arg)
  | [] => some ([], s)
  | choice :: choices => do
    let (pc, memory) ← (s.workers self).advance self choice s.memory
    let (labels, after) ← State.advances
      { memory := memory, workers := Function.update s.workers self pc } self choices
    some (⟨self, (s.workers self).event choice s.memory⟩ :: labels, after)

theorem run_of_advances [NeZero n] [DecidableEq Task]
    {labels further : List (Label n Task Cond Arg)} {s after : State n Task Cond Arg} {self : Fin n}
    {choices : List (Choice Task Cond Arg)}
    (hrun : (scheffRun n Task Cond Arg).Run (fun _ _ ↦ True) labels s)
    (hadvances : s.advances self choices = some (further, after)) :
    (scheffRun n Task Cond Arg).Run (fun _ _ ↦ True) (labels ++ further) after := by
  induction choices generalizing labels further s with
  | nil =>
    obtain ⟨rfl, rfl⟩ := Prod.mk.inj (Option.some.inj hadvances)
    rw [List.append_nil]
    exact hrun
  | cons choice choices ih =>
    obtain ⟨⟨pc, memory⟩, hadvance, hfurther⟩ := Option.bind_eq_some_iff.mp hadvances
    obtain ⟨⟨rest, last⟩, hrest, hresult⟩ := Option.bind_eq_some_iff.mp hfurther
    obtain ⟨rfl, rfl⟩ := Prod.mk.inj (Option.some.inj hresult)
    have hstep := ih (hrun.step trivial (.worker hadvance)) hrest
    rw [List.append_assoc] at hstep
    exact hstep

theorem neZero_one : NeZero 1 := ⟨Nat.one_ne_zero⟩

attribute [local instance] neZero_one

/-- Two tasks before they are run. -/
def twoTasks : State 1 ℕ Unit Unit where
  memory := scheffSchedule (scheffSchedule scheffInit 0) 1
  workers _ := .pop

/-- Three tasks before they are run. -/
def threeTasks : State 1 ℕ Unit Unit where
  memory := scheffSchedule twoTasks.memory 2
  workers _ := .pop

/-- The first two sleep, and the third one runs. -/
def twoAsleep : List (Label 1 ℕ Unit Unit) × State 1 ℕ Unit Unit :=
  (threeTasks.advances 0 (List.replicate 21 ⟨.sleep, true, 0⟩)).getD ([], threeTasks)

theorem run_threeTasks : (scheffRun 1 ℕ Unit Unit).Run (fun _ _ ↦ True) [] threeTasks :=
  .start ⟨.schedule (.schedule (.schedule .init rfl) rfl) rfl, fun _ ↦ rfl⟩

theorem run_twoAsleep :
    (scheffRun 1 ℕ Unit Unit).Run (fun _ _ ↦ True) twoAsleep.1 twoAsleep.2 :=
  run_of_advances run_threeTasks
    (show threeTasks.advances 0 (List.replicate 21 ⟨.sleep, true, 0⟩) = some twoAsleep from rfl)

/-- The third task wakes the other two and goes on. -/
theorem wake_order_twoAsleep : ∃ start handled after,
    Step twoAsleep.2 ⟨0, .request 2 (.wake [0, 1] true)⟩ start ∧
    ((scheffRun 1 ℕ Unit Unit).startedIn start).Run (Undisturbed 0) handled after ∧
    after.memory.queues 0 = (some 1, [0, 2]) := by
  obtain ⟨-, hwake⟩ := wake_order run_twoAsleep (show twoAsleep.2.workers 0 = .running 2 from rfl)
  have hadvance : (twoAsleep.2.workers 0).advance 0 ⟨.wake [0, 1] true, true, 0⟩
      twoAsleep.2.memory =
        some (.wake 2 [0, 1] true, { twoAsleep.2.memory with wakers := 0 }) := rfl
  obtain ⟨-, hfinish, hqueue⟩ := hwake [0, 1] true _ (.worker hadvance)
  obtain ⟨further, after, hhandled, hdone⟩ := hfinish [] _ (.start rfl)
  exact ⟨_, _, after, .worker hadvance, hhandled, (hqueue _ after hhandled hdone).1⟩

end Libseff.Scheduler
