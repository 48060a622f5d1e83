import Libseff.Scheduler.WakeOrder

/-!
# The poll protocol

A task carries the condition of its last request through the queues: wherever it is not about to be
resumed, running, or about to get a new condition, its `poll_condition` and `poll_arg` are those of
the last request it issued, and without a condition where that request was no poll (`Polls`). Only
the worker that holds the task reads and writes them. So what a worker evaluates before it resumes a
task is the last request of that task, and a false condition goes back to the queue as it is.

What has happened so far is read off the labels of the run: the last request of a task
(`lastRequest`), and the last evaluation, resumption or request on a worker (`lastEvent`).
-/

set_option autoImplicit false
set_option relaxedAutoImplicit false

namespace Libseff.Scheduler

open Foundation Coroutine Queues Queues.TlQueue

variable {n : ℕ} {Task Cond Arg : Type*}

/-! ### What has happened -/

/-- What a worker has done last, after a further step. -/
def stepAfter (self : Fin n) (before : Option (Event Task Cond Arg))
    (label : Label n Task Cond Arg) : Option (Event Task Cond Arg) :=
  if label.self = self then some label.event else before

/-- What the last step of a worker showed. -/
def lastStep (self : Fin n) (labels : List (Label n Task Cond Arg)) :
    Option (Event Task Cond Arg) :=
  labels.foldl (stepAfter self) none

/-- The last event of a worker after a further step. -/
def eventAfter (self : Fin n) (before : Option (Event Task Cond Arg))
    (label : Label n Task Cond Arg) : Option (Event Task Cond Arg) :=
  if label.self = self then
    match label.event with
    | .silent => before
    | event => some event
  else before

/-- The last evaluation, resumption or request on a worker. -/
def lastEvent (self : Fin n) (labels : List (Label n Task Cond Arg)) :
    Option (Event Task Cond Arg) :=
  labels.foldl (eventAfter self) none

/-- The requests after which a task goes on. -/
def Request.continued : Request Task Cond Arg → Option (Request Task Cond Arg)
  | .ret => none
  | .wake _ false => none
  | request => some request

/-- The condition that a request polls. -/
def polled : Option (Request Task Cond Arg) → Option (Cond × Option Arg)
  | some (.poll (some pollCondition) pollArg) => some (pollCondition, pollArg)
  | _ => none

/-- The condition that a task carries. -/
def TaskT.polling (value : TaskT Cond Arg) : Option (Cond × Option Arg) :=
  value.pollCondition.map fun pollCondition ↦ (pollCondition, value.pollArg)

theorem polled_eq_some {request : Option (Request Task Cond Arg)} {pollCondition : Cond}
    {pollArg : Option Arg} (hpolled : polled request = some (pollCondition, pollArg)) :
    request = some (.poll (some pollCondition) pollArg) := by
  match request, hpolled with
  | some (.poll (some _) _), rfl => rfl

/-- Only a worker that resumes a task shows so. -/
theorem WorkerPc.eq_of_event_resume {pc : WorkerPc Task Cond Arg} {choice : Choice Task Cond Arg}
    {m : Memory n Task Cond Arg} {task : Task} (hevent : pc.event choice m = .resume task) :
    pc = .resume task := by
  cases pc with
  | checkPoll current =>
    simp only [event] at hevent
    split at hevent <;> cases hevent
  | resume current =>
    injection hevent with hevent
    rw [hevent]
  | _ => cases hevent

/-- Only a worker that checks the condition of a task shows its evaluation. -/
theorem WorkerPc.eq_of_event_evaluate {pc : WorkerPc Task Cond Arg}
    {choice : Choice Task Cond Arg} {m : Memory n Task Cond Arg} {task : Task}
    {pollCondition : Cond} {pollArg : Option Arg} {result : Bool}
    (hevent : pc.event choice m = .evaluate task pollCondition pollArg result) :
    pc = .checkPoll task ∧ ∃ value, m.tasks task = some value ∧
      value.polling = some (pollCondition, pollArg) := by
  cases pc with
  | checkPoll current =>
    simp only [event] at hevent
    split at hevent
    · rename_i hvalue
      injection hevent with hcurrent hcondition harg
      subst hcurrent hcondition harg
      exact ⟨rfl, _, hvalue, rfl⟩
    · cases hevent
  | _ => cases hevent

variable {self other : Fin n} {task : Task} {labels : List (Label n Task Cond Arg)}
  {event : Event Task Cond Arg}

theorem lastStep_append : lastStep self (labels ++ [⟨self, event⟩]) = some event := by
  simp [lastStep, stepAfter]

theorem lastStep_append_of_ne (hne : other ≠ self) :
    lastStep other (labels ++ [⟨self, event⟩]) = lastStep other labels := by
  simp [lastStep, stepAfter, hne.symm]

theorem lastEvent_append_silent :
    lastEvent self (labels ++ [⟨self, .silent⟩]) = lastEvent self labels := by
  simp [lastEvent, eventAfter]

theorem lastEvent_append (hevent : event ≠ .silent) :
    lastEvent self (labels ++ [⟨self, event⟩]) = some event := by
  rw [lastEvent, List.foldl_append]
  cases event with
  | silent => exact absurd rfl hevent
  | _ => exact if_pos rfl

theorem lastEvent_append_of_ne (hne : other ≠ self) :
    lastEvent other (labels ++ [⟨self, event⟩]) = lastEvent other labels := by
  simp [lastEvent, eventAfter, hne.symm]

theorem mem_hands_of_held {s : State n Task Cond Arg} (hmem : task ∈ (s.workers self).held) :
    task ∈ (s.workers self).hands :=
  Multiset.mem_add.mpr (.inl hmem)

section Requests

variable [DecidableEq Task]

/-- The last request of a task after a further step. With the other requests the task ends, and what
is allocated at its address later is another task. -/
def requestAfter (task : Task) (before : Option (Request Task Cond Arg))
    (label : Label n Task Cond Arg) : Option (Request Task Cond Arg) :=
  match label.event with
  | .request issuer request => if issuer = task then request.continued else before
  | _ => before

/-- The last request of the task at an address, unless it has issued none. -/
def lastRequest (task : Task) (labels : List (Label n Task Cond Arg)) :
    Option (Request Task Cond Arg) :=
  labels.foldl (requestAfter task) none

theorem lastRequest_append_request (request : Request Task Cond Arg) :
    lastRequest task (labels ++ [⟨self, .request task request⟩]) = request.continued := by
  simp [lastRequest, requestAfter]

/-- Only the task that issues a request changes its last one. -/
theorem lastRequest_append_of_ne (hevent : ∀ request, event ≠ .request task request) :
    lastRequest task (labels ++ [⟨self, event⟩]) = lastRequest task labels := by
  rw [lastRequest, List.foldl_append]
  cases event with
  | request issuer request =>
    refine if_neg fun heq ↦ hevent request ?_
    rw [heq]
  | _ => rfl

theorem lastRequest_append_silent :
    lastRequest task (labels ++ [⟨self, .silent⟩]) = lastRequest task labels :=
  lastRequest_append_of_ne nofun

/-! ### The invariant -/

/-- A worker is about to resume a task, runs it, or is about to give it a condition. -/
def WorkerPc.Unsettled (task : Task) : WorkerPc Task Cond Arg → Prop
  | .resume current => current = task
  | .running current => current = task
  | .setPoll current _ _ => current = task
  | _ => False

/-- What is known at the point of a worker. -/
def PollPoint (labels : List (Label n Task Cond Arg)) (m : Memory n Task Cond Arg) (self : Fin n) :
    WorkerPc Task Cond Arg → Prop
  | .clearPoll task => ∀ pollCondition pollArg,
      lastRequest task labels = some (.poll (some pollCondition) pollArg) →
      lastEvent self labels = some (.evaluate task pollCondition pollArg true)
  | .resume task => (∀ value, m.tasks task = some value → value.pollCondition = none) ∧
      ∀ pollCondition pollArg,
        lastRequest task labels = some (.poll (some pollCondition) pollArg) →
        lastEvent self labels = some (.evaluate task pollCondition pollArg true)
  | .running task => ∀ value, m.tasks task = some value → value.pollCondition = none
  | .setPoll task pollCondition pollArg =>
      lastRequest task labels = some (.poll pollCondition pollArg)
  | .finalize task => polled (lastRequest task labels) = none
  | .wake task _ false => polled (lastRequest task labels) = none
  | _ => True

/-- The conditions that the tasks carry are those of their last requests, and the workers evaluate
these. -/
structure Polls (labels : List (Label n Task Cond Arg)) (s : State n Task Cond Arg) : Prop where
  conserved : Conserves.Conserved s
  settled : ∀ task value, s.memory.tasks task = some value →
    (∀ self, ¬ (s.workers self).Unsettled task) → value.polling = polled (lastRequest task labels)
  absent : ∀ task, s.memory.tasks task = none → polled (lastRequest task labels) = none
  point : ∀ self, PollPoint labels s.memory self (s.workers self)
  evaluated : ∀ self task pollCondition pollArg,
    lastEvent self labels = some (.evaluate task pollCondition pollArg true) →
    s.workers self = .clearPoll task ∨ s.workers self = .resume task
  failed : ∀ self task pollCondition pollArg,
    lastStep self labels = some (.evaluate task pollCondition pollArg false) →
    s.workers self = .enqueue task ∧
      polled (lastRequest task labels) = some (pollCondition, pollArg)

omit [DecidableEq Task] in
theorem WorkerPc.Unsettled.mem_held {pc : WorkerPc Task Cond Arg} (h : pc.Unsettled task) :
    task ∈ pc.held := by
  cases pc with
  | resume | running | setPoll => exact Multiset.mem_singleton.mpr (Eq.symm h)
  | _ => exact h.elim

/-- The worker neither has a task that its request has not settled nor clears a condition. -/
def WorkerPc.Passive : WorkerPc Task Cond Arg → Prop
  | .clearPoll _ | .resume _ | .running _ | .setPoll .. => False
  | _ => True

omit [DecidableEq Task] in
theorem WorkerPc.Passive.settled {pc : WorkerPc Task Cond Arg} (h : pc.Passive) (task : Task) :
    ¬ pc.Unsettled task := by
  cases pc with
  | resume | running | setPoll => exact h.elim
  | _ => exact id

omit [DecidableEq Task] in
theorem WorkerPc.Passive.ne_clearPoll {pc : WorkerPc Task Cond Arg} (h : pc.Passive)
    (task : Task) : pc ≠ .clearPoll task := by
  rintro rfl
  exact h

omit [DecidableEq Task] in
theorem WorkerPc.Passive.ne_resume {pc : WorkerPc Task Cond Arg} (h : pc.Passive)
    (task : Task) : pc ≠ .resume task := by
  rintro rfl
  exact h

/-- What is known at a point depends on the tasks that the worker holds, and on its own events. -/
theorem PollPoint.congr {further : List (Label n Task Cond Arg)} {m memory : Memory n Task Cond Arg}
    {pc : WorkerPc Task Cond Arg} (h : PollPoint labels m self pc)
    (htasks : ∀ task ∈ pc.held, memory.tasks task = m.tasks task)
    (hrequests : ∀ task ∈ pc.held, lastRequest task further = lastRequest task labels)
    (hevents : lastEvent self further = lastEvent self labels) :
    PollPoint further memory self pc := by
  cases pc with
  | clearPoll task | resume task | running task | setPoll task | finalize task =>
    have htask := htasks task (Multiset.mem_singleton_self task)
    have hrequest := hrequests task (Multiset.mem_singleton_self task)
    simp only [PollPoint, htask, hrequest, hevents] at h ⊢
    exact h
  | wake task wakers again =>
    have hrequest := hrequests task (Multiset.mem_singleton_self task)
    cases again with
    | true => trivial
    | false => exact (congrArg polled hrequest).trans h
  | _ => trivial

namespace Polls

variable {s : State n Task Cond Arg} {pc : WorkerPc Task Cond Arg}
  {memory : Memory n Task Cond Arg} {choice : Choice Task Cond Arg}

/-- No other worker holds a task. -/
theorem not_held_of_ne (h : Polls labels s) (hmem : task ∈ (s.workers self).held)
    (hne : other ≠ self) : task ∉ (s.workers other).held := by
  obtain ⟨live, hconserves⟩ := h.conserved
  exact fun hother ↦ hne
    (hconserves.eq_of_mem_hands (mem_hands_of_held hother) (mem_hands_of_held hmem))

/-- A task that a worker holds is allocated. -/
theorem isSome_of_held (h : Polls labels s) (hmem : task ∈ (s.workers self).held) :
    (s.memory.tasks task).isSome := by
  obtain ⟨live, hconserves⟩ := h.conserved
  exact hconserves.isSome_of_mem (Conserves.mem_places_of_hands (mem_hands_of_held hmem))

/-- A task in the hands of a worker that is not about to resume it carries its last request. -/
theorem settled_of_held (h : Polls labels s) (hmem : task ∈ (s.workers self).held)
    (hsettled : ¬ (s.workers self).Unsettled task) {value : TaskT Cond Arg}
    (hvalue : s.memory.tasks task = some value) :
    value.polling = polled (lastRequest task labels) := by
  refine h.settled task value hvalue fun other hunsettled ↦ ?_
  by_cases hother : other = self
  · exact hsettled (hother ▸ hunsettled)
  · exact h.not_held_of_ne hmem hother hunsettled.mem_held

/-- A step of a worker changes only the tasks that it holds or creates. -/
theorem change (h : Polls labels s)
    (hstep : Step s ⟨self, event⟩
      { memory := memory, workers := Function.update s.workers self pc })
    (htasks : ∀ task, task ∉ (s.workers self).held → (s.memory.tasks task).isSome →
      memory.tasks task = s.memory.tasks task)
    (hrequests : ∀ task, task ∉ (s.workers self).held →
      lastRequest task (labels ++ [⟨self, event⟩]) = lastRequest task labels)
    (hsettled : ∀ task, task ∈ (s.workers self).held ∨ s.memory.tasks task = none →
      ∀ value, memory.tasks task = some value → ¬ pc.Unsettled task →
        value.polling = polled (lastRequest task (labels ++ [⟨self, event⟩])))
    (habsent : ∀ task ∈ (s.workers self).held, memory.tasks task = none →
      polled (lastRequest task (labels ++ [⟨self, event⟩])) = none)
    (hpoint : PollPoint (labels ++ [⟨self, event⟩]) memory self pc)
    (hevaluated : ∀ task pollCondition pollArg, lastEvent self (labels ++ [⟨self, event⟩]) =
      some (.evaluate task pollCondition pollArg true) → pc = .clearPoll task ∨ pc = .resume task)
    (hfailed : ∀ task pollCondition pollArg,
      event = .evaluate task pollCondition pollArg false →
      pc = .enqueue task ∧ polled (lastRequest task labels) = some (pollCondition, pollArg)) :
    Polls (labels ++ [⟨self, event⟩])
      { memory := memory, workers := Function.update s.workers self pc } := by
  have hkept : ∀ other ≠ self, ∀ task ∈ (s.workers other).held,
      memory.tasks task = s.memory.tasks task ∧
        lastRequest task (labels ++ [⟨self, event⟩]) = lastRequest task labels := by
    intro other hother task hmem
    have hnot := h.not_held_of_ne hmem (Ne.symm hother)
    exact ⟨htasks task hnot (h.isSome_of_held hmem), hrequests task hnot⟩
  refine ⟨?_, fun task value hvalue hnone ↦ ?_, fun task hnone ↦ ?_, fun other ↦ ?_,
    fun other task pollCondition pollArg hlast ↦ ?_,
    fun other task pollCondition pollArg hlast ↦ ?_⟩
  · obtain ⟨live, hconserves⟩ := h.conserved
    obtain ⟨choice, _, _, hadvance, -, hafter⟩ := hstep.advance
    rw [hafter]
    exact hconserves.advance hadvance
  · by_cases hmem : task ∈ (s.workers self).held ∨ s.memory.tasks task = none
    · have hself := hnone self
      dsimp only at hself
      rw [Function.update_self] at hself
      exact hsettled task hmem value hvalue hself
    · rw [not_or] at hmem
      have hsome := Option.isSome_iff_ne_none.mpr hmem.2
      rw [hrequests task hmem.1]
      refine h.settled task value (htasks task hmem.1 hsome ▸ hvalue) fun other hunsettled ↦ ?_
      by_cases hother : other = self
      · exact hmem.1 (hother ▸ hunsettled.mem_held)
      · refine hnone other ?_
        dsimp only
        rwa [Function.update_of_ne hother]
  · by_cases hmem : task ∈ (s.workers self).held
    · exact habsent task hmem hnone
    · rw [hrequests task hmem]
      refine h.absent task ?_
      by_contra hsome
      rw [← htasks task hmem (Option.isSome_iff_ne_none.mpr hsome)] at hsome
      exact hsome hnone
  · dsimp only
    by_cases hother : other = self
    · subst hother
      rwa [Function.update_self]
    · rw [Function.update_of_ne hother]
      exact (h.point other).congr (fun task hmem ↦ (hkept other hother task hmem).1)
        (fun task hmem ↦ (hkept other hother task hmem).2) (lastEvent_append_of_ne hother)
  · dsimp only
    by_cases hother : other = self
    · subst hother
      rw [Function.update_self]
      exact hevaluated task pollCondition pollArg hlast
    · rw [Function.update_of_ne hother]
      rw [lastEvent_append_of_ne hother] at hlast
      exact h.evaluated other task pollCondition pollArg hlast
  · dsimp only
    by_cases hother : other = self
    · subst hother
      rw [lastStep_append] at hlast
      have hevent := Option.some.inj hlast
      rw [Function.update_self, lastRequest_append_of_ne (by rw [hevent]; exact nofun)]
      exact hfailed task pollCondition pollArg hevent
    · rw [lastStep_append_of_ne hother] at hlast
      obtain ⟨hpc, hpolled⟩ := h.failed other task pollCondition pollArg hlast
      rw [Function.update_of_ne hother, (hkept other hother task ?_).2]
      · exact ⟨hpc, hpolled⟩
      · rw [hpc]
        exact Multiset.mem_singleton_self task

/-- A step that neither writes a task nor takes a request. -/
theorem quiet (h : Polls labels s)
    (hstep : Step s ⟨self, event⟩
      { memory := memory, workers := Function.update s.workers self pc })
    (htasks : memory.tasks = s.memory.tasks)
    (hevent : ∀ task request, event ≠ .request task request)
    (hunsettled : ∀ task, (s.workers self).Unsettled task → pc.Unsettled task)
    (hpoint : PollPoint (labels ++ [⟨self, event⟩]) memory self pc)
    (hevaluated : ∀ task pollCondition pollArg, lastEvent self (labels ++ [⟨self, event⟩]) =
      some (.evaluate task pollCondition pollArg true) → pc = .clearPoll task ∨ pc = .resume task)
    (hfailed : ∀ task pollCondition pollArg,
      event = .evaluate task pollCondition pollArg false →
      pc = .enqueue task ∧ polled (lastRequest task labels) = some (pollCondition, pollArg)) :
    Polls (labels ++ [⟨self, event⟩])
      { memory := memory, workers := Function.update s.workers self pc } := by
  have hrequests : ∀ task,
      lastRequest task (labels ++ [⟨self, event⟩]) = lastRequest task labels :=
    fun task ↦ lastRequest_append_of_ne (hevent task)
  refine h.change hstep (fun task _ _ ↦ by rw [htasks]) (fun task _ ↦ hrequests task)
    (fun task hmem value hvalue hnot ↦ ?_) (fun task hmem hnone ↦ ?_) hpoint hevaluated hfailed
  · rw [hrequests]
    rw [htasks] at hvalue
    rcases hmem with hheld | hnone
    · exact h.settled_of_held hheld (fun hold ↦ hnot (hunsettled task hold)) hvalue
    · rw [hnone] at hvalue
      cases hvalue
  · rw [hrequests]
    exact h.absent task (htasks ▸ hnone)

/-- A step that shows nothing does not follow a true evaluation, but for the one that removes the
condition and the one that resumes the task. -/
theorem lastEvent_append_silent_ne (h : Polls labels s)
    (hclear : ∀ task, s.workers self ≠ .clearPoll task)
    (hresume : ∀ task, s.workers self ≠ .resume task) {pollCondition : Cond}
    {pollArg : Option Arg} :
    lastEvent self (labels ++ [⟨self, .silent⟩]) ≠
      some (.evaluate task pollCondition pollArg true) := by
  intro hlast
  rw [lastEvent_append_silent] at hlast
  rcases h.evaluated self task pollCondition pollArg hlast with hpc | hpc
  · exact hclear task hpc
  · exact hresume task hpc

/-- A step that shows nothing, at a point that neither follows an evaluation nor a request. -/
theorem silent (h : Polls labels s)
    (hstep : Step s ⟨self, .silent⟩
      { memory := memory, workers := Function.update s.workers self pc })
    (htasks : memory.tasks = s.memory.tasks) (hpassive : (s.workers self).Passive)
    (hpoint : PollPoint (labels ++ [⟨self, .silent⟩]) memory self pc) :
    Polls (labels ++ [⟨self, .silent⟩])
      { memory := memory, workers := Function.update s.workers self pc } :=
  h.quiet hstep htasks nofun
    (fun task hunsettled ↦ absurd hunsettled (hpassive.settled task)) hpoint
    (fun _ _ _ hlast ↦ absurd hlast
      (h.lastEvent_append_silent_ne hpassive.ne_clearPoll hpassive.ne_resume)) nofun

/-- The condition of a task is evaluated as its last request tells. -/
theorem evaluate (h : Polls labels s) (hpc : s.workers self = .checkPoll task)
    (hstep : Step s ⟨self, event⟩
      { memory := memory, workers := Function.update s.workers self pc })
    (hadvance : (WorkerPc.checkPoll task).advance self choice s.memory = some (pc, memory))
    (hevent : event = (WorkerPc.checkPoll task).event choice s.memory) :
    Polls (labels ++ [⟨self, event⟩])
      { memory := memory, workers := Function.update s.workers self pc } := by
  obtain ⟨value, hvalue, hcheck⟩ := Option.bind_eq_some_iff.mp hadvance
  have hheld : task ∈ (s.workers self).held := by
    rw [hpc]
    exact Multiset.mem_singleton_self task
  have hpassive : (s.workers self).Passive := by
    rw [hpc]
    trivial
  have hpolled := h.settled_of_held hheld (hpassive.settled task) hvalue
  obtain ⟨state, pollCondition, pollArg⟩ := value
  simp only [WorkerPc.event, hvalue] at hevent
  cases pollCondition with
  | none =>
    rw [if_neg (by simp)] at hcheck
    obtain ⟨rfl, rfl⟩ := Prod.mk.inj (Option.some.inj hcheck)
    obtain rfl : event = .silent := hevent
    refine h.silent hstep rfl hpassive fun pollCondition pollArg hlast ↦ ?_
    rw [lastRequest_append_silent] at hlast
    rw [hlast] at hpolled
    cases hpolled
  | some pollCondition =>
    dsimp only at hevent
    have hlast : lastEvent self (labels ++ [⟨self, event⟩]) = some event :=
      lastEvent_append (by rw [hevent]; exact nofun)
    refine h.quiet hstep ?_ (by rw [hevent]; exact nofun)
      (fun task hunsettled ↦ absurd hunsettled (hpassive.settled task)) ?_ ?_ ?_
    · split_ifs at hcheck <;> rw [← (Prod.mk.inj (Option.some.inj hcheck)).2]
    · split_ifs at hcheck with hfalse <;> rw [← (Prod.mk.inj (Option.some.inj hcheck)).1]
      · trivial
      · intro polledCondition polledArg hrequest
        rw [lastRequest_append_of_ne (by rw [hevent]; exact nofun)] at hrequest
        rw [hrequest] at hpolled
        injection hpolled with hpolled
        injection hpolled with hcondition harg
        have htrue : choice.answer = true := by simpa using hfalse
        dsimp only at hcondition harg
        rw [hlast, hevent, hcondition, harg, htrue]
    · intro evaluated condition arg hevaluated
      rw [hlast, hevent] at hevaluated
      injection hevaluated with hevaluated
      injection hevaluated with hsame _ _ htrue
      rw [if_neg (by simp [htrue])] at hcheck
      rw [← (Prod.mk.inj (Option.some.inj hcheck)).1, hsame]
      exact .inl rfl
    · intro evaluated condition arg hevaluated
      rw [hevent] at hevaluated
      injection hevaluated with hsame hcondition harg hfalse
      rw [if_pos ⟨rfl, hfalse⟩] at hcheck
      rw [← (Prod.mk.inj (Option.some.inj hcheck)).1, ← hsame, ← hpolled]
      exact ⟨rfl, congrArg some (Prod.ext hcondition harg)⟩

/-- A step that changes at most the task that the worker holds. -/
theorem own (h : Polls labels s) (hheld : (s.workers self).held = {task})
    (hstep : Step s ⟨self, event⟩
      { memory := memory, workers := Function.update s.workers self pc })
    (htasks : ∀ other ≠ task, memory.tasks other = s.memory.tasks other)
    (hevent : ∀ other request, event = .request other request → other = task)
    (hvalue : ∀ value, memory.tasks task = some value → ¬ pc.Unsettled task →
      value.polling = polled (lastRequest task (labels ++ [⟨self, event⟩])))
    (habsent : memory.tasks task = none →
      polled (lastRequest task (labels ++ [⟨self, event⟩])) = none)
    (hpoint : PollPoint (labels ++ [⟨self, event⟩]) memory self pc)
    (hevaluated : ∀ task pollCondition pollArg, lastEvent self (labels ++ [⟨self, event⟩]) =
      some (.evaluate task pollCondition pollArg true) → pc = .clearPoll task ∨ pc = .resume task)
    (hfailed : ∀ task pollCondition pollArg,
      event ≠ .evaluate task pollCondition pollArg false) :
    Polls (labels ++ [⟨self, event⟩])
      { memory := memory, workers := Function.update s.workers self pc } := by
  refine h.change hstep (fun other hother _ ↦ ?_) (fun other hother ↦ ?_)
    (fun other hmem value hother ↦ ?_) (fun other hmem hnone ↦ ?_) hpoint hevaluated
    fun task pollCondition pollArg heq ↦ absurd heq (hfailed task pollCondition pollArg)
  · rw [hheld, Multiset.mem_singleton] at hother
    exact htasks other hother
  · rw [hheld, Multiset.mem_singleton] at hother
    exact lastRequest_append_of_ne fun request heq ↦ hother (hevent other request heq)
  · by_cases heq : other = task
    · subst heq
      exact hvalue value hother
    · rw [hheld, Multiset.mem_singleton] at hmem
      rw [htasks other heq, hmem.resolve_left heq] at hother
      cases hother
  · rw [hheld, Multiset.mem_singleton] at hmem
    subst hmem
    exact habsent hnone

/-- What a worker does with a request. -/
theorem handle (h : Polls labels s) (hpc : s.workers self = .running task)
    {request : Request Task Cond Arg}
    (hstep : Step s ⟨self, .request task request⟩
      { memory := memory, workers := Function.update s.workers self pc })
    {value : TaskT Cond Arg} (hvalue : s.memory.tasks task = some value)
    (hhandle : request.handle task value s.memory = some (pc, memory)) :
    Polls (labels ++ [⟨self, .request task request⟩])
      { memory := memory, workers := Function.update s.workers self pc } := by
  have hpoint := h.point self
  rw [hpc] at hpoint
  have hnone : value.polling = none := by
    rw [TaskT.polling, hpoint value hvalue]
    rfl
  have hlast : lastEvent self (labels ++ [⟨self, .request task request⟩]) =
      some (.request task request) := lastEvent_append nofun
  have hown : (∀ other ≠ task, memory.tasks other = s.memory.tasks other) →
      (∀ after, memory.tasks task = some after → ¬ pc.Unsettled task →
        after.polling = polled request.continued) →
      memory.tasks task ≠ none →
      PollPoint (labels ++ [⟨self, .request task request⟩]) memory self pc →
      Polls (labels ++ [⟨self, .request task request⟩])
        { memory := memory, workers := Function.update s.workers self pc } := by
    intro htasks hafter hsome hpoint
    refine h.own (by rw [hpc]; rfl) hstep htasks (fun other request heq ↦ ?_) ?_ ?_ hpoint ?_ nofun
    · injection heq with heq
      exact heq.symm
    · rw [lastRequest_append_request]
      exact hafter
    · exact fun hnone ↦ absurd hnone hsome
    · rw [hlast]
      exact nofun
  have hunchanged : memory.tasks = s.memory.tasks → polled request.continued = none →
      PollPoint (labels ++ [⟨self, .request task request⟩]) memory self pc →
      Polls (labels ++ [⟨self, .request task request⟩])
        { memory := memory, workers := Function.update s.workers self pc } := by
    intro htasks hpolled hpoint
    refine hown (fun other _ ↦ by rw [htasks]) (fun after hafter _ ↦ ?_) ?_ hpoint
    · rw [htasks, hvalue] at hafter
      rw [← Option.some.inj hafter, hnone, hpolled]
    · rw [htasks, hvalue]
      exact nofun
  cases request with
  | ret =>
    obtain ⟨rfl, rfl⟩ := Prod.mk.inj (Option.some.inj hhandle)
    refine hown (fun other hother ↦ Memory.tasks_write_of_ne _ hother _)
      (fun after hafter _ ↦ ?_) ?_ ?_
    · rw [Memory.tasks_write_self] at hafter
      rw [← Option.some.inj hafter]
      exact hnone
    · rw [Memory.tasks_write_self]
      exact nofun
    · exact congrArg polled (lastRequest_append_request _)
  | fork | sleep =>
    obtain ⟨rfl, rfl⟩ := Prod.mk.inj (Option.some.inj hhandle)
    exact hunchanged rfl rfl trivial
  | poll pollCondition pollArg =>
    obtain ⟨rfl, rfl⟩ := Prod.mk.inj (Option.some.inj hhandle)
    refine hown (fun _ _ ↦ rfl) (fun _ _ hsettled ↦ absurd rfl hsettled) ?_
      (lastRequest_append_request _)
    rw [hvalue]
    exact nofun
  | wake wakers again =>
    simp only [Request.handle] at hhandle
    split_ifs at hhandle
    obtain ⟨rfl, rfl⟩ := Prod.mk.inj (Option.some.inj hhandle)
    cases again with
    | true => exact hunchanged rfl rfl trivial
    | false => exact hunchanged rfl rfl (congrArg polled (lastRequest_append_request _))

/-- A task is created without a condition. -/
theorem create (h : Polls labels s) (hpc : s.workers self = .create task) {newTask : Task}
    (hstep : Step s ⟨self, .silent⟩
      { memory := s.memory.write newTask (some .new)
        workers := Function.update s.workers self (.enqueueForked task newTask) })
    (hfresh : s.memory.tasks newTask = none) :
    Polls (labels ++ [⟨self, .silent⟩])
      { memory := s.memory.write newTask (some .new)
        workers := Function.update s.workers self (.enqueueForked task newTask) } := by
  have hkept : ∀ other, (s.memory.tasks other).isSome →
      (s.memory.write newTask (some .new)).tasks other = s.memory.tasks other := by
    intro other hsome
    refine Memory.tasks_write_of_ne _ ?_ _
    rintro rfl
    rw [hfresh] at hsome
    cases hsome
  refine h.change hstep (fun other _ ↦ hkept other) (fun _ _ ↦ lastRequest_append_silent)
    (fun other hmem value hvalue _ ↦ ?_) (fun other hmem hnone ↦ ?_) trivial
    (fun _ _ _ hlast ↦ absurd hlast (h.lastEvent_append_silent_ne (by rw [hpc]; exact nofun)
      (by rw [hpc]; exact nofun))) nofun
  · rw [lastRequest_append_silent]
    rcases hmem with hheld | hnone
    · rw [hkept other (h.isSome_of_held hheld)] at hvalue
      exact h.settled_of_held hheld (by rw [hpc]; exact nofun) hvalue
    · rw [h.absent other hnone]
      by_cases heq : other = newTask
      · subst heq
        rw [Memory.tasks_write_self] at hvalue
        rw [← Option.some.inj hvalue]
        rfl
      · rw [Memory.tasks_write_of_ne _ heq, hnone] at hvalue
        cases hvalue
  · rw [hkept other (h.isSome_of_held hmem)] at hnone
    rw [lastRequest_append_silent]
    exact h.absent other hnone

/-- A task is resumed without a condition. -/
theorem resume (h : Polls labels s) (hpc : s.workers self = .resume task)
    (hstep : Step s ⟨self, .resume task⟩
      { memory := s.memory, workers := Function.update s.workers self (.running task) }) :
    Polls (labels ++ [⟨self, .resume task⟩])
      { memory := s.memory, workers := Function.update s.workers self (.running task) } := by
  have hpoint := h.point self
  rw [hpc] at hpoint
  refine h.quiet hstep rfl nofun (by rw [hpc]; exact fun _ hsame ↦ hsame) hpoint.1 ?_ nofun
  have hlast : lastEvent self (labels ++ [⟨self, .resume task⟩]) = some (.resume task) :=
    lastEvent_append nofun
  rw [hlast]
  exact nofun

/-- The condition of a task that was true is removed. -/
theorem clearPoll (h : Polls labels s) (hpc : s.workers self = .clearPoll task)
    {value : TaskT Cond Arg}
    (hstep : Step s ⟨self, .silent⟩
      { memory := s.memory.write task (some { value with pollCondition := none })
        workers := Function.update s.workers self (.resume task) }) :
    Polls (labels ++ [⟨self, .silent⟩])
      { memory := s.memory.write task (some { value with pollCondition := none })
        workers := Function.update s.workers self (.resume task) } := by
  have hpoint := h.point self
  rw [hpc] at hpoint
  refine h.own (by rw [hpc]; rfl) hstep (fun other hother ↦ Memory.tasks_write_of_ne _ hother _)
    nofun (fun _ _ hsettled ↦ absurd rfl hsettled) ?_ ⟨fun after hafter ↦ ?_, ?_⟩ ?_ nofun
  · rw [Memory.tasks_write_self]
    exact nofun
  · rw [Memory.tasks_write_self] at hafter
    rw [← Option.some.inj hafter]
  · rw [lastRequest_append_silent, lastEvent_append_silent]
    exact hpoint
  · intro evaluated pollCondition pollArg hlast
    rw [lastEvent_append_silent] at hlast
    have hevaluated := h.evaluated self evaluated pollCondition pollArg hlast
    rw [hpc] at hevaluated
    rcases hevaluated with hsame | hsame
    · injection hsame with hsame
      rw [hsame]
      exact .inr rfl
    · cases hsame

/-- A task that has returned is freed. -/
theorem finalize (h : Polls labels s) (hpc : s.workers self = .finalize task)
    (hstep : Step s ⟨self, .silent⟩
      { memory := s.memory.write task none
        workers := Function.update s.workers self .subRemaining }) :
    Polls (labels ++ [⟨self, .silent⟩])
      { memory := s.memory.write task none
        workers := Function.update s.workers self .subRemaining } := by
  have hpoint := h.point self
  rw [hpc] at hpoint
  refine h.own (by rw [hpc]; rfl) hstep (fun other hother ↦ Memory.tasks_write_of_ne _ hother _)
    nofun (fun after hafter ↦ ?_) (fun _ ↦ ?_) trivial
    (fun _ _ _ hlast ↦ absurd hlast (h.lastEvent_append_silent_ne (by rw [hpc]; exact nofun)
      (by rw [hpc]; exact nofun))) nofun
  · rw [Memory.tasks_write_self] at hafter
    cases hafter
  · rw [lastRequest_append_silent]
    exact hpoint

/-- A task is given the condition of its last request. -/
theorem setPoll (h : Polls labels s) {pollCondition : Option Cond} {pollArg : Option Arg}
    (hpc : s.workers self = .setPoll task pollCondition pollArg) {value : TaskT Cond Arg}
    (hstep : Step s ⟨self, .silent⟩
      { memory := s.memory.write task
          (some { value with pollCondition := pollCondition, pollArg := pollArg })
        workers := Function.update s.workers self (.enqueue task) }) :
    Polls (labels ++ [⟨self, .silent⟩])
      { memory := s.memory.write task
          (some { value with pollCondition := pollCondition, pollArg := pollArg })
        workers := Function.update s.workers self (.enqueue task) } := by
  have hpoint := h.point self
  rw [hpc] at hpoint
  refine h.own (by rw [hpc]; rfl) hstep (fun other hother ↦ Memory.tasks_write_of_ne _ hother _)
    nofun (fun after hafter _ ↦ ?_) ?_ trivial
    (fun _ _ _ hlast ↦ absurd hlast (h.lastEvent_append_silent_ne (by rw [hpc]; exact nofun)
      (by rw [hpc]; exact nofun))) nofun
  · rw [Memory.tasks_write_self] at hafter
    rw [← Option.some.inj hafter, lastRequest_append_silent, hpoint]
    cases pollCondition <;> rfl
  · rw [Memory.tasks_write_self]
    exact nofun

/-- A worker that has tried a queue has evaluated nothing. -/
theorem steal (h : Polls labels s) {i : ℕ} (hpc : s.workers self = .steal i)
    (hstep : Step s ⟨self, .silent⟩
      { memory := memory, workers := Function.update s.workers self pc })
    (hadvance : (WorkerPc.steal i).advance self choice s.memory = some (pc, memory)) :
    Polls (labels ++ [⟨self, .silent⟩])
      { memory := memory, workers := Function.update s.workers self pc } := by
  simp only [WorkerPc.advance] at hadvance
  split_ifs at hadvance
  · obtain ⟨rfl, rfl⟩ := Prod.mk.inj (Option.some.inj hadvance)
    refine h.silent hstep rfl (by rw [hpc]; trivial) ?_
    cases (slotFifo.apply .steal (s.memory.queues (victim self i))).2 <;> trivial
  · obtain ⟨rfl, rfl⟩ := Prod.mk.inj (Option.some.inj hadvance)
    exact h.silent hstep rfl (by rw [hpc]; trivial) trivial

/-- A task that wakes others has not polled, until it has returned. -/
theorem wake (h : Polls labels s) {wakers : List Task} {again : Bool}
    (hpc : s.workers self = .wake task wakers again)
    (hstep : Step s ⟨self, .silent⟩
      { memory := memory, workers := Function.update s.workers self pc })
    (hadvance :
      (WorkerPc.wake task wakers again).advance self choice s.memory = some (pc, memory)) :
    Polls (labels ++ [⟨self, .silent⟩])
      { memory := memory, workers := Function.update s.workers self pc } := by
  have hpoint := h.point self
  rw [hpc] at hpoint
  have hpassive : (s.workers self).Passive := by
    rw [hpc]
    trivial
  cases wakers with
  | cons waker wakers =>
    obtain ⟨rfl, rfl⟩ := Prod.mk.inj (Option.some.inj hadvance)
    refine h.silent hstep rfl hpassive ?_
    cases again with
    | true => trivial
    | false => exact (congrArg polled lastRequest_append_silent).trans hpoint
  | nil =>
    cases again with
    | true =>
      obtain ⟨rfl, rfl⟩ := Prod.mk.inj (Option.some.inj hadvance)
      exact h.silent hstep rfl hpassive trivial
    | false =>
      obtain ⟨rfl, rfl⟩ := Prod.mk.inj (Option.some.inj hadvance)
      exact h.silent hstep rfl hpassive ((congrArg polled lastRequest_append_silent).trans hpoint)

theorem step (h : Polls labels s) {label : Label n Task Cond Arg} {after : State n Task Cond Arg}
    (hstep : Step s label after) : Polls (labels ++ [label]) after := by
  obtain ⟨choice, pc, memory, hadvance, hevent, rfl⟩ := hstep.advance
  obtain ⟨self, event⟩ := label
  dsimp only at hadvance hevent hstep
  have hsilent : event = .silent → memory.tasks = s.memory.tasks → (s.workers self).Passive →
      PollPoint (labels ++ [⟨self, .silent⟩]) memory self pc → Polls (labels ++ [⟨self, event⟩])
        { memory := memory, workers := Function.update s.workers self pc } := by
    rintro rfl
    exact h.silent hstep
  cases hpc : s.workers self with
  | pop =>
    rw [hpc] at hadvance hevent hsilent
    obtain ⟨rfl, rfl⟩ := Prod.mk.inj (Option.some.inj hadvance)
    refine hsilent hevent rfl trivial ?_
    cases (slotFifo.apply .pop (s.memory.queues self)).2 <;> trivial
  | steal i =>
    rw [hpc] at hadvance hevent
    obtain rfl : event = .silent := hevent
    exact h.steal hpc hstep hadvance
  | loadRemaining | mustSleep =>
    rw [hpc] at hadvance hevent hsilent
    simp only [WorkerPc.advance] at hadvance
    split_ifs at hadvance <;> obtain ⟨rfl, rfl⟩ := Prod.mk.inj (Option.some.inj hadvance) <;>
      exact hsilent hevent rfl trivial trivial
  | checkState task =>
    rw [hpc] at hadvance hevent hsilent
    obtain ⟨value, -, hcheck⟩ := Option.bind_eq_some_iff.mp hadvance
    split_ifs at hcheck <;> obtain ⟨rfl, rfl⟩ := Prod.mk.inj (Option.some.inj hcheck) <;>
      exact hsilent hevent rfl trivial trivial
  | subRemaining | addRemaining | enqueueForked | enqueuePriority | asleep | enqueue =>
    rw [hpc] at hadvance hevent hsilent
    obtain ⟨rfl, rfl⟩ := Prod.mk.inj (Option.some.inj hadvance)
    exact hsilent hevent rfl trivial trivial
  | wake task wakers again =>
    rw [hpc] at hadvance hevent
    obtain rfl : event = .silent := hevent
    exact h.wake hpc hstep hadvance
  | checkPoll task =>
    rw [hpc] at hadvance hevent
    exact h.evaluate hpc hstep hadvance hevent
  | exited | fatal =>
    rw [hpc] at hadvance
    cases hadvance
  | running task =>
    rw [hpc] at hadvance hevent
    obtain ⟨value, hvalue, hhandle⟩ := Option.bind_eq_some_iff.mp hadvance
    obtain rfl : event = .request task choice.request := hevent
    exact h.handle hpc hstep hvalue hhandle
  | create task =>
    rw [hpc] at hadvance hevent
    simp only [WorkerPc.advance] at hadvance
    split_ifs at hadvance with hfresh
    obtain ⟨rfl, rfl⟩ := Prod.mk.inj (Option.some.inj hadvance)
    obtain rfl : event = .silent := hevent
    exact h.create hpc hstep (Option.isNone_iff_eq_none.mp hfresh)
  | resume task =>
    rw [hpc] at hadvance hevent
    obtain ⟨rfl, rfl⟩ := Prod.mk.inj (Option.some.inj hadvance)
    obtain rfl : event = .resume task := hevent
    exact h.resume hpc hstep
  | clearPoll task =>
    rw [hpc] at hadvance hevent
    obtain ⟨value, -, hclear⟩ := Option.bind_eq_some_iff.mp hadvance
    obtain ⟨rfl, rfl⟩ := Prod.mk.inj (Option.some.inj hclear)
    obtain rfl : event = .silent := hevent
    exact h.clearPoll hpc hstep
  | finalize task =>
    rw [hpc] at hadvance hevent
    obtain ⟨rfl, rfl⟩ := Prod.mk.inj (Option.some.inj hadvance)
    obtain rfl : event = .silent := hevent
    exact h.finalize hpc hstep
  | setPoll task pollCondition pollArg =>
    rw [hpc] at hadvance hevent
    obtain ⟨value, -, hset⟩ := Option.bind_eq_some_iff.mp hadvance
    obtain ⟨rfl, rfl⟩ := Prod.mk.inj (Option.some.inj hset)
    obtain rfl : event = .silent := hevent
    exact h.setPoll hpc hstep

end Polls

/-- The scheduled tasks have no condition. -/
theorem Scheduled.polling [NeZero n] {m : Memory n Task Cond Arg} (h : Scheduled m)
    {value : TaskT Cond Arg} (hvalue : m.tasks task = some value) : value.polling = none := by
  induction h with
  | init => cases hvalue
  | @schedule m scheduled _ hfresh ih =>
    change (m.write scheduled (some .new)).tasks task = some value at hvalue
    by_cases heq : task = scheduled
    · subst heq
      rw [Memory.tasks_write_self] at hvalue
      rw [← Option.some.inj hvalue]
      rfl
    · rw [Memory.tasks_write_of_ne _ heq] at hvalue
      exact ih hvalue

theorem polls_of_run [NeZero n] {s : State n Task Cond Arg}
    (hrun : (scheffRun n Task Cond Arg).Run (fun _ _ ↦ True) labels s) : Polls labels s := by
  refine hrun.history (fun s hstart ↦ ?_) fun _ _ _ _ h _ hstep ↦ h.step hstep
  refine
    { conserved := Conserves.of_run (.start hstart)
      settled := fun task value hvalue _ ↦ hstart.1.polling hvalue
      absent := fun _ _ ↦ rfl
      point := fun self ↦ ?_
      evaluated := nofun
      failed := nofun }
  rw [hstart.2 self]
  trivial

/-! ### The protocol -/

/-- A worker holds a task, and it is nowhere else. -/
def HeldAlone (s : State n Task Cond Arg) (self : Fin n) (task : Task) : Prop :=
  ∀ place, task ∈ s.tasksIn place ↔ place = .worker self

/-- A task has a condition to be evaluated. -/
def Carries (s : State n Task Cond Arg) (task : Task) (pollCondition : Cond)
    (pollArg : Option Arg) : Prop :=
  ∃ value, s.memory.tasks task = some value ∧ value.polling = some (pollCondition, pollArg)

section Protocol

variable [NeZero n] {s next : State n Task Cond Arg}

/-- A task that a worker holds is in no other place. -/
theorem heldAlone_of_held (hrun : (scheffRun n Task Cond Arg).Run (fun _ _ ↦ True) labels s)
    (hmem : task ∈ (s.workers self).held) : HeldAlone s self task := by
  obtain ⟨hunique, hplaces, -⟩ := task_conservation hrun
  have hin : task ∈ s.tasksIn (.worker self) := hmem
  refine fun place ↦ ⟨fun hplace ↦ ?_, fun heq ↦ heq ▸ hin⟩
  exact (hunique task ((hplaces _).2 task hin)).unique hplace hin

/-- A worker that is about to enqueue a task does so in its next step. -/
theorem enqueue_step (hrun : (scheffRun n Task Cond Arg).Run (fun _ _ ↦ True) labels s)
    (hpc : s.workers self = .enqueue task) {label : Label n Task Cond Arg}
    (hself : label.self = self) (hstep : Step s label next) :
    label.event = .silent ∧ next.memory.tasks = s.memory.tasks ∧
      next.memory.queues self = ((s.memory.queues self).1, (s.memory.queues self).2 ++ [task]) ∧
      ∀ place, task ∈ next.tasksIn place ↔ place = .ring self := by
  obtain ⟨choice, pc, memory, hadvance, hevent, hafter⟩ := hstep.advance
  subst hself
  rw [hpc] at hadvance hevent
  obtain ⟨rfl, rfl⟩ := Prod.mk.inj (Option.some.inj hadvance)
  have hqueue : next.memory.queues label.self =
      ((s.memory.queues label.self).1, (s.memory.queues label.self).2 ++ [task]) := by
    rw [hafter]
    exact Function.update_self ..
  have hin : task ∈ next.tasksIn (.ring label.self) := by
    change task ∈ ((next.memory.queues label.self).2 : Multiset Task)
    rw [hqueue]
    simp
  obtain ⟨hunique, hplaces, -⟩ := task_conservation (hrun.step trivial hstep)
  refine ⟨hevent, by rw [hafter]; rfl, hqueue, fun place ↦ ⟨fun hplace ↦ ?_, fun heq ↦ heq ▸ hin⟩⟩
  exact (hunique task ((hplaces _).2 task hin)).unique hplace hin

/-- **The poll protocol.** In every run, a task whose last request was a poll is resumed only by a
worker whose last event is an evaluation of that condition with that argument, which returned true.
From such an evaluation to the resumption the worker alone holds the task. Each evaluation is one of
the last request of the task, by a worker that alone holds it; so no condition is evaluated for a
task whose last request was another one, which issued none, or which polled without a condition.
After a false evaluation the worker alone holds the task with its condition, and its next step
enqueues the task, once and unchanged. In a queue a task carries the condition of its last request.
-/
theorem poll_protocol (hrun : (scheffRun n Task Cond Arg).Run (fun _ _ ↦ True) labels s) :
    (∀ self task pollCondition pollArg next, Step s ⟨self, .resume task⟩ next →
      lastRequest task labels = some (.poll (some pollCondition) pollArg) →
      lastEvent self labels = some (.evaluate task pollCondition pollArg true)) ∧
    (∀ self task pollCondition pollArg,
      lastEvent self labels = some (.evaluate task pollCondition pollArg true) →
      HeldAlone s self task) ∧
    (∀ self task pollCondition pollArg result next,
      Step s ⟨self, .evaluate task pollCondition pollArg result⟩ next →
      HeldAlone s self task ∧
        lastRequest task labels = some (.poll (some pollCondition) pollArg)) ∧
    (∀ self task pollCondition pollArg,
      lastStep self labels = some (.evaluate task pollCondition pollArg false) →
      HeldAlone s self task ∧ Carries s task pollCondition pollArg ∧
        (∃ next, Step s ⟨self, .silent⟩ next) ∧
        ∀ label next, label.self = self → Step s label next →
          label.event = .silent ∧ Carries next task pollCondition pollArg ∧
          next.memory.queues self =
            ((s.memory.queues self).1, (s.memory.queues self).2 ++ [task]) ∧
          ∀ place, task ∈ next.tasksIn place ↔ place = .ring self) ∧
    ∀ self task value, task ∈ queued (s.memory.queues self) →
      s.memory.tasks task = some value → value.polling = polled (lastRequest task labels) := by
  have h := polls_of_run hrun
  refine ⟨fun self task pollCondition pollArg next hstep hlast ↦ ?_,
    fun self task pollCondition pollArg hlast ↦ heldAlone_of_held hrun ?_,
    fun self task pollCondition pollArg result next hstep ↦ ?_,
    fun self task pollCondition pollArg hlast ↦ ?_, fun self task value hqueued hvalue ↦ ?_⟩
  · obtain ⟨choice, _, _, -, hevent, -⟩ := hstep.advance
    have hpoint := h.point self
    rw [WorkerPc.eq_of_event_resume hevent.symm] at hpoint
    exact hpoint.2 pollCondition pollArg hlast
  · rcases h.evaluated self task pollCondition pollArg hlast with hpc | hpc <;> rw [hpc] <;>
      exact Multiset.mem_singleton_self task
  · obtain ⟨choice, _, _, -, hevent, -⟩ := hstep.advance
    obtain ⟨hpc, value, hvalue, hpolling⟩ := WorkerPc.eq_of_event_evaluate hevent.symm
    dsimp only at hpc
    have hheld : task ∈ (s.workers self).held := by
      rw [hpc]
      exact Multiset.mem_singleton_self task
    refine ⟨heldAlone_of_held hrun hheld, polled_eq_some ?_⟩
    rw [← h.settled_of_held hheld (by rw [hpc]; exact nofun) hvalue, hpolling]
  · obtain ⟨hpc, hpolled⟩ := h.failed self task pollCondition pollArg hlast
    have hheld : task ∈ (s.workers self).held := by
      rw [hpc]
      exact Multiset.mem_singleton_self task
    obtain ⟨value, hvalue⟩ := Option.isSome_iff_exists.mp (h.isSome_of_held hheld)
    have hpolling := h.settled_of_held hheld (by rw [hpc]; exact nofun) hvalue
    have hcarries : Carries s task pollCondition pollArg :=
      ⟨value, hvalue, hpolling.trans hpolled⟩
    refine ⟨heldAlone_of_held hrun hheld, hcarries, ?_, fun label next hself hstep ↦ ?_⟩
    · have hadvance : (s.workers self).advance self ⟨.ret, true, task⟩ s.memory =
          some (.pop, s.memory.push self task) := by
        rw [hpc]
        rfl
      have hevent : (s.workers self).event ⟨.ret, true, task⟩ s.memory = .silent := by
        rw [hpc]
        rfl
      have hstep := Step.worker hadvance
      rw [hevent] at hstep
      exact ⟨_, hstep⟩
    · obtain ⟨hevent, htasks, hqueue, hplaces⟩ := enqueue_step hrun hpc hself hstep
      refine ⟨hevent, ?_, hqueue, hplaces⟩
      unfold Carries
      rw [htasks]
      exact hcarries
  · refine h.settled task value hvalue fun other hunsettled ↦ ?_
    obtain ⟨place, hplace, hqueue⟩ := exists_place_of_queued hqueued
    exact hqueue other ((heldAlone_of_held hrun hunsettled.mem_held place).mp hplace)

end Protocol

end Requests

attribute [local instance] neZero_one

theorem run_twoTasks : (scheffRun 1 ℕ Unit Unit).Run (fun _ _ ↦ True) [] twoTasks :=
  .start ⟨.schedule (.schedule .init rfl) rfl, fun _ ↦ rfl⟩

/-- The first task has polled, its condition was true, and the worker is about to resume it. -/
def pollHeld : List (Label 1 ℕ Unit Unit) × State 1 ℕ Unit Unit :=
  (twoTasks.advances 0 (List.replicate 20 ⟨.poll (some ()) none, true, 0⟩)).getD ([], twoTasks)

theorem poll_protocol_pollHeld :
    pollHeld.2.workers 0 = .resume 0 ∧
      lastEvent 0 pollHeld.1 = some (.evaluate 0 () none true) := by
  have hrun : (scheffRun 1 ℕ Unit Unit).Run (fun _ _ ↦ True) pollHeld.1 pollHeld.2 :=
    run_of_advances run_twoTasks (show twoTasks.advances 0
      (List.replicate 20 ⟨.poll (some ()) none, true, 0⟩) = some pollHeld from rfl)
  have hadvance : (pollHeld.2.workers 0).advance 0 ⟨.ret, true, 0⟩ pollHeld.2.memory =
      some (.running 0, pollHeld.2.memory) := rfl
  exact ⟨rfl, (poll_protocol hrun).1 0 0 () none _ (.worker hadvance) rfl⟩

end Libseff.Scheduler
