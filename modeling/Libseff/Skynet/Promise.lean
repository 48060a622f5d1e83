import Libseff.Scheduler.TaskPrograms

/-!
# Skynet with promises

`bench/skynet_bench/libseff_scheff_sleep.c`: a task forks a task for each of its children, waits for
their promises one after another, and fulfills its own with the sum of their results. A promise
keeps the waker of the task that sleeps on it. Every access of a promise is a step of its own, but
for `init_promise`, whose promise no other task can reach yet.

A task is known by the number of its node, and so is its promise. The numbers and the results are
those of ℕ and ℤ, of which `int64_t` holds those that come up for a depth of at most 10.
-/

set_option autoImplicit false
set_option relaxedAutoImplicit false

namespace Libseff.Skynet

open Scheduler

variable {Task : Type*}

/-- `BRANCHING_FACTOR`. -/
def branchingFactor : ℕ := 10

/-- What `promise->state` may be: `EMPTY_PROMISE`, the waker of a task, or `FULFILLED`. -/
inductive PromiseState (Task : Type*)
  | emptyPromise
  | waker (task : Task)
  | fulfilled
  deriving DecidableEq

/-- `skynet_promise_t`. -/
structure SkynetPromise (Task : Type*) where
  locked : Bool
  state : PromiseState Task
  result : ℤ
  id : ℕ

/-- The points of `fulfill(promise, result)`, with `previous_state`. -/
inductive FulfillStep (Task : Type*)
  | acquire
  | loadState
  | storeState (previousState : PromiseState Task)
  | storeResult (previousState : PromiseState Task)
  | release (previousState : PromiseState Task)
  | wake (waker : Task)
  deriving DecidableEq

/-- The points of `await_promise(promise)` before the task sleeps, with `state`. -/
inductive AwaitStep (Task : Type*)
  | acquire
  | loadState
  | release (state : PromiseState Task)
  | sleep
  deriving DecidableEq

/-- The points of `must_sleep(waker, promise)`, with `state`. -/
inductive MustSleepStep (Task : Type*)
  | acquire
  | loadState
  | storeWaker
  | release (state : PromiseState Task)
  deriving DecidableEq

/-- The points of `skynet(arg)`, with `i` and `sum`. -/
inductive Pc (Task : Type*)
  | start
  | forkLoop (i : ℕ)
  | fork (i : ℕ)
  | creating (i : ℕ)
  | awaitLoop (i : ℕ) (sum : ℤ)
  | await (i : ℕ) (sum : ℤ) (step : AwaitStep Task)
  | mustSleep (i : ℕ) (sum : ℤ) (step : MustSleepStep Task)
  | readResult (i : ℕ) (sum : ℤ)
  | fulfill (result : ℤ) (step : FulfillStep Task)
  | ret
  | finished
  deriving DecidableEq

/-- A task in `skynet(arg)`, with `args->num`. -/
structure Code (Task : Type*) where
  num : ℕ
  pc : Pc Task
  deriving DecidableEq

/-- The promises, by the number of their node. -/
abbrev Promises (Task : Type*) := ℕ → SkynetPromise Task

/-- The number of a child. -/
def child (num i : ℕ) : ℕ := num * branchingFactor + i

/-- `init_promise(promise, id)`. -/
def initPromise (promise : SkynetPromise Task) (id : ℕ) : SkynetPromise Task :=
  { promise with state := .emptyPromise, id := id, locked := false }

/-- Writes a promise. -/
def Promises.write (promises : Promises Task) (num : ℕ) (promise : SkynetPromise Task) :
    Promises Task := Function.update promises num promise

/-- One step of `fulfill(promise, result)`. -/
def FulfillStep.advance (promise : SkynetPromise Task) (result : ℤ) :
    FulfillStep Task → Option (Pc Task × SkynetPromise Task)
  | .acquire =>
    if promise.locked then some (.fulfill result .acquire, promise)
    else some (.fulfill result .loadState, { promise with locked := true })
  | .loadState => some (.fulfill result (.storeState promise.state), promise)
  | .storeState previousState =>
    some (.fulfill result (.storeResult previousState), { promise with state := .fulfilled })
  | .storeResult previousState =>
    some (.fulfill result (.release previousState), { promise with result := result })
  | .release previousState =>
    match previousState with
    | .waker waker => some (.fulfill result (.wake waker), { promise with locked := false })
    | _ => some (.ret, { promise with locked := false })
  | .wake _ => none

/-- One step of `await_promise(promise)`. -/
def AwaitStep.advance (promise : SkynetPromise Task) (i : ℕ) (sum : ℤ) :
    AwaitStep Task → Option (Pc Task × SkynetPromise Task)
  | .acquire =>
    if promise.locked then some (.await i sum .acquire, promise)
    else some (.await i sum .loadState, { promise with locked := true })
  | .loadState => some (.await i sum (.release promise.state), promise)
  | .release state =>
    match state with
    | .fulfilled => some (.readResult i sum, { promise with locked := false })
    | _ => some (.await i sum .sleep, { promise with locked := false })
  | .sleep => none

/-- One step of `must_sleep(waker, promise)`, but for the last. -/
def MustSleepStep.advance (waker : Task) (promise : SkynetPromise Task) (i : ℕ) (sum : ℤ) :
    MustSleepStep Task → Option (Pc Task × SkynetPromise Task)
  | .acquire =>
    if promise.locked then some (.mustSleep i sum .acquire, promise)
    else some (.mustSleep i sum .loadState, { promise with locked := true })
  | .loadState =>
    match promise.state with
    | .emptyPromise => some (.mustSleep i sum .storeWaker, promise)
    | state => some (.mustSleep i sum (.release state), promise)
  | .storeWaker =>
    some (.mustSleep i sum (.release .emptyPromise), { promise with state := .waker waker })
  | .release _ => none

/-- The promise that the next step of a task uses, but for that which it initialises. -/
def Code.promise (code : Code Task) : ℕ :=
  match code.pc with
  | .await i _ _ => child code.num i
  | .mustSleep i _ _ => child code.num i
  | .readResult i _ => child code.num i
  | _ => code.num

/-- One step of `skynet(arg)`, where `last_layer` is the number of the first node in the last
layer. -/
def Code.advance (lastLayer : ℕ) (code : Code Task) (promises : Promises Task) :
    Option (Code Task × Promises Task) :=
  let promise := promises code.promise
  let goOn (next : Pc Task × SkynetPromise Task) : Code Task × Promises Task :=
    (⟨code.num, next.1⟩, promises.write code.promise next.2)
  match code.pc with
  | .start =>
    if lastLayer ≤ code.num then
      some (⟨code.num, .fulfill ((code.num : ℤ) - lastLayer) .acquire⟩, promises)
    else some (⟨code.num, .forkLoop 0⟩, promises)
  | .forkLoop i =>
    if i < branchingFactor then
      some (⟨code.num, .fork i⟩, promises.write (child code.num i)
        (initPromise (promises (child code.num i)) (child code.num i)))
    else some (⟨code.num, .awaitLoop 0 0⟩, promises)
  | .awaitLoop i sum =>
    if i < branchingFactor then some (⟨code.num, .await i sum .acquire⟩, promises)
    else some (⟨code.num, .fulfill sum .acquire⟩, promises)
  | .await i sum step => (step.advance promise i sum).map goOn
  | .readResult i sum => some (⟨code.num, .awaitLoop (i + 1) (sum + promise.result)⟩, promises)
  | .fulfill result step => (step.advance promise result).map goOn
  | _ => none

/-- The request that a task performs. -/
def Code.request (code : Code Task) : Option (Request Task Unit Unit × Code Task) :=
  match code.pc with
  | .fork i => some (.fork, ⟨code.num, .creating i⟩)
  | .await i sum .sleep => some (.sleep, ⟨code.num, .mustSleep i sum .acquire⟩)
  | .fulfill _ (.wake waker) => some (.wake [waker] false, ⟨code.num, .finished⟩)
  | .ret => some (.ret, ⟨code.num, .finished⟩)
  | _ => none

/-- The task that is forked, and the forking task. -/
def Code.forked (code : Code Task) : Option (Code Task × Code Task) :=
  match code.pc with
  | .creating i => some (⟨child code.num i, .start⟩, ⟨code.num, .forkLoop (i + 1)⟩)
  | _ => none

/-- One step of `must_sleep`, for a task that has performed `sleep`. -/
def Code.mustSleep (task : Task) (code : Code Task) (promises : Promises Task) :
    Option (Code Task × Promises Task) :=
  match code.pc with
  | .mustSleep i sum step =>
    (step.advance task (promises code.promise) i sum).map fun next ↦
      (⟨code.num, next.1⟩, promises.write code.promise next.2)
  | _ => none

/-- The end of `must_sleep`, which returns `state == EMPTY_PROMISE`. -/
def Code.answer (code : Code Task) (promises : Promises Task) :
    Option (Bool × Code Task × Promises Task) :=
  match code.pc with
  | .mustSleep i sum (.release state) =>
    some (match state with | .emptyPromise => true | _ => false, ⟨code.num, .readResult i sum⟩,
      promises.write code.promise { promises code.promise with locked := false })
  | _ => none

/-- What a worker may do with a task. -/
def Pc.status : Pc Task → Status
  | .creating _ => .creating
  | .mustSleep _ _ _ => .deciding
  | .finished => .finished
  | _ => .active

theorem FulfillStep.advance_status {promise : SkynetPromise Task} {result : ℤ}
    {step : FulfillStep Task} {next : Pc Task × SkynetPromise Task}
    (h : step.advance promise result = some next) : next.1.status = .active := by
  cases step with
  | acquire =>
    simp only [FulfillStep.advance] at h
    split_ifs at h <;> rw [← Option.some.inj h] <;> rfl
  | release previousState =>
    cases previousState <;> rw [← Option.some.inj h] <;> rfl
  | wake waker => exact absurd h (by simp [FulfillStep.advance])
  | _ =>
    rw [← Option.some.inj h]
    rfl

theorem AwaitStep.advance_status {promise : SkynetPromise Task} {i : ℕ} {sum : ℤ}
    {step : AwaitStep Task} {next : Pc Task × SkynetPromise Task}
    (h : step.advance promise i sum = some next) : next.1.status = .active := by
  cases step with
  | acquire =>
    simp only [AwaitStep.advance] at h
    split_ifs at h <;> rw [← Option.some.inj h] <;> rfl
  | loadState =>
    rw [← Option.some.inj h]
    rfl
  | release state => cases state <;> rw [← Option.some.inj h] <;> rfl
  | sleep => exact absurd h (by simp [AwaitStep.advance])

theorem MustSleepStep.advance_status {waker : Task} {promise : SkynetPromise Task} {i : ℕ} {sum : ℤ}
    {step : MustSleepStep Task} {next : Pc Task × SkynetPromise Task}
    (h : step.advance waker promise i sum = some next) : next.1.status = .deciding := by
  cases step with
  | acquire =>
    simp only [MustSleepStep.advance] at h
    split_ifs at h <;> rw [← Option.some.inj h] <;> rfl
  | loadState =>
    simp only [MustSleepStep.advance] at h
    split at h <;> rw [← Option.some.inj h] <;> rfl
  | storeWaker =>
    rw [← Option.some.inj h]
    rfl
  | release state => exact absurd h (by simp [MustSleepStep.advance])

/-- The program of the tasks. No task uses a condition. -/
def skynet (Task : Type*) (lastLayer : ℕ) :
    TaskPrograms Task Unit Unit (Code Task) (Promises Task) where
  status code := code.pc.status
  advance := Code.advance lastLayer
  request := Code.request
  forked := Code.forked
  evaluate _ _ _ := true
  mustSleep := Code.mustSleep
  answer := Code.answer
  advance_status := by
    rintro ⟨num, pc⟩ after promises promises' h
    cases pc with
    | start =>
      simp only [Code.advance] at h
      split_ifs at h <;> obtain ⟨rfl, -⟩ := Prod.mk.inj (Option.some.inj h) <;> exact ⟨rfl, rfl⟩
    | forkLoop i =>
      simp only [Code.advance] at h
      split_ifs at h <;> obtain ⟨rfl, -⟩ := Prod.mk.inj (Option.some.inj h) <;> exact ⟨rfl, rfl⟩
    | awaitLoop i sum =>
      simp only [Code.advance] at h
      split_ifs at h <;> obtain ⟨rfl, -⟩ := Prod.mk.inj (Option.some.inj h) <;> exact ⟨rfl, rfl⟩
    | await i sum step =>
      obtain ⟨next, hnext, heq⟩ := Option.map_eq_some_iff.mp h
      obtain ⟨rfl, -⟩ := Prod.mk.inj heq
      exact ⟨rfl, step.advance_status hnext⟩
    | readResult i sum =>
      obtain ⟨rfl, -⟩ := Prod.mk.inj (Option.some.inj h)
      exact ⟨rfl, rfl⟩
    | fulfill result step =>
      obtain ⟨next, hnext, heq⟩ := Option.map_eq_some_iff.mp h
      obtain ⟨rfl, -⟩ := Prod.mk.inj heq
      exact ⟨rfl, step.advance_status hnext⟩
    | _ => exact absurd h (by simp [Code.advance])
  request_status := by
    rintro ⟨num, pc⟩ after request h
    cases pc with
    | fork i =>
      obtain ⟨rfl, rfl⟩ := Prod.mk.inj (Option.some.inj h)
      exact ⟨rfl, rfl⟩
    | await i sum step =>
      cases step with
      | sleep =>
        obtain ⟨rfl, rfl⟩ := Prod.mk.inj (Option.some.inj h)
        exact ⟨rfl, rfl⟩
      | _ => exact absurd h (by simp [Code.request])
    | fulfill result step =>
      cases step with
      | wake waker =>
        obtain ⟨rfl, rfl⟩ := Prod.mk.inj (Option.some.inj h)
        exact ⟨rfl, rfl⟩
      | _ => exact absurd h (by simp [Code.request])
    | ret =>
      obtain ⟨rfl, rfl⟩ := Prod.mk.inj (Option.some.inj h)
      exact ⟨rfl, rfl⟩
    | _ => exact absurd h (by simp [Code.request])
  forked_status := by
    rintro ⟨num, pc⟩ start after h
    cases pc with
    | creating i =>
      obtain ⟨rfl, rfl⟩ := Prod.mk.inj (Option.some.inj h)
      exact ⟨rfl, rfl, rfl⟩
    | _ => exact absurd h (by simp [Code.forked])
  mustSleep_status := by
    rintro task ⟨num, pc⟩ after promises promises' h
    cases pc with
    | mustSleep i sum step =>
      obtain ⟨next, hnext, heq⟩ := Option.map_eq_some_iff.mp h
      obtain ⟨rfl, -⟩ := Prod.mk.inj heq
      exact ⟨rfl, step.advance_status hnext⟩
    | _ => exact absurd h (by simp [Code.mustSleep])
  answer_status := by
    rintro ⟨num, pc⟩ after promises promises' result h
    cases pc with
    | mustSleep i sum step =>
      cases step with
      | release state =>
        obtain ⟨-, heq⟩ := Prod.mk.inj (Option.some.inj h)
        obtain ⟨rfl, -⟩ := Prod.mk.inj heq
        exact ⟨rfl, rfl⟩
      | _ => exact absurd h (by simp [Code.answer])
    | _ => exact absurd h (by simp [Code.answer])

/-- `last_layer`, after the loop of `bench(n_workers, depth)`. -/
def lastLayer : ℕ → ℕ
  | 0 => 1
  | 1 => 1
  | depth + 2 => lastLayer (depth + 1) * branchingFactor

/-- `bench(n_workers, depth)` before `scheff_run`: the root is scheduled with a promise, and the
memory of the other promises has any contents. -/
def Scheduled [DecidableEq Task] {n : ℕ} [NeZero n]
    (s : ProgramState n Task Unit Unit (Code Task) (Promises Task)) : Prop :=
  ∃ root contents, s.scheduler.memory = scheffSchedule scheffInit root ∧
    s.codes = Function.update (fun _ ↦ none) root (some ⟨1, .start⟩) ∧
    s.shared = Promises.write contents 1 (initPromise (contents 1) 1)

/-- The runs of `bench(n_workers, depth)`. -/
def bench (n : ℕ) (Task : Type*) [DecidableEq Task] [NeZero n] (depth : ℕ) :
    Foundation.TransitionSystem (ProgramState n Task Unit Unit (Code Task) (Promises Task))
      (ProgramLabel n Task Unit Unit) :=
  programRun (skynet Task (lastLayer depth)) Scheduled

end Libseff.Skynet
