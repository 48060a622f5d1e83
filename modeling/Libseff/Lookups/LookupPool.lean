import Libseff.Lookups.MultiLookup
import Mathlib.Tactic

/-!
# The pool of lookups

What a driver does to its coroutines (`Driver.Next`): one of them is made, or the first one in the
queue is resumed and goes to its end or to the end of the queue. With the queue known as a list of
coroutines (`Driver.Queued`), each step of a driver is one of these or only goes on to another loop
(`Driver.exists_next`).
-/

set_option autoImplicit false
set_option relaxedAutoImplicit false

namespace Libseff.Lookups

open Foundation.SystemCalls

variable {n : ℕ} {Answer : Type}

namespace Driver

variable (driver : Driver Answer) (args : Fin n → SearchArgs) (streams : ℤ)

/-- What the coroutine that asked for an address is resumed with. -/
def answer (addr : ℕ) : Answer := driver.resumeArg (driver.extra addr)

/-- The task of a coroutine that is in the queue. -/
def taskOf (coroutines : Fin n → Lifetime (Suspension ℕ Answer Bool)) (coro : Fin n) : TaskT n where
  coro := some coro
  extra :=
    match coroutines coro with
    | .live suspension => suspension.request?.bind driver.extra
    | _ => none

/-- The coroutines that are in the queue, in its order, and those that are not made yet. -/
structure Queued (q : CoroQueue (TaskT n)) (nextArg : ℕ)
    (coroutines : Fin n → Lifetime (Suspension ℕ Answer Bool)) (coros : List (Fin n)) : Prop where
  nextArg_le : nextArg ≤ n
  unmade : ∀ coro : Fin n, nextArg ≤ coro → coroutines coro = .unmade
  holds : q.Holds (coros.map (driver.taskOf coroutines))
  nodup : coros.Nodup
  live : ∀ coro ∈ coros, ∃ suspension, coroutines coro = .live suspension

/-- A task is taken next. -/
def Serving (state : LookupState n Answer) : Prop :=
  (state.point = .serve ∧ driver.serves state.limit = true) ∨
    (state.point = .drain ∧ state.limit < streams)

/-- Where a driver goes on when the coroutine of the task has finished. -/
def returnsTo (point : Point) : Point := if point = .serve then driver.afterReturn else .drain

/-- From one loop to another. -/
inductive Goes (state : LookupState n Answer) : Point → Prop
  | toCreate (hpoint : state.point = .feed) (hnext : state.nextArg < n) : Goes state .create
  | toDrain (hpoint : state.point = .feed) (hnext : n ≤ state.nextArg) : Goes state .drain
  | toServe (hpoint : state.point = .create) (hfull : n ≤ state.nextArg ∨ state.limit ≤ 0) :
      Goes state .serve
  | toFeed (hpoint : state.point = .serve) (hserves : driver.serves state.limit = false) :
      Goes state .feed
  | toReturned (hpoint : state.point = .drain) (hlimit : streams ≤ state.limit) :
      Goes state .returned

/-- What a step does to the coroutines and to those in the queue. -/
inductive Next (state : LookupState n Answer) (coros : List (Fin n)) :
    LookupState n Answer → List (Fin n) → Prop
  | goes {point : Point} (hgoes : driver.Goes streams state point) :
      Next state coros { state with point } coros
  | creates (hpoint : state.point = .create) (hnext : state.nextArg < n) (hlimit : 0 < state.limit)
      (q : CoroQueue (TaskT n)) :
      Next state coros
        { state with
          limit := state.limit - 1
          coroutines := Function.update state.coroutines ⟨state.nextArg, hnext⟩
            (.live (.ready (driver.body (args ⟨state.nextArg, hnext⟩))))
          nextArg := state.nextArg + 1
          q }
        (if coros.length < capacity then coros ++ [⟨state.nextArg, hnext⟩] else coros)
  | suspends (hserving : driver.Serving streams state) {coro : Fin n} {rest : List (Fin n)}
      (hcoros : coros = coro :: rest) {suspension : Suspension ℕ Answer Bool}
      (hlive : state.coroutines coro = .live suspension) {value : Answer}
      (hvalue : ∀ addr ∈ suspension.request?, value = driver.answer addr) {addr : ℕ}
      {next : Answer → Program ℕ (fun _ ↦ Answer) Bool}
      (hresume : suspension.resume value = .call addr next) (q : CoroQueue (TaskT n)) :
      Next state coros
        { state with
          q
          coroutines := Function.update state.coroutines coro (.live (.waits addr next)) }
        (rest ++ [coro])
  | returns (hserving : driver.Serving streams state) {coro : Fin n} {rest : List (Fin n)}
      (hcoros : coros = coro :: rest) {suspension : Suspension ℕ Answer Bool}
      (hlive : state.coroutines coro = .live suspension) {value : Answer}
      (hvalue : ∀ addr ∈ suspension.request?, value = driver.answer addr) {found : Bool}
      (hresume : suspension.resume value = .done found) (q : CoroQueue (TaskT n)) :
      Next state coros
        { state with
          q
          foundCount := state.foundCount + found.toNat
          notFoundCount := state.notFoundCount + (1 - found.toNat)
          coroutines := Function.update state.coroutines coro .deleted
          limit := state.limit + 1
          point := driver.returnsTo state.point }
        rest
  | crashes (hserving : driver.Serving streams state) (hcoros : coros = [])
      (q : CoroQueue (TaskT n)) : Next state coros { state with q, point := .crashed } []
  | stays (hpoint : state.point = .returned ∨ state.point = .crashed) : Next state coros state coros

variable {driver args streams} {state : LookupState n Answer} {coros : List (Fin n)}

/-! ### The queue as a list -/

section Queued

variable {q : CoroQueue (TaskT n)} {nextArg : ℕ}
  {coroutines : Fin n → Lifetime (Suspension ℕ Answer Bool)} {coro : Fin n}

theorem taskOf_live {suspension : Suspension ℕ Answer Bool}
    (hlive : coroutines coro = .live suspension) :
    driver.taskOf coroutines coro = ⟨some coro, suspension.request?.bind driver.extra⟩ := by
  rw [taskOf, hlive]

theorem map_taskOf_update (hcoro : coro ∉ coros) (lifetime : Lifetime (Suspension ℕ Answer Bool)) :
    coros.map (driver.taskOf (Function.update coroutines coro lifetime)) =
      coros.map (driver.taskOf coroutines) := by
  refine List.map_congr_left fun other hother ↦ ?_
  rw [taskOf, taskOf, Function.update_of_ne (ne_of_mem_of_not_mem hother hcoro)]

theorem queued_initial : driver.Queued (initial streams : LookupState n Answer).q 0
    (initial streams : LookupState n Answer).coroutines [] where
  nextArg_le := Nat.zero_le n
  unmade _ _ := rfl
  holds := CoroQueue.holds_init _
  nodup := List.nodup_nil
  live _ hmem := absurd hmem List.not_mem_nil

namespace Queued

/-- A coroutine that is live has been made. -/
theorem lt_nextArg (hqueued : driver.Queued q nextArg coroutines coros)
    {suspension : Suspension ℕ Answer Bool} (hlive : coroutines coro = .live suspension) :
    coro < nextArg := by
  by_contra hle
  rw [hqueued.unmade coro (Nat.le_of_not_lt hle)] at hlive
  cases hlive

/-- The coroutine that is made next is not in the queue. -/
theorem next_notMem (hqueued : driver.Queued q nextArg coroutines coros) (hnext : nextArg < n) :
    (⟨nextArg, hnext⟩ : Fin n) ∉ coros := by
  intro hmem
  obtain ⟨suspension, hlive⟩ := hqueued.live _ hmem
  exact Nat.lt_irrefl _ (hqueued.lt_nextArg hlive)

/-- Assumes: a coroutine out of the queue. It changes, and may be made by this. -/
theorem update (hqueued : driver.Queued q nextArg coroutines coros) (hcoro : coro ∉ coros)
    (lifetime : Lifetime (Suspension ℕ Answer Bool)) {later : ℕ} (hle : nextArg ≤ later)
    (hlater : later ≤ n) (hmade : coro < later) :
    driver.Queued q later (Function.update coroutines coro lifetime) coros where
  nextArg_le := hlater
  unmade other hother := by
    have hne : other ≠ coro := by
      rintro rfl
      exact absurd hmade (Nat.not_lt_of_le hother)
    rw [Function.update_of_ne hne]
    exact hqueued.unmade other (Nat.le_trans hle hother)
  holds := by
    rw [map_taskOf_update hcoro]
    exact hqueued.holds
  nodup := hqueued.nodup
  live other hother := by
    rw [Function.update_of_ne (ne_of_mem_of_not_mem hother hcoro)]
    exact hqueued.live other hother

/-- Assumes: a live coroutine out of the queue. It is put at the end of it, if there is room. -/
theorem enqueue (hqueued : driver.Queued q nextArg coroutines coros) (hcoro : coro ∉ coros)
    {suspension : Suspension ℕ Answer Bool} (hlive : coroutines coro = .live suspension) :
    driver.Queued (q.enqueue ⟨some coro, suspension.request?.bind driver.extra⟩).1 nextArg
      coroutines (if coros.length < capacity then coros ++ [coro] else coros) := by
  have hlength : (coros.map (driver.taskOf coroutines)).length = coros.length := List.length_map _
  split
  · rename_i hroom
    refine ⟨hqueued.nextArg_le, hqueued.unmade, ?_, ?_, ?_⟩
    · rw [List.map_append, List.map_singleton, taskOf_live hlive]
      exact hqueued.holds.enqueue (hlength ▸ hroom) _
    · rw [← List.concat_eq_append]
      exact hqueued.nodup.concat hcoro
    · intro other hother
      rcases List.mem_append.mp hother with hold | hnew
      · exact hqueued.live other hold
      · obtain rfl : other = coro := List.mem_singleton.mp hnew
        exact ⟨suspension, hlive⟩
  · rename_i hfull
    have heq : coros.length = capacity :=
      Nat.le_antisymm (hlength ▸ hqueued.holds.le) (Nat.le_of_not_lt hfull)
    rw [hqueued.holds.enqueue_full (hlength.trans heq)]
    exact hqueued

/-- The first coroutine is taken out of the queue. -/
theorem dequeue {rest : List (Fin n)} (hqueued : driver.Queued q nextArg coroutines (coro :: rest))
    (null : TaskT n) :
    (q.dequeue null).1 = driver.taskOf coroutines coro ∧
      driver.Queued (q.dequeue null).2 nextArg coroutines rest := by
  obtain ⟨htask, hholds⟩ := hqueued.holds.dequeue null
  exact ⟨htask, hqueued.nextArg_le, hqueued.unmade, hholds, hqueued.nodup.of_cons,
    fun other hother ↦ hqueued.live other (List.mem_cons_of_mem _ hother)⟩

end Queued

end Queued

/-! ### Each step is one of these -/

theorem Serving.point (hserving : driver.Serving streams state) :
    state.point = .serve ∨ state.point = .drain :=
  hserving.imp And.left And.left

/-- `Queued`, of a state. -/
abbrev QueuedIn (driver : Driver Answer) (state : LookupState n Answer) (coros : List (Fin n)) :
    Prop :=
  driver.Queued state.q state.nextArg state.coroutines coros

/-- The value of a coroutine's task is the answer to its call. -/
theorem resumeArg_taskOf {suspension : Suspension ℕ Answer Bool} :
    ∀ addr ∈ suspension.request?,
      driver.resumeArg (suspension.request?.bind driver.extra) = driver.answer addr := by
  intro addr haddr
  rw [Option.mem_def.mp haddr]
  rfl

variable (args) in
/-- Assumes: a task is taken next. -/
theorem exists_next_resumeNext (hserving : driver.Serving streams state)
    (hqueued : driver.QueuedIn state coros) :
    ∃ later, driver.Next args streams state coros
        (driver.resumeNext state (driver.returnsTo state.point)) later ∧
      driver.QueuedIn (driver.resumeNext state (driver.returnsTo state.point)) later := by
  cases coros with
  | nil =>
    have hdequeue := hqueued.holds.dequeue_nil ⟨none, none⟩
    rw [resumeNext, hdequeue]
    exact ⟨[], .crashes hserving rfl _, hqueued⟩
  | cons coro rest =>
    obtain ⟨suspension, hlive⟩ := hqueued.live coro List.mem_cons_self
    obtain ⟨htask, hrest⟩ := hqueued.dequeue ⟨none, none⟩
    rw [taskOf_live hlive] at htask
    rw [resumeNext]
    generalize state.q.dequeue ⟨none, none⟩ = dequeued at htask hrest ⊢
    obtain ⟨task, q⟩ := dequeued
    obtain rfl : task = _ := htask
    have hcoro : coro ∉ rest := (List.nodup_cons.mp hqueued.nodup).1
    have hupdate := fun lifetime ↦ hrest.update hcoro lifetime (Nat.le_refl _) hqueued.nextArg_le
      (hqueued.lt_nextArg hlive)
    dsimp only
    rw [hlive]
    dsimp only
    cases hresume : suspension.resume
        (driver.resumeArg (suspension.request?.bind driver.extra)) with
    | done found =>
      exact ⟨rest, .returns hserving rfl hlive resumeArg_taskOf hresume _, hupdate .deleted⟩
    | call addr next =>
      have hput := (hupdate (.live (.waits addr next))).enqueue hcoro (Function.update_self ..)
      have hroom : rest.length < capacity := by
        simpa using hqueued.holds.le
      rw [if_pos hroom] at hput
      exact ⟨rest ++ [coro], .suspends hserving rfl hlive resumeArg_taskOf hresume _, hput⟩

theorem exists_next_create (hpoint : state.point = .create) (hnext : state.nextArg < n)
    (hlimit : 0 < state.limit) (hqueued : driver.QueuedIn state coros) :
    ∃ later, driver.Next args streams state coros (driver.create args state hnext) later ∧
      driver.QueuedIn (driver.create args state hnext) later := by
  have hcoro := hqueued.next_notMem hnext
  have hupdate := hqueued.update hcoro (.live (.ready (driver.body (args ⟨state.nextArg, hnext⟩))))
    (Nat.le_succ _) hnext (Nat.lt_succ_self _)
  exact ⟨_, .creates hpoint hnext hlimit _, hupdate.enqueue hcoro (Function.update_self ..)⟩

variable (args streams) in
/-- Each step is one that `Next` describes. -/
theorem exists_next (hqueued : driver.QueuedIn state coros) :
    ∃ later, driver.Next args streams state coros (driver.step args streams state) later ∧
      driver.QueuedIn (driver.step args streams state) later := by
  unfold step
  cases hpoint : state.point with
  | feed =>
    dsimp only
    split
    · exact ⟨coros, .goes (.toCreate hpoint ‹_›), hqueued⟩
    · exact ⟨coros, .goes (.toDrain hpoint (Nat.le_of_not_lt ‹_›)), hqueued⟩
  | create =>
    dsimp only
    split
    · split
      · exact exists_next_create hpoint ‹_› ‹_› hqueued
      · exact ⟨coros, .goes (.toServe hpoint (.inr (not_lt.mp ‹_›))), hqueued⟩
    · exact ⟨coros, .goes (.toServe hpoint (.inl (Nat.le_of_not_lt ‹_›))), hqueued⟩
  | serve =>
    dsimp only
    split
    · have hserving : driver.Serving streams state := .inl ⟨hpoint, ‹_›⟩
      have hresume := exists_next_resumeNext args hserving hqueued
      rwa [returnsTo, if_pos hpoint] at hresume
    · exact ⟨coros, .goes (.toFeed hpoint (Bool.eq_false_of_not_eq_true ‹_›)), hqueued⟩
  | drain =>
    dsimp only
    split
    · have hserving : driver.Serving streams state := .inr ⟨hpoint, ‹_›⟩
      have hresume := exists_next_resumeNext args hserving hqueued
      rwa [returnsTo, hpoint, if_neg Point.noConfusion] at hresume
    · exact ⟨coros, .goes (.toReturned hpoint (not_lt.mp ‹_›)), hqueued⟩
  | returned => exact ⟨coros, .stays (.inl hpoint), hqueued⟩
  | crashed => exact ⟨coros, .stays (.inr hpoint), hqueued⟩

end Driver

end Libseff.Lookups
