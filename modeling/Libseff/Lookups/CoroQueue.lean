import Mathlib.Logic.Function.Basic
import Mathlib.Tactic.Common

/-!
# The queue of coroutines

`coro_queue` of `bench/prefetching_lookups_bench/libseff_infra.h`: a ring of fixed capacity. It is a
first-in-first-out list of at most that many tasks (`Holds`): a task that comes when it is full is
refused, and a caller that takes from an empty one gets a null task.
-/

set_option autoImplicit false
set_option relaxedAutoImplicit false

namespace Libseff.Lookups

variable {Task : Type*}

def capacity : ℕ := 256

/-- `coro_queue`, with the array by its indices. -/
structure CoroQueue (Task : Type*) where
  coros : ℕ → Task
  start : ℕ
  size : ℕ

/-- `coro_queue_init`, for the array that `calloc` gives. -/
def coroQueueInit (coros : ℕ → Task) : CoroQueue Task := ⟨coros, 0, 0⟩

namespace CoroQueue

/-- `coro_queue_enqueue`. -/
def enqueue (queue : CoroQueue Task) (task : Task) : CoroQueue Task × Bool :=
  if queue.size = capacity then
    (queue, false)
  else
    let writeLoc := (queue.start + queue.size) % capacity
    ({ queue with
        coros := Function.update queue.coros writeLoc task
        size := queue.size + 1 }, true)

/-- `coro_queue_dequeue`, where `null` is the task with null pointers. -/
def dequeue (queue : CoroQueue Task) (null : Task) : Task × CoroQueue Task :=
  if queue.size = 0 then
    (null, queue)
  else
    (queue.coros queue.start,
      { queue with
        start := (queue.start + 1) % capacity
        size := queue.size - 1 })

/-- The tasks in the queue, in the order in which they are taken. -/
structure Holds (queue : CoroQueue Task) (tasks : List Task) : Prop where
  size : queue.size = tasks.length
  le : tasks.length ≤ capacity
  coros : ∀ i (hi : i < tasks.length), queue.coros ((queue.start + i) % capacity) = tasks[i]
  start : queue.start < capacity

variable {queue : CoroQueue Task} {tasks : List Task}

theorem holds_init (coros : ℕ → Task) : (coroQueueInit coros).Holds [] where
  size := rfl
  le := Nat.zero_le _
  coros i hi := absurd hi (Nat.not_lt_zero i)
  start := Nat.pos_of_ne_zero (by simp [capacity])

/-- Two of at most `capacity` places from the start on are different. -/
theorem place_ne {start i j : ℕ} (hi : i < j) (hj : j < capacity) :
    (start + i) % capacity ≠ (start + j) % capacity := by
  unfold capacity at *
  omega

/-- Assumes: room. A task is put at the end. -/
theorem Holds.enqueue (hqueue : queue.Holds tasks) (hroom : tasks.length < capacity) (task : Task) :
    (queue.enqueue task).1.Holds (tasks ++ [task]) := by
  have hsize : queue.size ≠ capacity := hqueue.size ▸ Nat.ne_of_lt hroom
  rw [CoroQueue.enqueue, if_neg hsize]
  refine ⟨by simp [hqueue.size], ?_, fun i hi ↦ ?_, hqueue.start⟩
  · rw [List.length_append, List.length_singleton]
    exact hroom
  rw [List.length_append, List.length_singleton] at hi
  rcases Nat.lt_succ_iff_lt_or_eq.mp hi with hold | rfl
  · have hne : (queue.start + i) % capacity ≠ (queue.start + queue.size) % capacity :=
      place_ne (by rwa [hqueue.size]) (by rwa [hqueue.size])
    simp only [Function.update_of_ne hne]
    rw [List.getElem_append_left hold]
    exact hqueue.coros i hold
  · simp [hqueue.size]

/-- Assumes: no room. The queue stays as it is. -/
theorem Holds.enqueue_full (hqueue : queue.Holds tasks) (hfull : tasks.length = capacity)
    (task : Task) : queue.enqueue task = (queue, false) :=
  if_pos (hqueue.size.trans hfull)

theorem Holds.dequeue_nil (hqueue : queue.Holds ([] : List Task)) (null : Task) :
    queue.dequeue null = (null, queue) :=
  if_pos hqueue.size

/-- The first task is taken. -/
theorem Holds.dequeue {task : Task} (hqueue : queue.Holds (task :: tasks)) (null : Task) :
    (queue.dequeue null).1 = task ∧ (queue.dequeue null).2.Holds tasks := by
  have hsize : queue.size ≠ 0 := by simp [hqueue.size]
  rw [CoroQueue.dequeue, if_neg hsize]
  have hfirst := hqueue.coros 0 (Nat.succ_pos _)
  rw [Nat.add_zero, Nat.mod_eq_of_lt hqueue.start] at hfirst
  refine ⟨hfirst, by simp [hqueue.size], Nat.le_of_succ_le hqueue.le, fun i hi ↦ ?_,
    Nat.mod_lt _ (Nat.zero_lt_of_lt hqueue.start)⟩
  have hnext := hqueue.coros (i + 1) (Nat.succ_lt_succ hi)
  rw [List.getElem_cons_succ, Nat.add_comm i 1, ← Nat.add_assoc] at hnext
  simpa [Nat.add_mod] using hnext

end CoroQueue

end Libseff.Lookups
