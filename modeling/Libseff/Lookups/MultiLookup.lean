import Libseff.Lookups.BinarySearch
import Libseff.Lookups.CoroQueue

/-!
# Interleaved lookups

The drivers of `bench/prefetching_lookups_bench`, which look many keys up in one array. The plain
driver searches for one key after another, and the driver of `libseff_effect_naive.c` does so with
a coroutine for each key. The other two drivers keep several searches going: a coroutine is made for
a key while fewer than `streams` of them are live, and the coroutines wait in a queue to be resumed
in turn, so that the key which one of them asked for is prefetched while the others go on.

The two drivers differ in what a coroutine is resumed with, in when they serve the queue, and in
what they do after a coroutine has finished; a `Driver` says these. A coroutine is known by the
argument that it was made for. Allocations succeed.
-/

set_option autoImplicit false
set_option relaxedAutoImplicit false

namespace Libseff.Lookups

open Foundation.SystemCalls

/-! ### One lookup at a time -/

/-- `testNaive`. -/
def testNaive (v : ℕ → BitVec 32) (vSize : ℕ) (lookups : List (BitVec 32)) : ℕ :=
  lookups.foldl (fun found key ↦ if naiveBinarySearch v key 0 vSize then found + 1 else found) 0

/-- The loop over one coroutine: it is resumed with the key that it asked for, as an `int64_t`. -/
def resumeToEnd (v : ℕ → BitVec 32) : Program ℕ (fun _ ↦ BitVec 64) Bool → Bool
  | .done found => found
  | .call addr next => resumeToEnd v (next ((v addr).signExtend 64))

/-- `SeffEffectSingleLookup`: the keys found, and the keys not found. -/
def seffEffectSingleLookup (v : ℕ → BitVec 32) (vSize : ℕ) (lookups : List (BitVec 32)) : ℕ × ℕ :=
  lookups.foldl (fun counts key ↦
    let res := (resumeToEnd v (seffEffectBinarySearch ⟨0, vSize, key⟩)).toNat
    (counts.1 + res, counts.2 + (1 - res))) (0, 0)

/-! ### Several lookups at a time -/

/-- `task_t`. -/
structure TaskT (n : ℕ) where
  coro : Option (Fin n)
  extra : Option ℕ

/-- Where a driver is: at the head of one of its loops, or at its end. -/
inductive Point
  /-- `for (size_t next_arg = 0; next_arg < lookups_size;)` -/
  | feed
  /-- `while (next_arg < lookups_size && limit > 0)` -/
  | create
  /-- `while (limit == 0)`, or `while (1)` -/
  | serve
  /-- `while (limit < streams)` -/
  | drain
  | returned
  /-- A coroutine was resumed that is not there. -/
  | crashed
  deriving DecidableEq

/-- The locals of a driver and the coroutines. -/
structure LookupState (n : ℕ) (Answer : Type) where
  point : Point
  foundCount : ℕ
  notFoundCount : ℕ
  limit : ℤ
  q : CoroQueue (TaskT n)
  nextArg : ℕ
  coroutines : Fin n → Lifetime (Suspension ℕ Answer Bool)

/-- What one of the two drivers does in its own way. -/
structure Driver (Answer : Type) where
  body : SearchArgs → Program ℕ (fun _ ↦ Answer) Bool
  /-- What a coroutine is resumed with, by the address in its task. -/
  resumeArg : Option ℕ → Answer
  /-- What goes into the task of a coroutine that is suspended at an address. -/
  extra : ℕ → Option ℕ
  /-- Whether a task is taken at the head of the inner loop. -/
  serves : ℤ → Bool
  /-- Where the inner loop goes on after a coroutine has finished. -/
  afterReturn : Point

/-- The driver of `libseff_effect_coro.c`. It reads eight bytes at an address, the key there and the
next one. -/
def effect (v : ℕ → BitVec 32) : Driver (BitVec 64) where
  body := seffEffectBinarySearch
  resumeArg extra :=
    match extra with
    | some toRead => v (toRead + 1) ++ v toRead
    | none => 0
  extra := some
  serves limit := limit == 0
  afterReturn := .serve

/-- The driver of `libseff.c`. -/
def «yield» (v : ℕ → BitVec 32) : Driver Unit where
  body := seffBinarySearch v
  resumeArg _ := ()
  extra _ := none
  serves _ := true
  afterReturn := .feed

namespace Driver

variable {n : ℕ} {Answer : Type} (driver : Driver Answer) (args : Fin n → SearchArgs) (streams : ℤ)

/-- Before the loops. -/
def initial : LookupState n Answer where
  point := .feed
  foundCount := 0
  notFoundCount := 0
  limit := streams
  q := coroQueueInit fun _ ↦ ⟨none, none⟩
  nextArg := 0
  coroutines _ := .unmade

/-- The next coroutine is made. -/
def create (state : LookupState n Answer) (hnext : state.nextArg < n) : LookupState n Answer :=
  let coro : Fin n := ⟨state.nextArg, hnext⟩
  { state with
    limit := state.limit - 1
    coroutines := Function.update state.coroutines coro (.live (.ready (driver.body (args coro))))
    nextArg := state.nextArg + 1
    q := (state.q.enqueue ⟨some coro, none⟩).1 }

/-- A task is taken and its coroutine resumed. -/
def resumeNext (state : LookupState n Answer) (afterReturn : Point) : LookupState n Answer :=
  let (task, q) := state.q.dequeue ⟨none, none⟩
  match task.coro with
  | none => { state with q, point := .crashed }
  | some coro =>
    match state.coroutines coro with
    | .live suspension =>
      match suspension.resume (driver.resumeArg task.extra) with
      | .done found =>
        { state with
          q
          foundCount := state.foundCount + found.toNat
          notFoundCount := state.notFoundCount + (1 - found.toNat)
          coroutines := Function.update state.coroutines coro .deleted
          limit := state.limit + 1
          point := afterReturn }
      | .call addr next =>
        { state with
          q := (q.enqueue ⟨some coro, driver.extra addr⟩).1
          coroutines := Function.update state.coroutines coro (.live (.waits addr next)) }
    | _ => { state with q, point := .crashed }

/-- From the head of a loop to the next one. -/
def step (state : LookupState n Answer) : LookupState n Answer :=
  match state.point with
  | .feed => { state with point := if state.nextArg < n then .create else .drain }
  | .create =>
    if hnext : state.nextArg < n then
      if 0 < state.limit then driver.create args state hnext else { state with point := .serve }
    else { state with point := .serve }
  | .serve =>
    if driver.serves state.limit then driver.resumeNext state driver.afterReturn
    else { state with point := .feed }
  | .drain =>
    if state.limit < streams then driver.resumeNext state .drain
    else { state with point := .returned }
  | .returned => state
  | .crashed => state

/-- The driver after so many steps. -/
def after (moment : ℕ) : LookupState n Answer :=
  (driver.step args streams)^[moment] (initial streams)

end Driver

/-- The arguments of a driver's coroutines. -/
def searchArgs (vSize : ℕ) (lookups : List (BitVec 32)) (lookup : Fin lookups.length) :
    SearchArgs where
  first := 0
  len := vSize
  key := lookups.get lookup

/-- `SeffEffectMultiLookup`, after so many steps. -/
def seffEffectMultiLookup (v : ℕ → BitVec 32) (vSize : ℕ) (lookups : List (BitVec 32)) (streams : ℤ)
    (moment : ℕ) : LookupState lookups.length (BitVec 64) :=
  (effect v).after (searchArgs vSize lookups) streams moment

/-- `SeffMultiLookup`, after so many steps. -/
def seffMultiLookup (v : ℕ → BitVec 32) (vSize : ℕ) (lookups : List (BitVec 32)) (streams : ℤ)
    (moment : ℕ) : LookupState lookups.length Unit :=
  («yield» v).after (searchArgs vSize lookups) streams moment

end Libseff.Lookups
