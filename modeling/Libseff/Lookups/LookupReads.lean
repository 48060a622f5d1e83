import Libseff.Lookups.LookupResult

/-!
# What the lookups read

Each coroutine of a driver that interleaves is resumed once to start, and once for each key that its
plain search reads, in that order (`resumptions_follow_probes`), so as often as the length of the
array has binary digits, and once more (`resumptions_bounded`). The driver of
`libseff_effect_coro.c` reads eight bytes where there is a key of four, so when a search reads the
last key of the array, it reads four bytes behind the array (`reads_behind_iff`).
-/

set_option autoImplicit false
set_option relaxedAutoImplicit false

namespace Libseff.Lookups

open Foundation.SystemCalls

variable {n : ℕ} {Answer : Type}

namespace Driver

section Histories

variable (driver : Driver Answer) (args : Fin n → SearchArgs) (streams : ℤ)

/-- Whether a step takes a task. -/
def takes (state : LookupState n Answer) : Bool :=
  match state.point with
  | .serve => driver.serves state.limit
  | .drain => decide (state.limit < streams)
  | _ => false

/-- The coroutine that a step resumes, and the address whose key it then gets. -/
def resumed (state : LookupState n Answer) : Option (Fin n × Option ℕ) :=
  if driver.takes streams state then
    match (state.q.dequeue ⟨none, none⟩).1.coro with
    | some coro =>
      match state.coroutines coro with
      | .live suspension => some (coro, suspension.request?)
      | _ => none
    | none => none
  else
    none

/-- The coroutines resumed by the steps before a moment. -/
def history (moment : ℕ) : List (Fin n × Option ℕ) :=
  (List.range moment).filterMap fun earlier ↦
    driver.resumed streams (driver.after args streams earlier)

/-- What a coroutine is still resumed for: to start, and for each key. -/
def future (coro : Fin n) : Lifetime (Suspension ℕ Answer Bool) → List (Option ℕ)
  | .unmade => none :: ((driver.body (args coro)).asked driver.answer).map some
  | .live suspension =>
    suspension.request? :: ((suspension.rest driver.answer).asked driver.answer).map some
  | .deleted => []

/-- What one coroutine is resumed for. -/
def resumptionsOf (coro : Fin n) (resumptions : List (Fin n × Option ℕ)) : List (Option ℕ) :=
  resumptions.filterMap fun resumption ↦
    if resumption.1 = coro then some resumption.2 else none

end Histories

variable {driver : Driver Answer} {args : Fin n → SearchArgs} {streams : ℤ}
  {state later : LookupState n Answer} {coros left : List (Fin n)}

theorem takes_iff : driver.takes streams state = true ↔ driver.Serving streams state := by
  unfold takes Serving
  cases state.point <;> simp

theorem resumed_of_serving {coro : Fin n} {rest : List (Fin n)}
    {suspension : Suspension ℕ Answer Bool} (hserving : driver.Serving streams state)
    (hqueued : driver.QueuedIn state (coro :: rest))
    (hlive : state.coroutines coro = .live suspension) :
    driver.resumed streams state = some (coro, suspension.request?) := by
  rw [resumed, if_pos (takes_iff.mpr hserving), (hqueued.dequeue ⟨none, none⟩).1, taskOf_live hlive]
  dsimp only
  rw [hlive]

theorem resumed_of_not_serving (hserving : ¬ driver.Serving streams state) :
    driver.resumed streams state = none :=
  if_neg (mt takes_iff.mp hserving)

theorem resumed_of_nil (hqueued : driver.QueuedIn state []) :
    driver.resumed streams state = none := by
  rw [resumed, hqueued.holds.dequeue_nil]
  split
  · rfl
  · rfl

theorem Goes.not_serving {point : Point} (hgoes : driver.Goes streams state point) :
    ¬ driver.Serving streams state := by
  rintro (⟨hserve, hserves⟩ | ⟨hdrain, hlimit⟩)
  · cases hgoes with
    | toFeed _ hnot => simp [hnot] at hserves
    | toCreate hpoint | toDrain hpoint | toServe hpoint | toReturned hpoint =>
      cases hserve.symm.trans hpoint
  · cases hgoes with
    | toReturned _ hnot => omega
    | toCreate hpoint | toDrain hpoint | toServe hpoint | toFeed hpoint =>
      cases hdrain.symm.trans hpoint

/-- One coroutine changes, and the future of the others stays. -/
theorem future_update {coroutines : Fin n → Lifetime (Suspension ℕ Answer Bool)} {coro : Fin n}
    (lifetime : Lifetime (Suspension ℕ Answer Bool)) (other : Fin n) :
    driver.future args other (Function.update coroutines coro lifetime other) =
      if coro = other then driver.future args coro lifetime
      else driver.future args other (coroutines other) := by
  split
  · rename_i heq
    obtain rfl := heq
    rw [Function.update_self]
  · rename_i hne
    rw [Function.update_of_ne (Ne.symm hne)]

/-- A step takes from the future of a coroutine what it resumes it for. -/
theorem future_next (hqueued : driver.QueuedIn state coros)
    (hnext : driver.Next args streams state coros later left) (coro : Fin n) :
    driver.future args coro (state.coroutines coro) =
      resumptionsOf coro (driver.resumed streams state).toList ++
        driver.future args coro (later.coroutines coro) := by
  cases hnext with
  | goes hgoes =>
    rw [resumed_of_not_serving hgoes.not_serving]
    rfl
  | creates hpoint hnext hroom q =>
    have hserving : ¬ driver.Serving streams state := by
      intro hserving
      rcases hserving.point with hserve | hdrain
      · cases hpoint.symm.trans hserve
      · cases hpoint.symm.trans hdrain
    rw [resumed_of_not_serving hserving, future_update]
    split
    · rename_i heq
      obtain rfl := heq
      rw [hqueued.unmade _ (Nat.le_refl _)]
      rfl
    · rfl
  | @suspends hserving taken rest hcoros suspension hold value hvalue addr next hresume q =>
    obtain rfl := hcoros
    have hrest := (Suspension.resume_eq_rest hvalue).symm.trans hresume
    rw [resumed_of_serving hserving hqueued hold, future_update]
    split
    · rename_i heq
      obtain rfl := heq
      rw [hold, future, hrest]
      simp [resumptionsOf, future, Program.asked, Suspension.request?, Suspension.rest]
    · rename_i hne
      simp [resumptionsOf, hne]
  | @returns hserving taken _ hcoros suspension hold value hvalue found hresume q =>
    obtain rfl := hcoros
    have hrest := (Suspension.resume_eq_rest hvalue).symm.trans hresume
    rw [resumed_of_serving hserving hqueued hold, future_update]
    split
    · rename_i heq
      obtain rfl := heq
      rw [hold, future, hrest]
      simp [resumptionsOf, future, Program.asked]
    · rename_i hne
      simp [resumptionsOf, hne]
  | crashes hserving hcoros q =>
    obtain rfl := hcoros
    rw [resumed_of_nil hqueued]
    rfl
  | stays hstays =>
    have hserving : ¬ driver.Serving streams state := by
      intro hserving
      rcases hserving.point with hserve | hdrain
      · simp [hserve] at hstays
      · simp [hdrain] at hstays
    rw [resumed_of_not_serving hserving]
    rfl

/-! ### Runs -/

theorem history_succ (moment : ℕ) : driver.history args streams (moment + 1) =
    driver.history args streams moment ++
      (driver.resumed streams (driver.after args streams moment)).toList := by
  rw [history, List.range_succ, List.filterMap_append, history]
  refine congrArg _ ?_
  cases hresumed : driver.resumed streams (driver.after args streams moment) with
  | none => simp [hresumed]
  | some resumption => simp [hresumed]

variable (driver args streams) in
/-- At any moment a coroutine has been resumed for the first of what it is resumed for in all. -/
theorem future_after (moment : ℕ) :
    ∃ coros, driver.QueuedIn (driver.after args streams moment) coros ∧
      ∀ coro, driver.future args coro .unmade =
        resumptionsOf coro (driver.history args streams moment) ++
          driver.future args coro ((driver.after args streams moment).coroutines coro) := by
  induction moment with
  | zero => exact ⟨[], queued_initial, fun _ ↦ rfl⟩
  | succ moment ih =>
    obtain ⟨coros, hqueued, hfuture⟩ := ih
    obtain ⟨left, hnext, hlater⟩ := exists_next args streams hqueued
    have hstep : driver.after args streams (moment + 1) =
        driver.step args streams (driver.after args streams moment) :=
      Function.iterate_succ_apply' ..
    refine ⟨left, hstep ▸ hlater, fun coro ↦ ?_⟩
    rw [hfuture coro, future_next hqueued hnext coro, history_succ, hstep, ← List.append_assoc]
    refine congrArg (· ++ _) ?_
    rw [resumptionsOf, resumptionsOf, resumptionsOf, List.filterMap_append]

/-- A coroutine is resumed for the first of what it is resumed for in all. -/
theorem resumptionsOf_starts (coro : Fin n) (moment : ℕ) :
    resumptionsOf coro (driver.history args streams moment) <+:
      driver.future args coro .unmade := by
  obtain ⟨coros, -, hfuture⟩ := future_after driver args streams moment
  exact ⟨_, (hfuture coro).symm⟩

/-- Assumes: a coroutine that is deleted. It has been resumed for all. -/
theorem resumptionsOf_history {moment : ℕ} {coro : Fin n}
    (hdeleted : (driver.after args streams moment).coroutines coro = .deleted) :
    resumptionsOf coro (driver.history args streams moment) =
      driver.future args coro .unmade := by
  obtain ⟨coros, -, hfuture⟩ := future_after driver args streams moment
  have hcoro := hfuture coro
  rw [hdeleted] at hcoro
  exact (hcoro.trans (List.append_nil _)).symm

end Driver

/-! ### The two drivers -/

open Driver

variable {v : ℕ → BitVec 32} {vSize : ℕ} {lookups : List (BitVec 32)} {streams : ℤ} {moment : ℕ}

/-- What each coroutine is resumed for in all. -/
theorem future_effect (v : ℕ → BitVec 32) (vSize : ℕ) (lookup : Fin lookups.length) :
    (effect v).future (searchArgs vSize lookups) lookup .unmade =
      none :: (probes v (searchArgs vSize lookups lookup)).map some :=
  congrArg (fun asked : List ℕ ↦ none :: asked.map some)
    (asked_binarySearch (setWidth_answer_effect v))

/-- At every moment of a run a coroutine has been resumed to start and then for the first of the
keys that its plain search reads, in this order; when the driver returns, for all of them. -/
theorem resumptions_follow_probes (v : ℕ → BitVec 32) (vSize : ℕ) (lookups : List (BitVec 32))
    (streams : ℤ) (moment : ℕ) (lookup : Fin lookups.length) :
    (resumptionsOf lookup ((effect v).history (searchArgs vSize lookups) streams moment) <+:
          none :: (probes v (searchArgs vSize lookups lookup)).map some ∧
        ((seffEffectMultiLookup v vSize lookups streams moment).point = .returned →
          resumptionsOf lookup ((effect v).history (searchArgs vSize lookups) streams moment) =
            none :: (probes v (searchArgs vSize lookups lookup)).map some)) ∧
      (resumptionsOf lookup ((«yield» v).history (searchArgs vSize lookups) streams moment) <+:
          none :: (probes v (searchArgs vSize lookups lookup)).map some ∧
        ((seffMultiLookup v vSize lookups streams moment).point = .returned →
          resumptionsOf lookup ((«yield» v).history (searchArgs vSize lookups) streams moment) =
            none :: (probes v (searchArgs vSize lookups lookup)).map some)) := by
  refine ⟨⟨?_, fun hreturned ↦ ?_⟩, ?_, fun hreturned ↦ ?_⟩
  · rw [← future_effect]
    exact resumptionsOf_starts ..
  · have hdeleted := (counted_of_returned (effect_lawful v) outcome_effect hreturned).deleted lookup
    rw [← future_effect]
    exact resumptionsOf_history hdeleted
  · exact resumptionsOf_starts ..
  · have hdeleted := (counted_of_returned (yield_lawful v) outcome_yield hreturned).deleted lookup
    exact resumptionsOf_history hdeleted

/-- A coroutine is resumed at most once more than there are rounds, and for keys of the array. -/
structure Bounded (vSize rounds : ℕ) (resumptions : List (Option ℕ)) : Prop where
  length_le : resumptions.length ≤ rounds + 1
  lt : ∀ addr, some addr ∈ resumptions → addr < vSize

theorem bounded_of_starts {rounds : ℕ} (hsize : vSize < 2 ^ rounds) (lookup : Fin lookups.length)
    {resumptions : List (Option ℕ)}
    (hstarts : resumptions <+: none :: (probes v (searchArgs vSize lookups lookup)).map some) :
    Bounded vSize rounds resumptions where
  length_le := by
    refine hstarts.length_le.trans ?_
    rw [List.length_cons, List.length_map]
    exact Nat.succ_le_succ (length_probes_le hsize)
  lt addr haddr := by
    have hmem := hstarts.subset haddr
    simp only [List.mem_cons, reduceCtorEq, List.mem_map, Option.some.injEq, exists_eq_right,
      false_or] at hmem
    exact (Nat.zero_add vSize) ▸ (mem_probes hmem).2

/-- Assumes: fewer than `2 ^ rounds` keys. At every moment of every run, also of one that does not
return. -/
theorem resumptions_bounded (v : ℕ → BitVec 32) {vSize rounds : ℕ} (hsize : vSize < 2 ^ rounds)
    (lookups : List (BitVec 32)) (streams : ℤ) (moment : ℕ) (lookup : Fin lookups.length) :
    Bounded vSize rounds
        (resumptionsOf lookup ((effect v).history (searchArgs vSize lookups) streams moment)) ∧
      Bounded vSize rounds
        (resumptionsOf lookup ((«yield» v).history (searchArgs vSize lookups) streams moment)) := by
  have heffect : resumptionsOf lookup
      ((effect v).history (searchArgs vSize lookups) streams moment) <+:
        none :: (probes v (searchArgs vSize lookups lookup)).map some := by
    rw [← future_effect]
    exact resumptionsOf_starts ..
  exact ⟨bounded_of_starts hsize lookup heffect,
    bounded_of_starts hsize lookup (resumptionsOf_starts ..)⟩

theorem resumptions_bounded_four :
    Bounded 4 3 (resumptionsOf 0
        ((effect fun i ↦ BitVec.ofNat 32 i).history (searchArgs 4 [2, 5]) 2 20)) ∧
      Bounded 4 3 (resumptionsOf 1
        ((«yield» fun i ↦ BitVec.ofNat 32 i).history (searchArgs 4 [2, 5]) 2 20)) :=
  ⟨(resumptions_bounded (fun i ↦ BitVec.ofNat 32 i) (by decide : 4 < 2 ^ 3) [2, 5] 2 20
      ⟨0, by decide⟩).1,
    (resumptions_bounded (fun i ↦ BitVec.ofNat 32 i) (by decide : 4 < 2 ^ 3) [2, 5] 2 20
      ⟨1, by decide⟩).2⟩

theorem mem_resumptionsOf {lookup : Fin n} {request : Option ℕ}
    {resumptions : List (Fin n × Option ℕ)} :
    request ∈ resumptionsOf lookup resumptions ↔ (lookup, request) ∈ resumptions := by
  simp only [resumptionsOf, List.mem_filterMap, Option.ite_none_right_eq_some, Option.some.injEq,
    Prod.exists]
  constructor
  · rintro ⟨_, _, hmem, rfl, rfl⟩
    exact hmem
  · exact fun hmem ↦ ⟨lookup, request, hmem, rfl, rfl⟩

/-- Assumes: the driver of `libseff_effect_coro.c` returns. It has read eight bytes that are not all
in the array exactly if some search reads the last key. -/
theorem reads_behind_iff (v : ℕ → BitVec 32) (vSize : ℕ) (lookups : List (BitVec 32)) (streams : ℤ)
    (moment : ℕ)
    (hreturned : (seffEffectMultiLookup v vSize lookups streams moment).point = .returned) :
    (∃ lookup addr, (lookup, some addr) ∈
        (effect v).history (searchArgs vSize lookups) streams moment ∧ vSize < addr + 2) ↔
      ∃ key ∈ lookups, vSize - 1 ∈ probes v ⟨0, vSize, key⟩ := by
  have hdeleted := (counted_of_returned (effect_lawful v) outcome_effect hreturned).deleted
  have hread (lookup : Fin lookups.length) (addr : ℕ) : (lookup, some addr) ∈
      (effect v).history (searchArgs vSize lookups) streams moment ↔
        addr ∈ probes v ⟨0, vSize, lookups.get lookup⟩ := by
    rw [← mem_resumptionsOf, resumptionsOf_history (hdeleted lookup), future_effect]
    simp [searchArgs]
  constructor
  · rintro ⟨lookup, addr, hmem, hbehind⟩
    rw [hread] at hmem
    have hrange := (mem_probes hmem).2
    rw [show vSize - 1 = addr by omega]
    exact ⟨lookups.get lookup, List.get_mem .., hmem⟩
  · rintro ⟨key, hkey, hmem⟩
    obtain ⟨lookup, rfl⟩ := List.get_of_mem hkey
    have hrange := (mem_probes hmem).2
    exact ⟨lookup, vSize - 1, (hread lookup _).mpr hmem, by omega⟩

/-- In the array of the key two, the search for five reads behind the array. -/
theorem reads_behind_two : ∃ lookup addr, (lookup, some addr) ∈
    (effect fun _ ↦ 2).history (searchArgs 1 [5]) 1 8 ∧ 1 < addr + 2 := by
  have hlast : 1 - 1 ∈ probes (fun _ ↦ 2) ⟨0, 1, 5⟩ :=
    last_mem_probes Nat.one_pos fun _ _ _ ↦ by decide
  exact (reads_behind_iff (fun _ ↦ 2) 1 [5] 1 8 (by decide +kernel)).mpr
    ⟨5, List.mem_singleton_self 5, hlast⟩

end Libseff.Lookups
