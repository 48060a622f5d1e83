import Libseff.Lookups.LookupAccounts

/-!
# When a driver returns

The queue has `capacity` places. As long as each live coroutine has its place, a driver gets on:
each round of its loops makes a coroutine or resumes one, and a coroutine is resumed once more than
its body asks (`exists_returned`). A coroutine that finds the queue full is lost, and a driver
that has lost one waits for it and never returns (`Lost.next`, `ne_returned_of_lost`).
-/

set_option autoImplicit false
set_option relaxedAutoImplicit false

namespace Libseff.Lookups

open Foundation.SystemCalls

variable {n : ℕ} {Answer : Type}

namespace Driver

section Conditions

variable (driver : Driver Answer) (args : Fin n → SearchArgs) (streams : ℤ)

/-- All live coroutines are in the queue, and a driver that takes a task finds one. -/
structure Healthy (state : LookupState n Answer) (coros : List (Fin n)) : Prop where
  all : ∀ coro suspension, state.coroutines coro = .live suspension → coro ∈ coros
  limit : 0 ≤ state.limit
  create : state.point = .create → state.nextArg < n ∨ coros ≠ []
  serve : state.point = .serve → driver.serves state.limit = true → coros ≠ []
  running : state.point ≠ .crashed

/-- A live coroutine is not in the queue. -/
def Lost (state : LookupState n Answer) (coros : List (Fin n)) : Prop :=
  ∃ coro suspension, state.coroutines coro = .live suspension ∧ coro ∉ coros

/-- The driver is in the first round of the outer loop and has only made coroutines. -/
structure Filling (state : LookupState n Answer) (coros : List (Fin n)) : Prop where
  point : state.point = .feed ∨ state.point = .create
  nextArg : state.nextArg = coros.length
  limit : state.limit = streams - coros.length

/-- The driver has made no coroutine. -/
structure Idle (state : LookupState n Answer) (coros : List (Fin n)) : Prop where
  point : state.point ≠ .drain ∧ state.point ≠ .returned
  nextArg : state.nextArg = 0
  limit : state.limit = streams
  coros : coros = []

/-- A bound of what is still done to a coroutine. -/
def work (coro : Fin n) : Lifetime (Suspension ℕ Answer Bool) → ℕ
  | .unmade => ((driver.body (args coro)).asked driver.answer).length + 2
  | .live suspension => suspension.resumptions driver.answer
  | .deleted => 0

/-- A bound of the steps until a coroutine is made or resumed. -/
def rank (state : LookupState n Answer) : ℕ :=
  match state.point with
  | .feed => if state.nextArg < n then 5 else 2
  | .create => 4
  | .serve => if driver.serves state.limit = true ∨ n ≤ state.nextArg then 3 else 6
  | .drain => 1
  | .returned => 0
  | .crashed => 0

/-- A bound of the steps until a driver returns. -/
def stepsLeft (state : LookupState n Answer) : ℕ :=
  7 * ∑ coro, driver.work args coro (state.coroutines coro) + driver.rank state

end Conditions

variable {driver : Driver Answer} {args : Fin n → SearchArgs} {streams : ℤ}
  {state later : LookupState n Answer} {coros left : List (Fin n)}

/-! ### The number of live coroutines -/

/-- The queue holds live coroutines, each of them once. -/
theorem length_le_live (hqueued : driver.QueuedIn state coros) :
    coros.length ≤ ∑ coro, countLive (state.coroutines coro) := by
  rw [← List.toFinset_card_of_nodup hqueued.nodup, Finset.card_eq_sum_ones]
  refine (Finset.sum_le_sum fun coro hcoro ↦ ?_).trans
    (Finset.sum_le_sum_of_subset (Finset.subset_univ _))
  obtain ⟨suspension, hlive⟩ := hqueued.live coro (List.mem_toFinset.mp hcoro)
  rw [hlive, countLive_live]

/-- A coroutine is at most one that is live. -/
theorem countLive_le_one (lifetime : Lifetime (Suspension ℕ Answer Bool)) :
    countLive lifetime ≤ 1 := by
  cases lifetime with
  | unmade => exact Nat.zero_le 1
  | live suspension => exact Nat.le_refl 1
  | deleted => exact Nat.zero_le 1

/-- Assumes: a coroutine that is not made. -/
theorem live_lt (hqueued : driver.QueuedIn state coros) (hnext : state.nextArg < n) :
    ∑ coro, countLive (state.coroutines coro) < n := by
  have hlt : ∑ coro, countLive (state.coroutines coro) < ∑ _coro : Fin n, 1 := by
    refine Finset.sum_lt_sum (fun coro _ ↦ countLive_le_one _)
      ⟨⟨state.nextArg, hnext⟩, Finset.mem_univ _, ?_⟩
    rw [hqueued.unmade _ (Nat.le_refl _), countLive_unmade]
    exact Nat.one_pos
  simpa using hlt

/-- Assumes: the limit has gone down. A coroutine is live. -/
theorem Accounts.exists_live (haccounts : driver.Accounts args streams state)
    (hlimit : state.limit < streams) : ∃ coro suspension,
      state.coroutines coro = .live suspension := by
  have hsum := haccounts.limit
  have hpos : ∑ coro, countLive (state.coroutines coro) ≠ 0 := by omega
  obtain ⟨coro, -, hcoro⟩ := Finset.exists_ne_zero_of_sum_ne_zero hpos
  cases hlifetime : state.coroutines coro with
  | unmade =>
    rw [hlifetime] at hcoro
    exact absurd rfl hcoro
  | live suspension => exact ⟨coro, suspension, hlifetime⟩
  | deleted =>
    rw [hlifetime] at hcoro
    exact absurd rfl hcoro

/-- Assumes: the streams or the lookups fit into the queue. Where a coroutine may be made, there is
room. -/
theorem Accounts.length_lt (haccounts : driver.Accounts args streams state)
    (hqueued : driver.QueuedIn state coros) (hfits : streams ≤ capacity ∨ n ≤ capacity)
    (hnext : state.nextArg < n) (hlimit : 0 < state.limit) : coros.length < capacity := by
  have hlength := length_le_live hqueued
  have hlive := live_lt hqueued hnext
  have hsum := haccounts.limit
  omega

/-! ### All coroutines in the queue -/

theorem healthy_initial (hstreams : 0 < streams) :
    driver.Healthy (initial streams : LookupState n Answer) [] where
  all _ _ hlive := by cases hlive
  limit := hstreams.le
  create hpoint := by cases hpoint
  serve hpoint := by cases hpoint
  running hpoint := by cases hpoint

/-- A driver that takes a task finds one. -/
theorem Healthy.ne_nil (hhealthy : driver.Healthy state coros)
    (haccounts : driver.Accounts args streams state) (hserving : driver.Serving streams state) :
    coros ≠ [] := by
  rcases hserving with ⟨hserve, hserves⟩ | ⟨-, hlimit⟩
  · exact hhealthy.serve hserve hserves
  · obtain ⟨coro, suspension, hlive⟩ := haccounts.exists_live hlimit
    exact List.ne_nil_of_mem (hhealthy.all coro suspension hlive)

/-- When a task is taken, the other live coroutines stay in the queue. -/
theorem Healthy.mem_rest (hhealthy : driver.Healthy state coros) {coro other : Fin n}
    {rest : List (Fin n)} (hcoros : coros = coro :: rest) {suspension : Suspension ℕ Answer Bool}
    (hlive : state.coroutines other = .live suspension) (hne : other ≠ coro) : other ∈ rest := by
  have hmem := hhealthy.all other suspension hlive
  rw [hcoros, List.mem_cons] at hmem
  exact hmem.resolve_left hne

/-- Assumes: a coroutine that is live after it changes is in the queue then, and the others stay. -/
theorem all_update {coroutines : Fin n → Lifetime (Suspension ℕ Answer Bool)} {coro : Fin n}
    {lifetime : Lifetime (Suspension ℕ Answer Bool)}
    (hall : ∀ other suspension, coroutines other = .live suspension → other ≠ coro → other ∈ left)
    (hcoro : ∀ suspension, lifetime = .live suspension → coro ∈ left) :
    ∀ other suspension, Function.update coroutines coro lifetime other = .live suspension →
      other ∈ left := by
  intro other suspension hlive
  rcases eq_or_ne other coro with rfl | hne
  · rw [Function.update_self] at hlive
    exact hcoro suspension hlive
  · rw [Function.update_of_ne hne] at hlive
    exact hall other suspension hlive hne

theorem Lawful.returnsTo_ne (hlawful : driver.Lawful) (hserving : driver.Serving streams state) :
    driver.returnsTo state.point ≠ .create ∧ driver.returnsTo state.point ≠ .crashed := by
  rcases hserving.point with hserve | hdrain
  · rw [hserve, returnsTo, if_pos rfl]
    rcases hlawful.afterReturn with hfeed | ⟨hserve, -⟩
    · simp [hfeed]
    · simp [hserve]
  · simp [hdrain, returnsTo]

/-- A driver that stays in the inner loop after a coroutine has finished leaves it next. -/
theorem Lawful.serves_of_returnsTo (hlawful : driver.Lawful)
    (hserving : driver.Serving streams state) (hlimit : 0 ≤ state.limit)
    (hreturns : driver.returnsTo state.point = .serve) :
    driver.serves (state.limit + 1) = false := by
  rcases hserving.point with hserve | hdrain
  · rw [hserve, returnsTo, if_pos rfl] at hreturns
    rcases hlawful.afterReturn with hfeed | ⟨-, hzero⟩
    · rw [hfeed] at hreturns
      cases hreturns
    · refine Bool.eq_false_of_not_eq_true fun hserves ↦ ?_
      have hlast := hzero _ hserves
      omega
  · rw [hdrain, returnsTo, if_neg Point.noConfusion] at hreturns
    cases hreturns

/-- Assumes: the streams or the lookups fit into the queue. No coroutine gets lost. -/
theorem Healthy.next (hlawful : driver.Lawful) (hhealthy : driver.Healthy state coros)
    (hqueued : driver.QueuedIn state coros) (haccounts : driver.Accounts args streams state)
    (hstreams : 0 < streams) (hfits : streams ≤ capacity ∨ n ≤ capacity)
    (hnext : driver.Next args streams state coros later left) : driver.Healthy later left := by
  cases hnext with
  | goes hgoes =>
    cases hgoes with
    | toCreate hpoint hnext =>
      exact ⟨hhealthy.all, hhealthy.limit, fun _ ↦ .inl hnext, by rintro ⟨⟩, by rintro ⟨⟩⟩
    | toServe hpoint hfull =>
      refine ⟨hhealthy.all, hhealthy.limit, by rintro ⟨⟩, fun _ _ ↦ ?_, by rintro ⟨⟩⟩
      rcases hfull with hmade | hlimit
      · exact (hhealthy.create hpoint).resolve_left (Nat.not_lt_of_le hmade)
      · obtain ⟨coro, suspension, hlive⟩ :=
          haccounts.exists_live (hlimit.trans_lt hstreams)
        exact List.ne_nil_of_mem (hhealthy.all coro suspension hlive)
    | toDrain | toFeed | toReturned =>
      exact ⟨hhealthy.all, hhealthy.limit, by rintro ⟨⟩, by rintro ⟨⟩, by rintro ⟨⟩⟩
  | creates hpoint hnext hlimit q =>
    rw [if_pos (haccounts.length_lt hqueued hfits hnext hlimit)]
    refine ⟨all_update (fun coro suspension hlive _ ↦ ?_) fun _ _ ↦ ?_, ?_, fun _ ↦ .inr (by simp),
      by simp [hpoint], by simp [hpoint]⟩
    · exact List.mem_append_left _ (hhealthy.all coro suspension hlive)
    · exact List.mem_append_right _ (List.mem_singleton_self _)
    · exact Int.sub_nonneg_of_le hlimit
  | @suspends hserving coro rest hcoros suspension hold value hvalue addr next hresume q =>
    refine ⟨all_update (fun other suspension hlive hne ↦ ?_) fun _ _ ↦ ?_, hhealthy.limit,
      fun _ ↦ .inr (by simp), fun _ _ ↦ by simp, hhealthy.running⟩
    · exact List.mem_append_left _ (hhealthy.mem_rest hcoros hlive hne)
    · exact List.mem_append_right _ (List.mem_singleton_self _)
  | @returns hserving coro _ hcoros suspension hold value hvalue found hresume q =>
    have hlimit : 0 ≤ state.limit + 1 := Int.le_add_one hhealthy.limit
    have hpoint := hlawful.returnsTo_ne hserving
    refine ⟨all_update (fun _ _ ↦ hhealthy.mem_rest hcoros) (by rintro suspension ⟨⟩), hlimit,
      fun hcreate ↦ ?_, fun hserve hserves ↦ ?_, hpoint.2⟩
    · exact absurd hcreate hpoint.1
    · rw [hlawful.serves_of_returnsTo hserving hhealthy.limit hserve] at hserves
      exact Bool.noConfusion hserves
  | crashes hserving hcoros => exact absurd hcoros (hhealthy.ne_nil haccounts hserving)
  | stays => exact hhealthy

/-! ### Each round does something -/

variable (driver args) in
theorem work_update (coroutines : Fin n → Lifetime (Suspension ℕ Answer Bool)) (coro : Fin n)
    (lifetime : Lifetime (Suspension ℕ Answer Bool)) :
    ∑ other, driver.work args other (Function.update coroutines coro lifetime other) +
        driver.work args coro (coroutines coro) =
      ∑ other, driver.work args other (coroutines other) + driver.work args coro lifetime :=
  sum_update (driver.work args) coroutines coro lifetime

variable (driver) in
theorem rank_le (state : LookupState n Answer) : driver.rank state ≤ 6 := by
  unfold rank
  split
  · split <;> omega
  · omega
  · split <;> omega
  · omega
  · omega
  · omega

/-- Assumes: something is done to a coroutine. -/
theorem stepsLeft_lt (hwork : ∑ coro, driver.work args coro (later.coroutines coro) <
    ∑ coro, driver.work args coro (state.coroutines coro)) :
    driver.stepsLeft args later < driver.stepsLeft args state := by
  have hrank := rank_le driver later
  unfold stepsLeft
  omega

/-- Assumes: no coroutine gets lost. -/
theorem stepsLeft_next (hlawful : driver.Lawful) (hhealthy : driver.Healthy state coros)
    (hqueued : driver.QueuedIn state coros) (haccounts : driver.Accounts args streams state)
    (hnext : driver.Next args streams state coros later left)
    (hpoint : state.point ≠ .returned) :
    driver.stepsLeft args later < driver.stepsLeft args state := by
  cases hnext with
  | goes hgoes =>
    refine Nat.add_lt_add_left ?_ _
    cases hgoes with
    | toCreate hpoint hnext => simp [rank, hpoint, hnext]
    | toDrain hpoint hnext => simp [rank, hpoint, Nat.not_lt_of_le hnext]
    | toServe hpoint hfull =>
      have hserves : driver.serves state.limit = true ∨ n ≤ state.nextArg := by
        rcases hfull with hmade | hlimit
        · exact .inr hmade
        · rw [Int.le_antisymm hlimit hhealthy.limit]
          exact .inl hlawful.serves
      simp [rank, hpoint, hserves]
    | toFeed hpoint hserves =>
      by_cases hmade : n ≤ state.nextArg
      · simp [rank, hpoint, hmade, Nat.not_lt_of_le hmade]
      · simp [rank, hpoint, hserves, hmade, Nat.lt_of_not_le hmade]
    | toReturned hpoint hlimit => simp [rank, hpoint]
  | creates hcreate hnext hlimit q =>
    have hunmade := hqueued.unmade ⟨state.nextArg, hnext⟩ (Nat.le_refl _)
    have hsum := work_update driver args state.coroutines
      ⟨state.nextArg, hnext⟩ (.live (.ready (driver.body (args ⟨state.nextArg, hnext⟩))))
    rw [hunmade, work, work, Suspension.resumptions, Suspension.rest] at hsum
    exact stepsLeft_lt (by dsimp only; omega)
  | @suspends hserving coro rest hcoros suspension hold value hvalue addr next hresume q =>
    have hsum := work_update driver args state.coroutines coro
      (.live (.waits addr next))
    rw [hold, work, work, (Suspension.of_resume_call hvalue hresume).2.2] at hsum
    exact stepsLeft_lt (by dsimp only; omega)
  | @returns hserving coro _ hcoros suspension hold value hvalue found hresume q =>
    have hsum := work_update driver args state.coroutines coro .deleted
    rw [hold, work, work, (Suspension.of_resume_done hvalue hresume).2.2] at hsum
    exact stepsLeft_lt (by dsimp only; omega)
  | crashes hserving hcoros => exact absurd hcoros (hhealthy.ne_nil haccounts hserving)
  | stays hstays => exact absurd hstays (not_or.mpr ⟨hpoint, hhealthy.running⟩)

/-- Assumes: streams that fit into the queue, or lookups that do. A driver returns. -/
theorem exists_returned (hlawful : driver.Lawful) (hstreams : 0 < streams)
    (hfits : streams ≤ capacity ∨ n ≤ capacity) :
    ∃ moment, (driver.after args streams moment).point = .returned := by
  refine exists_iterate_of_measure (driver.step args streams)
    (fun state ↦ ∃ coros, driver.QueuedIn state coros ∧
      driver.Accounts args streams state ∧ driver.Healthy state coros)
    (fun state ↦ state.point = .returned) (driver.stepsLeft args) ?_
    ⟨[], queued_initial, accounts_initial, healthy_initial hstreams⟩
  rintro state ⟨coros, hqueued, haccounts, hhealthy⟩
  by_cases hpoint : state.point = .returned
  · exact .inl hpoint
  · obtain ⟨left, hnext, hlater⟩ := exists_next args streams hqueued
    have hleft := hhealthy.next hlawful hqueued haccounts hstreams hfits hnext
    exact .inr ⟨⟨left, hlater, haccounts.next hqueued hnext, hleft⟩,
      stepsLeft_next hlawful hhealthy hqueued haccounts hnext hpoint⟩

/-! ### Coroutines that get lost -/

/-- Assumes: a coroutine changes that is not the lost one. -/
theorem live_of_ne {coroutines : Fin n → Lifetime (Suspension ℕ Answer Bool)} {coro other : Fin n}
    {suspension : Suspension ℕ Answer Bool} (hlive : coroutines other = .live suspension)
    (hne : other ≠ coro) (lifetime : Lifetime (Suspension ℕ Answer Bool)) :
    Function.update coroutines coro lifetime other = .live suspension := by
  rwa [Function.update_of_ne hne]

/-- A lost coroutine stays lost. -/
theorem Lost.next (hlost : Lost state coros) (hqueued : driver.QueuedIn state coros)
    (hnext : driver.Next args streams state coros later left) : Lost later left := by
  obtain ⟨coro, suspension, hlive, hcoro⟩ := hlost
  cases hnext with
  | goes | stays => exact ⟨coro, suspension, hlive, hcoro⟩
  | creates hpoint hnext hlimit q =>
    have hne : coro ≠ ⟨state.nextArg, hnext⟩ := by
      rintro rfl
      exact Nat.lt_irrefl _ (hqueued.lt_nextArg hlive)
    refine ⟨coro, suspension, live_of_ne hlive hne _, ?_⟩
    split
    · simp [hcoro, hne]
    · exact hcoro
  | suspends hserving hcoros hold hvalue hresume q =>
    rw [hcoros, List.mem_cons, not_or] at hcoro
    exact ⟨coro, suspension, live_of_ne hlive hcoro.1 _, by simp [hcoro]⟩
  | returns hserving hcoros hold hvalue hresume q =>
    rw [hcoros, List.mem_cons, not_or] at hcoro
    exact ⟨coro, suspension, live_of_ne hlive hcoro.1 _, hcoro.2⟩
  | crashes => exact ⟨coro, suspension, hlive, List.not_mem_nil⟩

/-- A driver that has lost a coroutine has not returned. -/
theorem ne_returned_of_lost (hlost : Lost state coros)
    (haccounts : driver.Accounts args streams state) (hdrains : Drains streams state) :
    state.point ≠ .returned := by
  intro hreturned
  obtain ⟨coro, suspension, hlive, -⟩ := hlost
  have hdeleted := haccounts.eq_deleted (hdrains.made (.inr hreturned)) (hdrains.limit hreturned)
    coro
  rw [hlive] at hdeleted
  cases hdeleted

/-- Assumes: more streams and more lookups than places. As long as the driver only makes coroutines,
it goes on to make them, until one gets lost. -/
theorem Filling.next (hfilling : Filling streams state coros)
    (hqueued : driver.QueuedIn state coros) (hstreams : (capacity : ℤ) < streams)
    (hlookups : capacity < n) (hnext : driver.Next args streams state coros later left) :
    Filling streams later left ∨ Lost later left := by
  have hpoint := hfilling.point
  have hnextArg := hfilling.nextArg
  have hlimit := hfilling.limit
  have hlength : coros.length ≤ capacity := by simpa using hqueued.holds.le
  have hnotServing : ¬ driver.Serving streams state := by
    intro hserving
    rcases hserving.point with hserve | hdrain
    · simp [hserve] at hpoint
    · simp [hdrain] at hpoint
  cases hnext with
  | goes hgoes =>
    cases hgoes with
    | toCreate => exact .inl ⟨.inr rfl, hnextArg, hlimit⟩
    | toDrain hfeed hnext => omega
    | toServe hcreate hfull => omega
    | toFeed hserve hserves => simp [hserve] at hpoint
    | toReturned hdrain hlimit => simp [hdrain] at hpoint
  | creates hcreate hnext hroom q =>
    split
    · refine .inl ⟨hpoint, ?_, ?_⟩
      · simp [hnextArg]
      · simp only [List.length_append, List.length_singleton, hlimit]
        push_cast
        ring
    · exact .inr ⟨⟨state.nextArg, hnext⟩, _, Function.update_self .., hqueued.next_notMem hnext⟩
  | suspends hserving => exact absurd hserving hnotServing
  | returns hserving => exact absurd hserving hnotServing
  | crashes hserving => exact absurd hserving hnotServing
  | stays hstays => rcases hpoint with hfeed | hcreate <;> simp_all

/-- Assumes: no streams, and a lookup. No coroutine is made. -/
theorem Idle.next (hidle : Idle streams state coros) (hstreams : streams ≤ 0) (hlookups : 0 < n)
    (hnext : driver.Next args streams state coros later left) : Idle streams later left := by
  obtain ⟨hpoint, hnextArg, hlimit, hcoros⟩ := hidle
  cases hnext with
  | goes hgoes =>
    cases hgoes with
    | toCreate | toServe | toFeed => exact ⟨by simp, hnextArg, hlimit, hcoros⟩
    | toDrain hfeed hnext => omega
    | toReturned hdrain hlimit => exact absurd hdrain hpoint.1
  | creates hcreate hnext hroom q => omega
  | suspends hserving htask => cases htask.symm.trans hcoros
  | returns hserving htask => cases htask.symm.trans hcoros
  | crashes => exact ⟨by simp, hnextArg, hlimit, rfl⟩
  | stays => exact ⟨hpoint, hnextArg, hlimit, hcoros⟩

/-- Assumes: more streams and more lookups than places. -/
theorem not_returned_of_overfull (hlawful : driver.Lawful) (hstreams : (capacity : ℤ) < streams)
    (hlookups : capacity < n) (moment : ℕ) :
    (driver.after args streams moment).point ≠ .returned := by
  have hrun : ∃ coros, driver.QueuedIn (driver.after args streams moment) coros ∧
      driver.Accounts args streams (driver.after args streams moment) ∧
        Drains streams (driver.after args streams moment) ∧
          (Filling streams (driver.after args streams moment) coros ∨
            Lost (driver.after args streams moment) coros) := by
    induction moment with
    | zero => exact ⟨[], queued_initial, accounts_initial, drains_initial,
        .inl ⟨.inl rfl, rfl, by simp [after, initial]⟩⟩
    | succ moment ih =>
      obtain ⟨coros, hqueued, haccounts, hdrains, hcase⟩ := ih
      obtain ⟨left, hnext, hlater⟩ := exists_next args streams hqueued
      rw [after, Function.iterate_succ_apply']
      refine ⟨left, hlater, haccounts.next hqueued hnext, hdrains.next hlawful hnext, ?_⟩
      rcases hcase with hfilling | hlost
      · exact hfilling.next hqueued hstreams hlookups hnext
      · exact .inr (hlost.next hqueued hnext)
  obtain ⟨coros, -, haccounts, hdrains, hfilling | hlost⟩ := hrun
  · rcases hfilling.point with hfeed | hcreate
    · simp [hfeed]
    · simp [hcreate]
  · exact ne_returned_of_lost hlost haccounts hdrains

/-- Assumes: no streams, and a lookup. -/
theorem not_returned_of_idle (hstreams : streams ≤ 0) (hlookups : 0 < n) (moment : ℕ) :
    (driver.after args streams moment).point ≠ .returned := by
  have hrun : ∃ coros, driver.QueuedIn (driver.after args streams moment) coros ∧
      Idle streams (driver.after args streams moment) coros := by
    induction moment with
    | zero => exact ⟨[], queued_initial, by simp [after, initial], rfl, rfl, rfl⟩
    | succ moment ih =>
      obtain ⟨coros, hqueued, hidle⟩ := ih
      obtain ⟨left, hnext, hlater⟩ := exists_next args streams hqueued
      rw [after, Function.iterate_succ_apply']
      exact ⟨left, hlater, hidle.next hstreams hlookups hnext⟩
  obtain ⟨coros, -, hidle⟩ := hrun
  exact hidle.point.2

/-- A driver without lookups returns. -/
theorem returned_of_isEmpty (hlookups : n = 0) :
    (driver.after args streams 2).point = .returned := by
  subst hlookups
  simp [after, step, initial]

/-- Exactly when a driver returns. -/
theorem exists_returned_iff (hlawful : driver.Lawful) :
    (∃ moment, (driver.after args streams moment).point = .returned) ↔
      n = 0 ∨ 0 < streams ∧ (streams ≤ capacity ∨ n ≤ capacity) := by
  constructor
  · rintro ⟨moment, hreturned⟩
    by_contra hnot
    obtain ⟨hlookups, hfits⟩ := not_or.mp hnot
    by_cases hstreams : 0 < streams
    · obtain ⟨hmany, hmore⟩ := not_or.mp (not_and.mp hfits hstreams)
      exact not_returned_of_overfull hlawful (not_le.mp hmany) (not_le.mp hmore) moment hreturned
    · exact not_returned_of_idle (not_lt.mp hstreams) (Nat.pos_of_ne_zero hlookups) moment hreturned
  · rintro (hlookups | ⟨hstreams, hfits⟩)
    · exact ⟨2, returned_of_isEmpty hlookups⟩
    · exact exists_returned hlawful hstreams hfits

end Driver

end Libseff.Lookups
