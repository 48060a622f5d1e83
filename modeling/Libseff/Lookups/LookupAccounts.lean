import Libseff.Lookups.LookupPool

/-!
# What a driver has counted

The counts of a driver agree with its coroutines: what those that are deleted have found, and one
stream for each that is live (`Accounts`). Each coroutine will have the result of its body, whatever
is resumed in between, so when no coroutine is left, the counts are those of all bodies
(`Accounts.counts_of_returned`).
-/

set_option autoImplicit false
set_option relaxedAutoImplicit false

namespace Libseff.Lookups

open Foundation.SystemCalls

variable {n : ℕ} {Answer : Type}

namespace Driver

/-! ### The counts -/

section Counts

variable (driver : Driver Answer) (args : Fin n → SearchArgs) (streams : ℤ)

/-- The result of the body for an argument. -/
def outcome (coro : Fin n) : Bool := (driver.body (args coro)).answered driver.answer

/-- What a coroutine that has finished counts. -/
def countDeleted (value : Fin n → ℕ) (coro : Fin n) :
    Lifetime (Suspension ℕ Answer Bool) → ℕ
  | .deleted => value coro
  | _ => 0

/-- What a coroutine that is live counts. -/
def countLive : Lifetime (Suspension ℕ Answer Bool) → ℕ
  | .live _ => 1
  | _ => 0

@[simp] theorem countDeleted_unmade (value : Fin n → ℕ) (coro : Fin n) :
    countDeleted value coro (.unmade : Lifetime (Suspension ℕ Answer Bool)) = 0 := rfl

@[simp] theorem countDeleted_live (value : Fin n → ℕ) (coro : Fin n)
    (suspension : Suspension ℕ Answer Bool) : countDeleted value coro (.live suspension) = 0 := rfl

@[simp] theorem countDeleted_deleted (value : Fin n → ℕ) (coro : Fin n) :
    countDeleted value coro (.deleted : Lifetime (Suspension ℕ Answer Bool)) = value coro := rfl

@[simp] theorem countLive_unmade :
    countLive (.unmade : Lifetime (Suspension ℕ Answer Bool)) = 0 := rfl

@[simp] theorem countLive_live (suspension : Suspension ℕ Answer Bool) :
    countLive (.live suspension) = 1 := rfl

@[simp] theorem countLive_deleted :
    countLive (.deleted : Lifetime (Suspension ℕ Answer Bool)) = 0 := rfl

/-- The counts agree with the coroutines, and each coroutine will have its result. -/
structure Accounts (state : LookupState n Answer) : Prop where
  made : ∀ coro : Fin n, state.coroutines coro = .unmade → state.nextArg ≤ coro
  outcome : ∀ coro suspension, state.coroutines coro = .live suspension →
    (suspension.rest driver.answer).answered driver.answer = driver.outcome args coro
  foundCount : state.foundCount = ∑ coro,
    countDeleted (fun coro ↦ (driver.outcome args coro).toNat) coro (state.coroutines coro)
  notFoundCount : state.notFoundCount = ∑ coro,
    countDeleted (fun coro ↦ 1 - (driver.outcome args coro).toNat) coro (state.coroutines coro)
  limit : state.limit + (∑ coro, countLive (state.coroutines coro) : ℕ) = streams

/-- After the outer loop each coroutine is made, and a driver returns when none is live. -/
structure Drains (state : LookupState n Answer) : Prop where
  made : state.point = .drain ∨ state.point = .returned → n ≤ state.nextArg
  limit : state.point = .returned → streams ≤ state.limit

/-- What a driver needs of its inner loop: it takes a task when no coroutine may be made, and goes
on in one of the two loops when a coroutine has finished. -/
structure Lawful : Prop where
  serves : driver.serves 0 = true
  afterReturn : driver.afterReturn = .feed ∨
    driver.afterReturn = .serve ∧ ∀ limit, driver.serves limit = true → limit = 0

end Counts

variable {driver : Driver Answer} {args : Fin n → SearchArgs} {streams : ℤ}
  {state later : LookupState n Answer} {coros left : List (Fin n)}

theorem accounts_initial : driver.Accounts args streams (initial streams) where
  made _ _ := Nat.zero_le _
  outcome _ _ hlive := by cases hlive
  foundCount := by simp [initial, countDeleted]
  notFoundCount := by simp [initial, countDeleted]
  limit := by simp [initial, countLive]

theorem drains_initial : Drains streams (initial streams : LookupState n Answer) where
  made hpoint := by rcases hpoint with ⟨⟨⟩⟩ | ⟨⟨⟩⟩
  limit hpoint := by cases hpoint

theorem sum_countDeleted_update (value : Fin n → ℕ)
    (coroutines : Fin n → Lifetime (Suspension ℕ Answer Bool)) (coro : Fin n)
    (lifetime : Lifetime (Suspension ℕ Answer Bool)) :
    ∑ other, countDeleted value other (Function.update coroutines coro lifetime other) +
        countDeleted value coro (coroutines coro) =
      ∑ other, countDeleted value other (coroutines other) + countDeleted value coro lifetime :=
  sum_update (countDeleted value) coroutines coro lifetime

theorem sum_countLive_update (coroutines : Fin n → Lifetime (Suspension ℕ Answer Bool))
    (coro : Fin n) (lifetime : Lifetime (Suspension ℕ Answer Bool)) :
    ∑ other, countLive (Function.update coroutines coro lifetime other) +
        countLive (coroutines coro) =
      ∑ other, countLive (coroutines other) + countLive lifetime :=
  sum_update (fun _ ↦ countLive) coroutines coro lifetime

/-- A coroutine that is not made now was not made before. -/
theorem eq_unmade_of_update {coroutines : Fin n → Lifetime (Suspension ℕ Answer Bool)}
    {coro other : Fin n} {lifetime : Lifetime (Suspension ℕ Answer Bool)}
    (hlifetime : lifetime ≠ .unmade)
    (hunmade : Function.update coroutines coro lifetime other = .unmade) :
    other ≠ coro ∧ coroutines other = .unmade := by
  rcases eq_or_ne other coro with rfl | hne
  · rw [Function.update_self] at hunmade
    exact absurd hunmade hlifetime
  · rw [Function.update_of_ne hne] at hunmade
    exact ⟨hne, hunmade⟩

/-- Assumes: the rest of one coroutine has its result. All have, when that one changes. -/
theorem outcome_update {coroutines : Fin n → Lifetime (Suspension ℕ Answer Bool)} {coro : Fin n}
    {lifetime : Lifetime (Suspension ℕ Answer Bool)}
    (houtcome : ∀ other suspension, coroutines other = .live suspension →
      (suspension.rest driver.answer).answered driver.answer = driver.outcome args other)
    (hlifetime : ∀ suspension, lifetime = .live suspension →
      (suspension.rest driver.answer).answered driver.answer = driver.outcome args coro) :
    ∀ other suspension, Function.update coroutines coro lifetime other = .live suspension →
      (suspension.rest driver.answer).answered driver.answer = driver.outcome args other := by
  intro other suspension hlive
  rcases eq_or_ne other coro with rfl | hne
  · rw [Function.update_self] at hlive
    exact hlifetime suspension hlive
  · rw [Function.update_of_ne hne] at hlive
    exact houtcome other suspension hlive

/-- Each step keeps the accounts. -/
theorem Accounts.next (haccounts : driver.Accounts args streams state)
    (hqueued : driver.QueuedIn state coros)
    (hnext : driver.Next args streams state coros later left) :
    driver.Accounts args streams later := by
  have hfound := haccounts.foundCount
  have hnotFound := haccounts.notFoundCount
  have hlimit := haccounts.limit
  cases hnext with
  | goes hgoes => exact ⟨haccounts.made, haccounts.outcome, hfound, hnotFound, hlimit⟩
  | creates hpoint hnext hroom q =>
    have hunmade := hqueued.unmade ⟨state.nextArg, hnext⟩ (Nat.le_refl _)
    have hdeleted := fun value ↦ sum_countDeleted_update value state.coroutines
      ⟨state.nextArg, hnext⟩ (.live (.ready (driver.body (args ⟨state.nextArg, hnext⟩))))
    have hlive := sum_countLive_update state.coroutines
      ⟨state.nextArg, hnext⟩ (.live (.ready (driver.body (args ⟨state.nextArg, hnext⟩))))
    simp only [hunmade, countDeleted_unmade, countDeleted_live, countLive_unmade, countLive_live,
      Nat.add_zero] at hdeleted hlive
    refine ⟨fun coro hcoro ↦ ?_, outcome_update haccounts.outcome ?_, ?_, ?_, ?_⟩
    · obtain ⟨hne, hold⟩ := eq_unmade_of_update (by rintro ⟨⟩) hcoro
      exact Nat.lt_of_le_of_ne (haccounts.made coro hold) fun heq ↦ hne (Fin.ext heq.symm)
    · rintro suspension ⟨⟩
      rfl
    · exact hfound.trans (hdeleted _).symm
    · exact hnotFound.trans (hdeleted _).symm
    · dsimp only
      omega
  | @suspends hserving coro rest hcoros suspension hold value hvalue addr next hresume q =>
    have hdeleted := fun value ↦ sum_countDeleted_update value state.coroutines coro
      (.live (.waits addr next))
    have hlive := sum_countLive_update state.coroutines coro (.live (.waits addr next))
    simp only [hold, countDeleted_live, countLive_live, Nat.add_zero] at hdeleted hlive
    refine ⟨fun coro hcoro ↦ ?_, outcome_update haccounts.outcome ?_, ?_, ?_, ?_⟩
    · exact haccounts.made coro (eq_unmade_of_update (by rintro ⟨⟩) hcoro).2
    · rintro suspension ⟨⟩
      exact (Suspension.of_resume_call hvalue hresume).1.symm.trans (haccounts.outcome coro _ hold)
    · exact hfound.trans (hdeleted _).symm
    · exact hnotFound.trans (hdeleted _).symm
    · dsimp only
      omega
  | @returns hserving coro rest hcoros suspension hold value hvalue found hresume q =>
    have hdeleted := fun value ↦ sum_countDeleted_update value state.coroutines coro .deleted
    have hlive := sum_countLive_update state.coroutines coro .deleted
    have hresult : driver.outcome args coro = found :=
      (haccounts.outcome coro _ hold).symm.trans (Suspension.of_resume_done hvalue hresume).1
    simp only [hold, countDeleted_live, countDeleted_deleted, countLive_live, countLive_deleted,
      Nat.add_zero] at hdeleted hlive
    refine ⟨fun coro hcoro ↦ ?_, outcome_update haccounts.outcome ?_, ?_, ?_, ?_⟩
    · exact haccounts.made coro (eq_unmade_of_update (by rintro ⟨⟩) hcoro).2
    · rintro suspension ⟨⟩
    · rw [← hresult, hfound]
      exact (hdeleted _).symm
    · rw [← hresult, hnotFound]
      exact (hdeleted _).symm
    · dsimp only
      omega
  | crashes hserving hcoros q =>
    exact ⟨haccounts.made, haccounts.outcome, hfound, hnotFound, hlimit⟩
  | stays hpoint => exact haccounts

/-- When the coroutine of a task has finished, a driver goes on in the loop that took it. -/
theorem Lawful.returnsTo_eq (hlawful : driver.Lawful) (hserving : driver.Serving streams state) :
    driver.returnsTo state.point = .feed ∧ state.point = .serve ∨
      driver.returnsTo state.point = state.point := by
  rcases hserving.point with hserve | hdrain
  · rw [hserve, returnsTo, if_pos rfl]
    exact hlawful.afterReturn.imp (fun hfeed ↦ ⟨hfeed, rfl⟩) And.left
  · rw [hdrain]
    exact .inr rfl

theorem Serving.ne_returned (hserving : driver.Serving streams state) :
    state.point ≠ .returned := by
  rcases hserving.point with hserve | hdrain
  · simp [hserve]
  · simp [hdrain]

/-- Each step stays behind the outer loop. -/
theorem Drains.next (hlawful : driver.Lawful) (hdrains : Drains streams state)
    (hnext : driver.Next args streams state coros later left) : Drains streams later := by
  cases hnext with
  | goes hgoes =>
    cases hgoes with
    | toCreate | toServe | toFeed => exact ⟨by rintro (⟨⟨⟩⟩ | ⟨⟨⟩⟩), by rintro ⟨⟩⟩
    | toDrain hpoint hnext => exact ⟨fun _ ↦ hnext, by rintro ⟨⟩⟩
    | toReturned hpoint hlimit => exact ⟨fun _ ↦ hdrains.made (.inl hpoint), fun _ ↦ hlimit⟩
  | creates hpoint => exact ⟨by simp [hpoint], by simp [hpoint]⟩
  | suspends hserving =>
    exact ⟨hdrains.made, fun hreturned ↦ absurd hreturned hserving.ne_returned⟩
  | returns hserving =>
    rcases hlawful.returnsTo_eq hserving with ⟨hfeed, -⟩ | hsame
    · exact ⟨by simp [hfeed], by simp [hfeed]⟩
    · refine ⟨?_, fun hreturned ↦ absurd hreturned ?_⟩
      · dsimp only
        rw [hsame]
        exact hdrains.made
      · dsimp only
        rw [hsame]
        exact hserving.ne_returned
  | crashes => exact ⟨by rintro (⟨⟨⟩⟩ | ⟨⟨⟩⟩), by rintro ⟨⟩⟩
  | stays => exact hdrains

/-! ### When a driver has returned -/

/-- Assumes: no coroutine is live. -/
theorem Accounts.eq_deleted (haccounts : driver.Accounts args streams state)
    (hmade : n ≤ state.nextArg) (hlimit : streams ≤ state.limit) (coro : Fin n) :
    state.coroutines coro = .deleted := by
  have hlive : ∑ other, countLive (state.coroutines other) = 0 := by
    have hsum := haccounts.limit
    omega
  have hzero := Finset.sum_eq_zero_iff.mp hlive coro (Finset.mem_univ coro)
  cases hcoro : state.coroutines coro with
  | unmade => exact absurd (haccounts.made coro hcoro) (Nat.not_le_of_lt (coro.isLt.trans_le hmade))
  | live suspension =>
    rw [hcoro] at hzero
    cases hzero
  | deleted => rfl

/-- What a driver has counted when it returns. -/
theorem Accounts.counts_of_returned (haccounts : driver.Accounts args streams state)
    (hdrains : Drains streams state) (hreturned : state.point = .returned) :
    state.foundCount = ∑ coro, (driver.outcome args coro).toNat ∧
      state.foundCount + state.notFoundCount = n ∧
        ∀ coro, state.coroutines coro = .deleted := by
  have hdeleted := haccounts.eq_deleted (hdrains.made (.inr hreturned)) (hdrains.limit hreturned)
  have hfound : state.foundCount = ∑ coro, (driver.outcome args coro).toNat := by
    rw [haccounts.foundCount]
    exact Finset.sum_congr rfl fun coro _ ↦ by rw [hdeleted coro, countDeleted_deleted]
  have hnotFound : state.notFoundCount = ∑ coro, (1 - (driver.outcome args coro).toNat) := by
    rw [haccounts.notFoundCount]
    exact Finset.sum_congr rfl fun coro _ ↦ by rw [hdeleted coro, countDeleted_deleted]
  refine ⟨hfound, ?_, hdeleted⟩
  have hone : ∀ coro, (driver.outcome args coro).toNat + (1 - (driver.outcome args coro).toNat) =
      1 := fun coro ↦ Nat.add_sub_cancel' (Bool.toNat_le _)
  rw [hfound, hnotFound, ← Finset.sum_add_distrib, Finset.sum_congr rfl fun coro _ ↦ hone coro]
  simp

/-! ### Runs -/

variable (args streams) in
/-- In every state of a run the queue is a list of live coroutines and the counts agree. -/
theorem exists_queued_after (hlawful : driver.Lawful) (moment : ℕ) :
    ∃ coros, driver.QueuedIn (driver.after args streams moment) coros ∧
      driver.Accounts args streams (driver.after args streams moment) ∧
        Drains streams (driver.after args streams moment) := by
  induction moment with
  | zero => exact ⟨[], queued_initial, accounts_initial, drains_initial⟩
  | succ moment ih =>
    obtain ⟨coros, hqueued, haccounts, hdrains⟩ := ih
    obtain ⟨left, hnext, hlater⟩ := exists_next args streams hqueued
    rw [after, Function.iterate_succ_apply']
    exact ⟨left, hlater, haccounts.next hqueued hnext, hdrains.next hlawful hnext⟩

end Driver

end Libseff.Lookups
