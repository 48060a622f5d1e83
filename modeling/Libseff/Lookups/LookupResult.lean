import Libseff.Lookups.LookupProgress

/-!
# What the lookups find

The drivers that interleave return under the same condition (`returns_iff`): there is nothing to
look up, or there is a stream and the streams or the lookups fit into the queue. Then they have
counted what the plain driver counts, and every coroutine is deleted (`interleaved_counts`). The
driver with one coroutine at a time always counts that (`singleLookup_counts`). In a sorted array it
is the number of the keys that are there (`counts_sorted`).
-/

set_option autoImplicit false
set_option relaxedAutoImplicit false

namespace Libseff.Lookups

open Foundation.SystemCalls Driver

variable {v : ℕ → BitVec 32} {vSize : ℕ} {lookups : List (BitVec 32)} {streams : ℤ}

/-! ### The two drivers -/

theorem effect_lawful (v : ℕ → BitVec 32) : (effect v).Lawful where
  serves := rfl
  afterReturn := .inr ⟨rfl, fun _ hserves ↦ eq_of_beq hserves⟩

theorem yield_lawful (v : ℕ → BitVec 32) : («yield» v).Lawful where
  serves := rfl
  afterReturn := .inl rfl

/-- The lower half of what the driver reads is the key. -/
theorem setWidth_answer_effect (v : ℕ → BitVec 32) (addr : ℕ) :
    ((effect v).answer addr).setWidth 32 = v addr :=
  BitVec.setWidth_append_eq_right

theorem setWidth_signExtend (key : BitVec 32) : (key.signExtend 64).setWidth 32 = key := by
  ext i hi
  have hlong : i < 64 := by omega
  rw [BitVec.getElem_setWidth, BitVec.getLsbD_signExtend, if_pos hi, decide_eq_true hlong,
    Bool.true_and, BitVec.getLsbD_eq_getElem hi]

theorem outcome_effect (lookup : Fin lookups.length) :
    (effect v).outcome (searchArgs vSize lookups) lookup =
      naiveBinarySearch v (lookups.get lookup) 0 vSize :=
  answered_binarySearch (setWidth_answer_effect v)

theorem outcome_yield (lookup : Fin lookups.length) :
    («yield» v).outcome (searchArgs vSize lookups) lookup =
      naiveBinarySearch v (lookups.get lookup) 0 vSize :=
  answered_binarySearch fun _ ↦ rfl

/-! ### One lookup at a time -/

/-- The keys found in a list, after those found before. -/
theorem foldl_testNaive (found : ℕ) :
    lookups.foldl (fun found key ↦ if naiveBinarySearch v key 0 vSize then found + 1 else found)
      found = found + (lookups.map fun key ↦ (naiveBinarySearch v key 0 vSize).toNat).sum := by
  induction lookups generalizing found with
  | nil => rfl
  | cons key rest ih =>
    rw [List.foldl_cons, ih, List.map_cons, List.sum_cons]
    cases naiveBinarySearch v key 0 vSize with
    | false => simp
    | true => simp [Nat.add_assoc]

theorem testNaive_eq_sum : testNaive v vSize lookups =
    ∑ lookup : Fin lookups.length,
      (naiveBinarySearch v (lookups.get lookup) 0 vSize).toNat := by
  rw [testNaive, foldl_testNaive, Nat.zero_add]
  exact (Fin.sum_univ_fun_getElem lookups fun key ↦ (naiveBinarySearch v key 0 vSize).toNat).symm

theorem resumeToEnd_eq (program : Program ℕ (fun _ ↦ BitVec 64) Bool) :
    resumeToEnd v program = program.answered fun addr ↦ (v addr).signExtend 64 := by
  induction program with
  | done found => rfl
  | call addr next ih => exact ih _

theorem resumeToEnd_search (key : BitVec 32) :
    resumeToEnd v (seffEffectBinarySearch ⟨0, vSize, key⟩) = naiveBinarySearch v key 0 vSize :=
  (resumeToEnd_eq _).trans (answered_binarySearch fun addr ↦ setWidth_signExtend (v addr))

/-- The counts of a list, after those before. -/
theorem foldl_singleLookup (found notFound : ℕ) :
    lookups.foldl (fun counts key ↦
        let res := (resumeToEnd v (seffEffectBinarySearch ⟨0, vSize, key⟩)).toNat
        (counts.1 + res, counts.2 + (1 - res))) (found, notFound) =
      (found + (lookups.map fun key ↦ (naiveBinarySearch v key 0 vSize).toNat).sum,
        notFound + (lookups.map fun key ↦ 1 - (naiveBinarySearch v key 0 vSize).toNat).sum) := by
  induction lookups generalizing found notFound with
  | nil => rfl
  | cons key rest ih =>
    rw [List.foldl_cons, ih, resumeToEnd_search, List.map_cons, List.map_cons, List.sum_cons,
      List.sum_cons, Nat.add_assoc, Nat.add_assoc]

theorem sum_found_add_sum_notFound (found : BitVec 32 → Bool) :
    (lookups.map fun key ↦ (found key).toNat).sum +
      (lookups.map fun key ↦ 1 - (found key).toNat).sum = lookups.length := by
  induction lookups with
  | nil => rfl
  | cons key rest ih =>
    have hone := Nat.add_sub_cancel' (Bool.toNat_le (found key))
    rw [List.map_cons, List.map_cons, List.sum_cons, List.sum_cons, List.length_cons]
    omega

/-- The driver with one coroutine at a time counts what the plain driver counts. -/
theorem singleLookup_counts (v : ℕ → BitVec 32) (vSize : ℕ) (lookups : List (BitVec 32)) :
    (seffEffectSingleLookup v vSize lookups).1 = testNaive v vSize lookups ∧
      (seffEffectSingleLookup v vSize lookups).1 + (seffEffectSingleLookup v vSize lookups).2 =
        lookups.length := by
  rw [seffEffectSingleLookup, foldl_singleLookup, testNaive, foldl_testNaive]
  refine ⟨rfl, ?_⟩
  rw [Nat.zero_add, Nat.zero_add]
  exact sum_found_add_sum_notFound fun key ↦ naiveBinarySearch v key 0 vSize

/-! ### Several lookups at a time -/

/-- Exactly when the drivers that interleave return. -/
theorem returns_iff (v : ℕ → BitVec 32) (vSize : ℕ) (lookups : List (BitVec 32)) (streams : ℤ) :
    ((∃ moment, (seffEffectMultiLookup v vSize lookups streams moment).point = .returned) ↔
        lookups = [] ∨ 0 < streams ∧ (streams ≤ capacity ∨ lookups.length ≤ capacity)) ∧
      ((∃ moment, (seffMultiLookup v vSize lookups streams moment).point = .returned) ↔
        lookups = [] ∨ 0 < streams ∧ (streams ≤ capacity ∨ lookups.length ≤ capacity)) := by
  rw [← List.length_eq_zero_iff]
  exact ⟨exists_returned_iff (effect_lawful v), exists_returned_iff (yield_lawful v)⟩

/-- A driver has counted what the plain driver counts, and has deleted its coroutines. -/
structure Counted {Answer : Type} (v : ℕ → BitVec 32) (vSize : ℕ) (lookups : List (BitVec 32))
    (state : LookupState lookups.length Answer) : Prop where
  found : state.foundCount = testNaive v vSize lookups
  all : state.foundCount + state.notFoundCount = lookups.length
  deleted : ∀ lookup, state.coroutines lookup = .deleted

theorem counted_of_returned {Answer : Type} {driver : Driver Answer} (hlawful : driver.Lawful)
    (houtcome : ∀ lookup, driver.outcome (searchArgs vSize lookups) lookup =
      naiveBinarySearch v (lookups.get lookup) 0 vSize) {moment : ℕ}
    (hreturned : (driver.after (searchArgs vSize lookups) streams moment).point = .returned) :
    Counted v vSize lookups (driver.after (searchArgs vSize lookups) streams moment) := by
  obtain ⟨coros, -, haccounts, hdrains⟩ := exists_queued_after (searchArgs vSize lookups)
    streams hlawful moment
  obtain ⟨hfound, hall, hdeleted⟩ := haccounts.counts_of_returned hdrains hreturned
  refine ⟨?_, hall, hdeleted⟩
  rw [hfound, testNaive_eq_sum]
  exact Finset.sum_congr rfl fun lookup _ ↦ by rw [houtcome lookup]

/-- When a driver that interleaves returns, it has counted what the plain driver counts. -/
theorem interleaved_counts (v : ℕ → BitVec 32) (vSize : ℕ) (lookups : List (BitVec 32))
    (streams : ℤ) (moment : ℕ) :
    ((seffEffectMultiLookup v vSize lookups streams moment).point = .returned →
        Counted v vSize lookups (seffEffectMultiLookup v vSize lookups streams moment)) ∧
      ((seffMultiLookup v vSize lookups streams moment).point = .returned →
        Counted v vSize lookups (seffMultiLookup v vSize lookups streams moment)) :=
  ⟨counted_of_returned (effect_lawful v) outcome_effect,
    counted_of_returned (yield_lawful v) outcome_yield⟩

example : (seffEffectMultiLookup (fun i ↦ 2#32 * BitVec.ofNat 32 i) 4 [2, 3, 7] 2 24).foundCount =
    1 := by decide +kernel

/-! ### Sorted arrays -/

theorem testNaive_of_sorted (hsorted : SortedOn v 0 vSize) : testNaive v vSize lookups =
    lookups.countP fun key ↦ decide (∃ address, address < vSize ∧ v address = key) := by
  have hfound : ∀ key, naiveBinarySearch v key 0 vSize =
      decide (∃ address, address < vSize ∧ v address = key) := by
    intro key
    rw [Bool.eq_iff_iff, naiveBinarySearch_eq_true_iff hsorted, decide_eq_true_iff]
    simp
  rw [testNaive, foldl_testNaive, Nat.zero_add]
  induction lookups with
  | nil => rfl
  | cons key rest ih =>
    rw [List.map_cons, List.sum_cons, ih, List.countP_cons, hfound, Nat.add_comm]
    cases decide (∃ address, address < vSize ∧ v address = key) with
    | false => rfl
    | true => rfl

/-- Assumes: a sorted array. Whatever driver returns has counted the keys that are there. -/
theorem counts_sorted (v : ℕ → BitVec 32) (vSize : ℕ) (lookups : List (BitVec 32)) (streams : ℤ)
    (moment : ℕ) (hsorted : SortedOn v 0 vSize) :
    ((seffEffectMultiLookup v vSize lookups streams moment).point = .returned →
        (seffEffectMultiLookup v vSize lookups streams moment).foundCount =
          lookups.countP fun key ↦ decide (∃ address, address < vSize ∧ v address = key)) ∧
      ((seffMultiLookup v vSize lookups streams moment).point = .returned →
        (seffMultiLookup v vSize lookups streams moment).foundCount =
          lookups.countP fun key ↦ decide (∃ address, address < vSize ∧ v address = key)) ∧
        (seffEffectSingleLookup v vSize lookups).1 =
          lookups.countP fun key ↦ decide (∃ address, address < vSize ∧ v address = key) := by
  rw [← testNaive_of_sorted hsorted]
  refine ⟨fun hreturned ↦ ?_, fun hreturned ↦ ?_, ?_⟩
  · exact (counted_of_returned (effect_lawful v) outcome_effect hreturned).found
  · exact (counted_of_returned (yield_lawful v) outcome_yield hreturned).found
  · rw [seffEffectSingleLookup, foldl_singleLookup, testNaive, foldl_testNaive]

theorem counts_sorted_even :
    (seffEffectMultiLookup (fun i ↦ 2#32 * BitVec.ofNat 32 i) 4 [2, 3, 7] 2 24).foundCount = 1 ∧
      (seffMultiLookup (fun i ↦ 2#32 * BitVec.ofNat 32 i) 4 [2, 3, 7] 2 24).foundCount = 1 := by
  have hsorted : SortedOn (fun i ↦ 2#32 * BitVec.ofNat 32 i) 0 4 := by
    intro address later _ hle hlt
    rw [Nat.zero_add] at hlt
    interval_cases later <;> interval_cases address <;> decide
  have hcounts := counts_sorted (fun i ↦ 2#32 * BitVec.ofNat 32 i) 4 [2, 3, 7] 2 24 hsorted
  have hpresent : [2, 3, 7].countP (fun key : BitVec 32 ↦ decide (∃ address : ℕ, address < 4 ∧
      2#32 * BitVec.ofNat 32 address = key)) = 1 := by decide
  exact ⟨(hcounts.1 (by decide +kernel)).trans hpresent,
    (hcounts.2.1 (by decide +kernel)).trans hpresent⟩

end Libseff.Lookups
