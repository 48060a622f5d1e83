import Libseff.Foundation.Suspensions

/-!
# Binary searches

The body of a lookup, in the three forms of `bench/prefetching_lookups_bench`: a plain search, one
that asks its handler for each key with the effect `deref`, and one that prefetches an address,
yields and then reads the key there. An address is an index into the array of the keys.

Answered with the keys of the array, a body has the result of the plain search and reads the same
addresses in the same order (`answered_binarySearch`, `asked_binarySearch`). They are in the array
(`mem_probes`), and fewer than `2 ^ rounds` keys are searched in `rounds` reads
(`length_probes_le`). In a sorted array a search finds the keys that are there
(`naiveBinarySearch_eq_true_iff`).
-/

set_option autoImplicit false
set_option relaxedAutoImplicit false

namespace Libseff.Lookups

open Foundation.SystemCalls

/-! ### The three forms -/

/-- `search_args`. -/
structure SearchArgs where
  first : ℕ
  len : ℕ
  key : BitVec 32

/-- `first` and `len` after a round of the loop in which the middle key is `x`. -/
def narrow (x val : BitVec 32) (first len : ℕ) : ℕ × ℕ :=
  let half := len / 2
  if x.slt val then
    (first + half + 1, len - half - 1)
  else
    (first, half)

theorem narrow_lt {x val : BitVec 32} {first len : ℕ} (hlen : 0 < len) :
    (narrow x val first len).2 < len := by
  unfold narrow
  split <;> dsimp only <;> omega

/-- What is left of a range is in the range. -/
theorem mem_of_mem_narrow {x val : BitVec 32} {first len address : ℕ} (hlen : 0 < len)
    (hle : (narrow x val first len).1 ≤ address)
    (hlt : address < (narrow x val first len).1 + (narrow x val first len).2) :
    first ≤ address ∧ address < first + len := by
  unfold narrow at hle hlt
  split at hle
  · rw [if_pos ‹_›] at hlt
    dsimp only at hle hlt
    omega
  · rw [if_neg ‹_›] at hlt
    dsimp only at hle hlt
    omega

/-- `naive_binary_search`. -/
def naiveBinarySearch (v : ℕ → BitVec 32) (val : BitVec 32) (first len : ℕ) : Bool :=
  if hlen : 0 < len then
    let x := v (first + len / 2)
    let next := narrow x val first len
    if x = val then true else naiveBinarySearch v val next.1 next.2
  else
    false
termination_by len
decreasing_by exact narrow_lt hlen

section Bodies

variable {Answer : Type}

/-- The body of a coroutine, which is suspended at each middle address. How it gets the key there
from the answer is a parameter. -/
def binarySearch (key : ℕ → Answer → BitVec 32) (val : BitVec 32) (first len : ℕ) :
    Program ℕ (fun _ ↦ Answer) Bool :=
  if hlen : 0 < len then
    let middle := first + len / 2
    .call middle fun answer ↦
      let x := key middle answer
      let next := narrow x val first len
      if x = val then .done true else binarySearch key val next.1 next.2
  else
    .done false
termination_by len
decreasing_by exact narrow_lt hlen

end Bodies

/-- `SeffEffectBinarySearch`: the key is the answer, cut to an `int`. -/
def seffEffectBinarySearch (arg : SearchArgs) : Program ℕ (fun _ ↦ BitVec 64) Bool :=
  binarySearch (fun _ answer ↦ answer.setWidth 32) arg.key arg.first arg.len

/-- `SeffBinarySearch`: the key is read after the yield. -/
def seffBinarySearch (v : ℕ → BitVec 32) (arg : SearchArgs) : Program ℕ (fun _ ↦ Unit) Bool :=
  binarySearch (fun middle _ ↦ v middle) arg.key arg.first arg.len

/-- The addresses that a plain search reads, in their order. -/
def probes (v : ℕ → BitVec 32) (arg : SearchArgs) : List ℕ :=
  (seffBinarySearch v arg).asked fun _ ↦ ()

/-! ### A body and the plain search -/

section Bodies

variable {Answer : Type} {key : ℕ → Answer → BitVec 32} {answer : ℕ → Answer}
  {v : ℕ → BitVec 32} {val : BitVec 32} {first len : ℕ}

theorem binarySearch_zero : binarySearch key val first 0 = .done false := by
  rw [binarySearch, dif_neg (Nat.lt_irrefl 0)]

theorem binarySearch_of_pos (hlen : 0 < len) :
    binarySearch key val first len = .call (first + len / 2) fun answer ↦
      if key (first + len / 2) answer = val then .done true else
        binarySearch key val (narrow (key (first + len / 2) answer) val first len).1
          (narrow (key (first + len / 2) answer) val first len).2 := by
  rw [binarySearch, dif_pos hlen]

theorem naiveBinarySearch_zero : naiveBinarySearch v val first 0 = false := by
  rw [naiveBinarySearch, dif_neg (Nat.lt_irrefl 0)]

theorem naiveBinarySearch_of_pos (hlen : 0 < len) :
    naiveBinarySearch v val first len =
      if v (first + len / 2) = val then true else
        naiveBinarySearch v val (narrow (v (first + len / 2)) val first len).1
          (narrow (v (first + len / 2)) val first len).2 := by
  rw [naiveBinarySearch, dif_pos hlen]

/-- Assumes: each answer gives the key at its address. -/
theorem answered_binarySearch (hkey : ∀ address, key address (answer address) = v address) :
    (binarySearch key val first len).answered answer = naiveBinarySearch v val first len := by
  induction len using Nat.strong_induction_on generalizing first with
  | _ len ih =>
    rcases Nat.eq_zero_or_pos len with rfl | hlen
    · rw [binarySearch_zero, naiveBinarySearch_zero, Program.answered]
    · rw [binarySearch_of_pos hlen, naiveBinarySearch_of_pos hlen, Program.answered, hkey]
      split
      · rfl
      · exact ih _ (narrow_lt hlen)

/-- Assumes: each answer gives the key at its address. -/
theorem asked_binarySearch (hkey : ∀ address, key address (answer address) = v address) :
    (binarySearch key val first len).asked answer = probes v ⟨first, len, val⟩ := by
  unfold probes seffBinarySearch
  induction len using Nat.strong_induction_on generalizing first with
  | _ len ih =>
    rcases Nat.eq_zero_or_pos len with rfl | hlen
    · rw [binarySearch_zero, binarySearch_zero, Program.asked, Program.asked]
    · rw [binarySearch_of_pos hlen, binarySearch_of_pos hlen, Program.asked, Program.asked, hkey]
      refine congrArg _ ?_
      split
      · rfl
      · exact ih _ (narrow_lt hlen)

end Bodies

/-! ### What is read -/

section Probes

variable {v : ℕ → BitVec 32} {val : BitVec 32} {first len : ℕ}

theorem probes_zero : probes v ⟨first, 0, val⟩ = [] := by
  rw [probes, seffBinarySearch, binarySearch_zero, Program.asked]

theorem probes_of_pos (hlen : 0 < len) :
    probes v ⟨first, len, val⟩ = (first + len / 2) ::
      if v (first + len / 2) = val then [] else
        probes v ⟨(narrow (v (first + len / 2)) val first len).1,
          (narrow (v (first + len / 2)) val first len).2, val⟩ := by
  rw [probes, seffBinarySearch, binarySearch_of_pos hlen, Program.asked]
  refine congrArg _ ?_
  split
  · rfl
  · rfl

/-- A search reads in its range. -/
theorem mem_probes {address : ℕ} (hmem : address ∈ probes v ⟨first, len, val⟩) :
    first ≤ address ∧ address < first + len := by
  induction len using Nat.strong_induction_on generalizing first with
  | _ len ih =>
    rcases Nat.eq_zero_or_pos len with rfl | hlen
    · rw [probes_zero] at hmem
      exact absurd hmem List.not_mem_nil
    · rw [probes_of_pos hlen, List.mem_cons] at hmem
      rcases hmem with rfl | hrest
      · omega
      · split at hrest
        · exact absurd hrest List.not_mem_nil
        · obtain ⟨hle, hlt⟩ := ih _ (narrow_lt hlen) hrest
          exact mem_of_mem_narrow hlen hle hlt

/-- Assumes: fewer than `2 ^ rounds` keys. -/
theorem length_probes_le {rounds : ℕ} (hlen : len < 2 ^ rounds) :
    (probes v ⟨first, len, val⟩).length ≤ rounds := by
  induction rounds generalizing first len with
  | zero =>
    obtain rfl : len = 0 := Nat.lt_one_iff.mp hlen
    rw [probes_zero]
    exact Nat.le_refl 0
  | succ rounds ih =>
    rcases Nat.eq_zero_or_pos len with rfl | hpos
    · rw [probes_zero]
      exact Nat.zero_le _
    · rw [probes_of_pos hpos, List.length_cons]
      refine Nat.succ_le_succ ?_
      split
      · exact Nat.zero_le _
      · refine ih ?_
        rw [Nat.pow_succ] at hlen
        unfold narrow
        split <;> dsimp only <;> omega

/-- Assumes: every key of the range is below. The last one is read. -/
theorem last_mem_probes (hlen : 0 < len)
    (hbelow : ∀ address, first ≤ address → address < first + len → (v address).slt val) :
    first + len - 1 ∈ probes v ⟨first, len, val⟩ := by
  induction len using Nat.strong_induction_on generalizing first with
  | _ len ih =>
    have hmiddle := hbelow (first + len / 2) (by omega) (by omega)
    have hne : v (first + len / 2) ≠ val := by
      intro heq
      rw [heq, BitVec.slt_iff_toInt_lt] at hmiddle
      exact Int.lt_irrefl _ hmiddle
    rw [probes_of_pos hlen, if_neg hne, List.mem_cons, narrow, if_pos hmiddle]
    dsimp only
    rcases Nat.eq_zero_or_pos (len - len / 2 - 1) with hend | hrest
    · exact .inl (by omega)
    · refine .inr ?_
      have hlast := @ih (len - len / 2 - 1) (by omega) (first + len / 2 + 1) hrest
        fun address hle hlt ↦ hbelow address (by omega) (by omega)
      rwa [show first + len / 2 + 1 + (len - len / 2 - 1) - 1 = first + len - 1 by omega] at hlast

end Probes

/-! ### What is found -/

section Found

variable {v : ℕ → BitVec 32} {val : BitVec 32} {first len : ℕ}

/-- The keys of a range are in ascending order. -/
def SortedOn (v : ℕ → BitVec 32) (first len : ℕ) : Prop :=
  ∀ address later, first ≤ address → address ≤ later → later < first + len →
    (v address).toInt ≤ (v later).toInt

/-- In any array, what is found is there. -/
theorem exists_of_naiveBinarySearch (hfound : naiveBinarySearch v val first len = true) :
    ∃ address, first ≤ address ∧ address < first + len ∧ v address = val := by
  induction len using Nat.strong_induction_on generalizing first with
  | _ len ih =>
    rcases Nat.eq_zero_or_pos len with rfl | hlen
    · rw [naiveBinarySearch_zero] at hfound
      exact Bool.noConfusion hfound
    · rw [naiveBinarySearch_of_pos hlen] at hfound
      split at hfound
      · exact ⟨first + len / 2, by omega, by omega, ‹_›⟩
      · obtain ⟨address, hle, hlt, heq⟩ := ih _ (narrow_lt hlen) hfound
        obtain ⟨hfirst, hlast⟩ := mem_of_mem_narrow hlen hle hlt
        exact ⟨address, hfirst, hlast, heq⟩

/-- Assumes: the keys of the range are in ascending order, and the middle one is another. An address
of the key is on the side on which the search goes on. -/
theorem mem_narrow_of_sorted (hsorted : SortedOn v first len) {address : ℕ} (hle : first ≤ address)
    (hlt : address < first + len) (hne : v (first + len / 2) ≠ v address) :
    (narrow (v (first + len / 2)) (v address) first len).1 ≤ address ∧
      address < (narrow (v (first + len / 2)) (v address) first len).1 +
        (narrow (v (first + len / 2)) (v address) first len).2 := by
  unfold narrow
  by_cases hbelow : (v (first + len / 2)).slt (v address)
  · rw [if_pos hbelow]
    rw [BitVec.slt_iff_toInt_lt] at hbelow
    have hafter : first + len / 2 < address := by
      by_contra hbefore
      have horder := hsorted address (first + len / 2) hle (by omega) (by omega)
      omega
    dsimp only
    omega
  · rw [if_neg hbelow]
    rw [BitVec.slt_iff_toInt_lt] at hbelow
    have hbefore : address < first + len / 2 := by
      by_contra hafter
      have horder := hsorted (first + len / 2) address (by omega) (by omega) hlt
      exact hne (BitVec.eq_of_toInt_eq (by omega))
    exact ⟨hle, hbefore⟩

/-- Assumes: the keys of the range are in ascending order. What is there is found. -/
theorem naiveBinarySearch_of_sorted (hsorted : SortedOn v first len) {address : ℕ}
    (hle : first ≤ address) (hlt : address < first + len) :
    naiveBinarySearch v (v address) first len = true := by
  induction len using Nat.strong_induction_on generalizing first with
  | _ len ih =>
    have hlen : 0 < len := by omega
    rw [naiveBinarySearch_of_pos hlen]
    split
    · rfl
    · rename_i hne
      obtain ⟨hnext, hend⟩ := mem_narrow_of_sorted hsorted hle hlt hne
      refine ih _ (narrow_lt hlen) (fun one other hone hother hlast ↦ ?_) hnext hend
      obtain ⟨hfirst, -⟩ := mem_of_mem_narrow hlen hone (Nat.lt_of_le_of_lt hother hlast)
      obtain ⟨-, hrange⟩ := mem_of_mem_narrow hlen (Nat.le_trans hone hother) hlast
      exact hsorted one other hfirst hother hrange

/-- Assumes: the keys of the range are in ascending order. -/
theorem naiveBinarySearch_eq_true_iff (hsorted : SortedOn v first len) :
    naiveBinarySearch v val first len = true ↔
      ∃ address, first ≤ address ∧ address < first + len ∧ v address = val := by
  constructor
  · exact exists_of_naiveBinarySearch
  · rintro ⟨address, hle, hlt, rfl⟩
    exact naiveBinarySearch_of_sorted hsorted hle hlt

end Found

end Libseff.Lookups
