import Libseff.Foundation.Runs
import Libseff.Queues.CircularArray

/-!
# Growing rings

What the three queues do with their array. The owner sets the slot of `bottom` and counts it up,
elements leave at both ends, and a push on a full ring grows it first. Whether it is full is decided
with a value of `top` that the owner has read, and that may be an older one.

The indices between the value it has read and `bottom` are never more than the array has slots
(`Fits`), so a set never hits the slot of an index that is still between `top` and `bottom`
(`window_kept_of_run`), over any number of growths.
-/

set_option autoImplicit false
set_option relaxedAutoImplicit false

namespace Libseff.Queues

open Foundation

variable {α : Type*}

/-- An array with the indices of its window, and the value of `top` that the owner has read. -/
structure Ring (α : Type*) where
  array : CircularArray α
  seen : ℤ
  top : ℤ
  bottom : ℤ

/-- A push reads `top` and may allocate, with some contents; the others take from an end. -/
inductive RingStep (α : Type*)
  | push (elt : α) (seen : ℤ) (contents : ℕ → α)
  | takeTop
  | takeBottom

/-- The array that is set: a larger one if the ring is full. -/
def Ring.grown (ring : Ring α) (seen : ℤ) (contents : ℕ → α) : Option (CircularArray α) :=
  if ring.bottom - seen > ring.array.size - 1 then
    ring.array.circularArrayResize ring.bottom seen contents
  else some ring.array

def Ring.next (ring : Ring α) : RingStep α → Option (Ring α)
  | .push elt seen contents =>
    if ring.seen ≤ seen ∧ seen ≤ ring.top then
      (ring.grown seen contents).map fun array ↦
        { ring with
          array := array.caSet ring.bottom elt
          seen := seen
          bottom := ring.bottom + 1 }
    else none
  | .takeTop => if ring.top < ring.bottom then some { ring with top := ring.top + 1 } else none
  | .takeBottom =>
    if ring.top < ring.bottom then some { ring with bottom := ring.bottom - 1 } else none

/-- The runs of a ring. -/
def ringSystem (start : Ring α) : TransitionSystem (Ring α) (RingStep α) :=
  .ofNext (· = start) Ring.next

/-- There is a slot for every index from the value that the owner has read to `bottom`. -/
structure Ring.Fits (ring : Ring α) : Prop where
  seen_le : ring.seen ≤ ring.top
  top_le : ring.top ≤ ring.bottom
  window : ring.bottom - ring.seen ≤ ring.array.size

/-- Indices are set one after another. -/
def CircularArray.setAll (arr : CircularArray α) (sets : List (ℤ × α)) : CircularArray α :=
  sets.foldl (fun arr set ↦ arr.caSet set.1 set.2) arr

/-! ### One growth -/

namespace CircularArray

theorem size_setAll (arr : CircularArray α) (sets : List (ℤ × α)) :
    (arr.setAll sets).size = arr.size := by
  induction sets generalizing arr with
  | nil => rfl
  | cons set sets ih => exact ih (arr.caSet set.1 set.2)

/-- A size up to `2 ^ 30` passes the assertion. -/
theorem clz_pos {logSize : ℕ} (hlogSize : logSize ≤ 30) :
    0 < (BitVec.ofInt 32 (2 ^ logSize)).clz := by
  have hall : ∀ logSize < 31, 0 < (BitVec.ofInt 32 (2 ^ logSize)).clz := by decide
  exact hall logSize (by omega)

/-- Assumes: a size up to `2 ^ 30`. The array grows. -/
theorem exists_circularArrayResize {arr : CircularArray α} {logSize : ℕ} (hlogSize : logSize ≤ 30)
    (hsize : arr.size = 2 ^ logSize) (bottom top : ℤ) (contents : ℕ → α) :
    ∃ newArray, arr.circularArrayResize bottom top contents = some newArray := by
  have hclz : 0 < (BitVec.ofInt 32 arr.size).clz := hsize ▸ clz_pos hlogSize
  rw [circularArrayResize, double, dif_pos hclz]
  exact ⟨_, rfl⟩

end CircularArray

/-! ### One step -/

namespace Ring

variable {ring after : Ring α}

/-- What a push does. -/
theorem next_push {elt : α} {seen : ℤ} {contents : ℕ → α}
    (hnext : ring.next (.push elt seen contents) = some after) :
    ring.seen ≤ seen ∧ seen ≤ ring.top ∧ ∃ array, ring.grown seen contents = some array ∧
      after = ⟨array.caSet ring.bottom elt, seen, ring.top, ring.bottom + 1⟩ := by
  rw [next] at hnext
  split_ifs at hnext with hread
  obtain ⟨array, hgrown, rfl⟩ := Option.map_eq_some_iff.mp hnext
  exact ⟨hread.1, hread.2, array, hgrown, rfl⟩

/-- The array that is set has room for one more element, and it has those of the window. -/
theorem Fits.grown (h : ring.Fits) {seen : ℤ} {contents : ℕ → α} {array : CircularArray α}
    (hseen : ring.seen ≤ seen) (hgrown : ring.grown seen contents = some array) :
    ring.bottom - seen < array.size ∧
      ∀ i, seen ≤ i → i < ring.bottom → array.caGet i = ring.array.caGet i := by
  have hpos := ring.array.size_pos
  have hwindow := h.window
  rw [Ring.grown] at hgrown
  split_ifs at hgrown with hfull
  · have hsize := CircularArray.size_circularArrayResize hgrown
    refine ⟨by omega, fun i hle hlt ↦ ?_⟩
    exact CircularArray.caGet_circularArrayResize hgrown (by omega) hle hlt
  · obtain rfl := Option.some_inj.mp hgrown
    exact ⟨by omega, fun _ _ _ ↦ rfl⟩

/-- A push sets a slot of its own, and the window keeps its elements. -/
theorem Fits.push (h : ring.Fits) {elt : α} {seen : ℤ} {contents : ℕ → α}
    (hnext : ring.next (.push elt seen contents) = some after) :
    after.array.caGet ring.bottom = elt ∧ ∀ i, ring.top ≤ i → i < ring.bottom →
      after.array.slot i ≠ after.array.slot ring.bottom ∧
        after.array.caGet i = ring.array.caGet i := by
  obtain ⟨hseen, htop, array, hgrown, rfl⟩ := next_push hnext
  obtain ⟨hroom, hsame⟩ := h.grown hseen hgrown
  refine ⟨array.caGet_caSet_self ring.bottom elt, fun i hle hlt ↦ ⟨fun hslot ↦ ?_, ?_⟩⟩
  · exact hlt.ne (array.eq_of_slot_eq hslot (by omega) (by omega))
  · rw [← hsame i (by omega) hlt]
    exact array.caGet_caSet_of_ne hlt.ne (by omega) (by omega) elt

/-- Every step leaves a slot for every index. -/
theorem Fits.next (h : ring.Fits) {step : RingStep α} (hnext : ring.next step = some after) :
    after.Fits := by
  obtain ⟨hseen, htop, hwindow⟩ := h
  cases step with
  | push elt seen contents =>
    obtain ⟨hread, hle, array, hgrown, rfl⟩ := next_push hnext
    obtain ⟨hroom, -⟩ := Fits.grown ⟨hseen, htop, hwindow⟩ hread hgrown
    refine ⟨hle, htop.trans (lt_add_one _).le, ?_⟩
    rw [CircularArray.size_caSet]
    dsimp only
    omega
  | takeTop =>
    rw [Ring.next] at hnext
    split_ifs at hnext with hlt
    obtain rfl := Option.some_inj.mp hnext
    exact ⟨hseen.trans (lt_add_one _).le, hlt, hwindow⟩
  | takeBottom =>
    rw [Ring.next] at hnext
    split_ifs at hnext with hlt
    obtain rfl := Option.some_inj.mp hnext
    exact ⟨hseen, Int.le_sub_one_of_lt hlt, by dsimp only; omega⟩

/-- Assumes: a ring with a slot for every index. So it is at the end of every run. -/
theorem fits_of_run {start : Ring α} (hstart : start.Fits) {steps : List (RingStep α)}
    (hrun : (ringSystem start).Run (fun _ _ ↦ True) steps ring) : ring.Fits :=
  hrun.invariant (fun _ hinitial ↦ hinitial ▸ hstart) fun _ _ _ h _ hnext ↦ h.next hnext

/-! ### Queues with two ends -/

/-- What a step does to the elements from `top` on. -/
def elementsAfter : RingStep α → List α → List α
  | .push elt _ _, elements => elements ++ [elt]
  | .takeTop, elements => elements.tail
  | .takeBottom, elements => elements.dropLast

/-- A ring has a slot for every index, and the elements of a list. -/
structure Represents (ring : Ring α) (elements : List α) : Prop where
  fits : ring.Fits
  bottom : ring.bottom = ring.top + elements.length
  holds : ring.array.Holds ring.top elements

theorem Represents.push {elements : List α} (h : ring.Represents elements) {elt : α} {seen : ℤ}
    {contents : ℕ → α} (hnext : ring.next (.push elt seen contents) = some after) :
    after.Represents (elements ++ [elt]) := by
  obtain ⟨hset, hkept⟩ := h.fits.push hnext
  have hfits := h.fits.next hnext
  have hbottom := h.bottom
  obtain ⟨-, -, array, -, rfl⟩ := next_push hnext
  refine ⟨hfits, ?_, CircularArray.Holds.concat (fun i other hother ↦ ?_) hbottom hset⟩
  · rw [List.length_append, List.length_singleton, Nat.cast_add, Nat.cast_one, ← add_assoc,
      ← hbottom]
  · have hlt := (List.getElem?_eq_some_iff.mp hother).1
    rw [(hkept _ (by omega) (by omega)).2]
    exact h.holds i other hother

/-- Every step does to the ring what it does to the list. -/
theorem Represents.next {elements : List α} (h : ring.Represents elements) {step : RingStep α}
    (hnext : ring.next step = some after) : after.Represents (elementsAfter step elements) := by
  cases step with
  | push elt seen contents => exact h.push hnext
  | takeTop =>
    have hfits := h.fits.next hnext
    have hbottom := h.bottom
    rw [Ring.next] at hnext
    split_ifs at hnext with hlt
    obtain rfl := Option.some_inj.mp hnext
    cases elements with
    | nil => exact absurd hbottom (by simpa using hlt.ne')
    | cons elt rest =>
      refine ⟨hfits, ?_, h.holds.tail⟩
      rw [elementsAfter, List.tail_cons, hbottom, List.length_cons]
      push_cast
      ring
  | takeBottom =>
    have hfits := h.fits.next hnext
    have hbottom := h.bottom
    rw [Ring.next] at hnext
    split_ifs at hnext with hlt
    obtain rfl := Option.some_inj.mp hnext
    refine ⟨hfits, ?_, fun i other hother ↦ ?_⟩
    · rw [elementsAfter, List.length_dropLast]
      dsimp only
      omega
    · obtain ⟨hi, rfl⟩ := List.getElem?_eq_some_iff.mp hother
      rw [elementsAfter, List.length_dropLast] at hi
      refine h.holds i _ ?_
      rw [List.getElem?_eq_getElem (by omega)]
      simp [elementsAfter]

/-- Assumes: a ring with the elements of a list. A run does to it what its steps do to the list. -/
theorem represents_of_run {start : Ring α} {elements : List α} (hstart : start.Represents elements)
    {steps : List (RingStep α)} (hrun : (ringSystem start).Run (fun _ _ ↦ True) steps ring) :
    ring.Represents (steps.foldl (fun elements step ↦ elementsAfter step elements) elements) := by
  induction hrun with
  | start hinitial =>
    obtain rfl := hinitial
    exact hstart
  | step _ _ hnext ih =>
    rw [List.foldl_append]
    exact ih.next hnext

end Ring

/-! ### Growth and what comes after it -/

/-- Assumes: a size up to `2 ^ 30`, and a window that is not longer. The array grows to twice the
size and keeps the window. Sets in a window of that length leave its other indices, and in a run of
a ring on the array no push hits the slot of an index of the window. -/
theorem growth_keeps_window {arr : CircularArray α} {logSize : ℕ} (hlogSize : logSize ≤ 30)
    (hsize : arr.size = 2 ^ logSize) {top bottom : ℤ} (htop : top ≤ bottom)
    (hwindow : bottom - top ≤ arr.size) (contents : ℕ → α) :
    (∃ newArray, arr.circularArrayResize bottom top contents = some newArray ∧
      newArray.size = 2 * arr.size ∧ newArray.mask = newArray.size - 1 ∧
      (∀ i, top ≤ i → i < bottom → newArray.caGet i = arr.caGet i) ∧
      ∀ (sets : List (ℤ × α)) (low high idx i : ℤ) (elt : α), high - low ≤ 2 * arr.size →
        low ≤ idx → idx < high → low ≤ i → i < high → i ≠ idx →
          ((newArray.setAll sets).caSet idx elt).caGet i = (newArray.setAll sets).caGet i) ∧
    ∀ (steps : List (RingStep α)) (ring after : Ring α) (elt : α) (seen : ℤ) (fresh : ℕ → α),
      (ringSystem ⟨arr, top, top, bottom⟩).Run (fun _ _ ↦ True) steps ring →
        ring.next (.push elt seen fresh) = some after →
          ∀ i, ring.top ≤ i → i < ring.bottom →
            after.array.slot i ≠ after.array.slot ring.bottom ∧
              after.array.caGet i = ring.array.caGet i := by
  constructor
  · obtain ⟨newArray, hresize⟩ := CircularArray.exists_circularArrayResize hlogSize hsize bottom top
      contents
    have hdouble := CircularArray.size_circularArrayResize hresize
    have hpos := arr.size_pos
    refine ⟨newArray, hresize, hdouble, newArray.mask_eq, fun i hle hlt ↦ ?_, ?_⟩
    · exact CircularArray.caGet_circularArrayResize hresize (by omega) hle hlt
    · intro sets low high idx i elt hlong hidx hidxHigh hi hiHigh hne
      have hsame := newArray.size_setAll sets
      exact CircularArray.caGet_caSet_of_ne _ hne (by omega) (by omega) elt
  · intro steps ring after elt seen fresh hrun hnext
    exact ((Ring.fits_of_run ⟨le_rfl, htop, hwindow⟩ hrun).push hnext).2

/-- A full array of two elements, with a window around 0. -/
theorem growth_keeps_window_two :
    (∃ newArray, (CircularArray.circularArrayNew 1 (by decide) id).circularArrayResize 1 (-1) id =
        some newArray ∧
      newArray.size = 2 * (CircularArray.circularArrayNew 1 (by decide) id).size ∧
      newArray.mask = newArray.size - 1 ∧
      (∀ i, -1 ≤ i → i < 1 →
        newArray.caGet i = (CircularArray.circularArrayNew 1 (by decide) id).caGet i) ∧
      ∀ (sets : List (ℤ × ℕ)) (low high idx i : ℤ) (elt : ℕ),
        high - low ≤ 2 * (CircularArray.circularArrayNew 1 (by decide) id).size →
          low ≤ idx → idx < high → low ≤ i → i < high → i ≠ idx →
            ((newArray.setAll sets).caSet idx elt).caGet i = (newArray.setAll sets).caGet i) ∧
    ∀ (steps : List (RingStep ℕ)) (ring after : Ring ℕ) (elt : ℕ) (seen : ℤ) (fresh : ℕ → ℕ),
      (ringSystem ⟨CircularArray.circularArrayNew 1 (by decide) id, -1, -1, 1⟩).Run
          (fun _ _ ↦ True) steps ring →
        ring.next (.push elt seen fresh) = some after →
          ∀ i, ring.top ≤ i → i < ring.bottom →
            after.array.slot i ≠ after.array.slot ring.bottom ∧
              after.array.caGet i = ring.array.caGet i :=
  growth_keeps_window (show 1 ≤ 30 by decide) rfl (by decide) (by decide) id

end Libseff.Queues
