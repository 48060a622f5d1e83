import Mathlib.Data.Int.ModEq
import Mathlib.Tactic

/-!
# Circular arrays

The growable ring of `utils/circular_array.h` that the work queues store their elements in. One
thread owns a queue, and the others steal from it. Indices
are the `int64_t` counters of the queues, which only grow; a slot is chosen by masking. The contents
of a freshly allocated array are arbitrary, and so a parameter.

Two indices less than a size apart use different slots (`caGet_caSet_of_ne`), so a window of at most
`size` indices survives a growth wherever it lies (`caGet_circularArrayResize`).
-/

set_option autoImplicit false
set_option relaxedAutoImplicit false

namespace Libseff.Queues

variable {α : Type*}

/-- The threads that use a queue. -/
inductive Thread (Thief : Type*)
  | owner
  | thief (thief : Thief)
  deriving DecidableEq

section Threads

variable {Thief β : Type*} [DecidableEq Thief] {f g : Thread Thief → β} {value : β}

/-- A function of the threads that changes at the owner. -/
theorem Thread.eq_update_owner (howner : g .owner = value)
    (hthieves : ∀ thief, g (.thief thief) = f (.thief thief)) :
    g = Function.update f .owner value := by
  funext thread
  cases thread with
  | owner => rw [Function.update_self, howner]
  | thief thief =>
    have hne : Thread.thief thief ≠ .owner := nofun
    rw [Function.update_of_ne hne, hthieves]

/-- A function of the threads that changes at a thief. -/
theorem Thread.eq_update_thief {thief : Thief} (howner : g .owner = f .owner)
    (hthieves : ∀ other, g (.thief other) =
      Function.update (fun other ↦ f (.thief other)) thief value other) :
    g = Function.update f (.thief thief) value := by
  funext thread
  cases thread with
  | owner =>
    have hne : Thread.owner ≠ .thief thief := nofun
    rw [Function.update_of_ne hne, howner]
  | thief other =>
    rw [hthieves]
    by_cases heq : other = thief
    · rw [heq, Function.update_self, Function.update_self]
    · have hne : Thread.thief other ≠ .thief thief := fun hthief ↦ heq (Thread.thief.inj hthief)
      rw [Function.update_of_ne heq, Function.update_of_ne hne]

end Threads

/-- An address that `malloc` returns. -/
abbrev Address := ℕ

/-- `circular_array_t`, with a size that is a power of two of at most 32 bits. -/
structure CircularArray (α : Type*) where
  size : ℤ
  mask : ℤ
  buffer : ℕ → α
  size_eq : ∃ logSize < 32, size = 2 ^ logSize
  mask_eq : mask = size - 1

theorem zero_lt_maxLogSize : 0 < 31 := by decide

namespace CircularArray

/-- `circular_array_new(log_size)`, of an `int` that does not overflow. -/
def circularArrayNew (logSize : ℕ) (hlogSize : logSize < 31) (contents : ℕ → α) :
    CircularArray α where
  size := 2 ^ logSize
  mask := 2 ^ logSize - 1
  buffer := contents
  size_eq := ⟨logSize, by omega, rfl⟩
  mask_eq := rfl

variable (arr : CircularArray α)

/-- `idx & arr->mask`, of `int64_t` operands. -/
def slot (idx : ℤ) : ℕ := (BitVec.ofInt 64 idx &&& BitVec.ofInt 64 arr.mask).toNat

/-- `CA_GET(arr, idx)`. -/
def caGet (idx : ℤ) : α := arr.buffer (arr.slot idx)

/-- `CA_SET(arr, idx, elt)`. -/
def caSet (idx : ℤ) (elt : α) : CircularArray α :=
  { arr with buffer := Function.update arr.buffer (arr.slot idx) elt }

/-- The loop of `circular_array_resize`, from `i` on for `count` iterations. -/
def copyLoop : ℕ → ℤ → CircularArray α → CircularArray α
  | 0, _, newArray => newArray
  | count + 1, i, newArray => copyLoop count (i + 1) (newArray.caSet i (arr.caGet i))

theorem size_shiftLeft (hclz : 0 < (BitVec.ofInt 32 arr.size).clz) :
    ∃ logSize < 32, arr.size * 2 = 2 ^ logSize := by
  obtain ⟨logSize, hlogSize, hsize⟩ := arr.size_eq
  have hclz_last : ¬ 0 < (BitVec.ofInt 32 (2 ^ 31)).clz := by decide
  refine ⟨logSize + 1, ?_, by rw [hsize, pow_succ]⟩
  by_contra hlarge
  obtain rfl : logSize = 31 := by omega
  exact hclz_last (hsize ▸ hclz)

/-- The array that `circular_array_resize` allocates, after it asserted that the size can be
doubled. -/
def double (contents : ℕ → α) : Option (CircularArray α) :=
  if hclz : 0 < (BitVec.ofInt 32 arr.size).clz then
    some
      { size := arr.size * 2
        mask := arr.size * 2 - 1
        buffer := contents
        size_eq := arr.size_shiftLeft hclz
        mask_eq := rfl }
  else none

/-- `circular_array_resize(arr, bottom, top)`. -/
def circularArrayResize (bottom top : ℤ) (contents : ℕ → α) : Option (CircularArray α) :=
  (arr.double contents).map (arr.copyLoop (bottom - top).toNat top)

/-! ### Slots -/

theorem size_pos : 0 < arr.size := by
  obtain ⟨logSize, -, hsize⟩ := arr.size_eq
  rw [hsize]
  positivity

/-- Masking is a remainder. -/
theorem slot_eq (idx : ℤ) : (arr.slot idx : ℤ) = idx % arr.size := by
  obtain ⟨logSize, hlogSize, hsize⟩ := arr.size_eq
  have hpos : 0 < 2 ^ logSize := Nat.two_pow_pos logSize
  have hlarge : 2 ^ logSize < 2 ^ 64 := Nat.pow_lt_pow_right (by omega) (by omega)
  have hmask : (BitVec.ofInt 64 arr.mask).toNat = 2 ^ logSize - 1 := by
    have hcast : arr.mask = ((2 ^ logSize - 1 : ℕ) : ℤ) := by
      rw [arr.mask_eq, hsize, Nat.cast_sub hpos]
      push_cast
      ring
    rw [hcast, BitVec.ofInt_natCast, BitVec.toNat_ofNat, Nat.mod_eq_of_lt (by omega)]
  have hdvd : (2 : ℤ) ^ logSize ∣ 2 ^ 64 := pow_dvd_pow 2 (by omega)
  rw [slot, BitVec.toNat_and, hmask, Nat.and_two_pow_sub_one_eq_mod, BitVec.toNat_ofInt, hsize]
  push_cast
  rw [Int.toNat_of_nonneg (Int.emod_nonneg idx (by norm_num))]
  exact Int.emod_emod_of_dvd idx hdvd

/-- Indices less than a size apart that share a slot are equal. -/
theorem eq_of_slot_eq {i j : ℤ} (hslot : arr.slot i = arr.slot j) (hij : i - j < arr.size)
    (hji : j - i < arr.size) : i = j := by
  have hmod : i % arr.size = j % arr.size := by rw [← arr.slot_eq, ← arr.slot_eq, hslot]
  have hdvd : arr.size ∣ i - j := Int.ModEq.dvd (Eq.symm hmod)
  have hzero : i - j = 0 := Int.eq_zero_of_abs_lt_dvd hdvd (abs_lt.mpr ⟨by omega, hij⟩)
  omega

@[simp]
theorem size_caSet (idx : ℤ) (elt : α) : (arr.caSet idx elt).size = arr.size := rfl

@[simp]
theorem slot_caSet (idx i : ℤ) (elt : α) : (arr.caSet idx elt).slot i = arr.slot i := rfl

@[simp]
theorem caGet_caSet_self (idx : ℤ) (elt : α) : (arr.caSet idx elt).caGet idx = elt :=
  Function.update_self ..

theorem caGet_caSet_of_ne {i j : ℤ} (hne : i ≠ j) (hij : i - j < arr.size)
    (hji : j - i < arr.size) (elt : α) : (arr.caSet j elt).caGet i = arr.caGet i :=
  Function.update_of_ne (fun hslot ↦ hne (arr.eq_of_slot_eq hslot hij hji)) ..

/-! ### Growth -/

theorem size_copyLoop (count : ℕ) (i : ℤ) (newArray : CircularArray α) :
    (arr.copyLoop count i newArray).size = newArray.size := by
  induction count generalizing i newArray with
  | zero => rfl
  | succ count ih => rw [copyLoop, ih, size_caSet]

/-- The loop leaves the slots of the indices it has passed. -/
theorem caGet_copyLoop_of_lt (count : ℕ) {i j : ℤ} (newArray : CircularArray α) (hj : j < i)
    (hsize : i + count - j ≤ newArray.size) :
    (arr.copyLoop count i newArray).caGet j = newArray.caGet j := by
  induction count generalizing i newArray with
  | zero => rfl
  | succ count ih =>
    rw [copyLoop, ih _ (by omega) (by rw [size_caSet]; push_cast at hsize; omega)]
    exact newArray.caGet_caSet_of_ne (by omega) (by push_cast at hsize; omega)
      (by push_cast at hsize; omega) _

theorem caGet_copyLoop (count : ℕ) {i j : ℤ} (newArray : CircularArray α)
    (hsize : count ≤ newArray.size) (hi : i ≤ j) (hj : j < i + count) :
    (arr.copyLoop count i newArray).caGet j = arr.caGet j := by
  induction count generalizing i newArray with
  | zero => omega
  | succ count ih =>
    rw [copyLoop]
    by_cases heq : j = i
    · subst heq
      rw [caGet_copyLoop_of_lt _ _ _ (by omega) (by rw [size_caSet]; push_cast at hsize; omega),
        caGet_caSet_self]
    · exact ih _ (by rw [size_caSet]; push_cast at hsize; omega) (by omega)
        (by push_cast at hj; omega)

variable {arr}

theorem size_double {contents : ℕ → α} {newArray : CircularArray α}
    (h : arr.double contents = some newArray) : newArray.size = 2 * arr.size := by
  unfold double at h
  split_ifs at h
  obtain rfl := Option.some.inj h
  exact mul_comm arr.size 2

theorem size_circularArrayResize {bottom top : ℤ} {contents : ℕ → α} {newArray : CircularArray α}
    (h : arr.circularArrayResize bottom top contents = some newArray) :
    newArray.size = 2 * arr.size := by
  obtain ⟨doubled, hdouble, rfl⟩ := Option.map_eq_some_iff.mp h
  rw [size_copyLoop, size_double hdouble]

/-- The larger array holds the same elements between the two indices. -/
theorem caGet_circularArrayResize {bottom top : ℤ} {contents : ℕ → α} {newArray : CircularArray α}
    (h : arr.circularArrayResize bottom top contents = some newArray)
    (hsize : bottom - top ≤ 2 * arr.size) {idx : ℤ} (htop : top ≤ idx) (hbottom : idx < bottom) :
    newArray.caGet idx = arr.caGet idx := by
  obtain ⟨doubled, hdouble, rfl⟩ := Option.map_eq_some_iff.mp h
  have hpos := arr.size_pos
  have hcount : ((bottom - top).toNat : ℤ) ≤ doubled.size := by
    rw [size_double hdouble]
    omega
  exact arr.caGet_copyLoop _ _ hcount htop (by omega)

/-! ### Windows -/

/-- The slots from an index on hold the elements of a list. -/
def Holds (arr : CircularArray α) (head : ℤ) (elements : List α) : Prop :=
  ∀ (i : ℕ) (elt : α), elements[i]? = some elt → arr.caGet (head + i) = elt

namespace Holds

variable {head : ℤ} {elements : List α}

theorem nil (arr : CircularArray α) (head : ℤ) : arr.Holds head [] := nofun

theorem caGet_head {elt : α} {rest : List α} (h : arr.Holds head (elt :: rest)) :
    arr.caGet head = elt := by
  simpa using h 0 elt rfl

theorem tail {elt : α} {rest : List α} (h : arr.Holds head (elt :: rest)) :
    arr.Holds (head + 1) rest := by
  intro i other hother
  have hget := h (i + 1) other (by simpa using hother)
  rwa [Nat.cast_add_one, add_comm (i : ℤ), ← add_assoc] at hget

/-- Writing behind the window leaves it. -/
theorem caSet (h : arr.Holds head elements) {idx : ℤ} (hidx : head + elements.length ≤ idx)
    (hsize : idx - head < arr.size) (elt : α) : (arr.caSet idx elt).Holds head elements := by
  intro i other hother
  have hlt := (List.getElem?_eq_some_iff.mp hother).1
  rw [arr.caGet_caSet_of_ne (by omega) (by omega) (by omega), h i other hother]

theorem concat (h : arr.Holds head elements) {idx : ℤ} (hidx : idx = head + elements.length)
    {elt : α} (helt : arr.caGet idx = elt) : arr.Holds head (elements ++ [elt]) := by
  intro i other hother
  by_cases hlt : i < elements.length
  · exact h i other (by rwa [List.getElem?_append_left hlt] at hother)
  · have hlength := (List.getElem?_eq_some_iff.mp hother).1
    rw [List.length_append, List.length_singleton] at hlength
    obtain rfl : i = elements.length := by omega
    rw [← hidx, helt]
    simpa using hother

/-- A window survives a growth. -/
theorem circularArrayResize (h : arr.Holds head elements) {bottom : ℤ}
    (hbottom : bottom = head + elements.length) (hsize : elements.length ≤ arr.size)
    {contents : ℕ → α} {newArray : CircularArray α}
    (hresize : arr.circularArrayResize bottom head contents = some newArray) :
    newArray.Holds head elements := by
  intro i elt helt
  have hlt := (List.getElem?_eq_some_iff.mp helt).1
  rw [caGet_circularArrayResize hresize (by omega) (by omega) (by omega), h i elt helt]

end Holds

/-! ### Growth, step by step -/

/-- The loop of `circular_array_resize(arr, bottom, top)` has come to `i`, while other threads read
`arr`. -/
structure Copying (heap : Address → Option (CircularArray α)) (arr newArray : Address)
    (bottom top i : ℤ) (array copied : CircularArray α) : Prop where
  array_eq : heap arr = some array
  copied_eq : heap newArray = some copied
  ne : newArray ≠ arr
  size : copied.size = 2 * array.size
  window : bottom - top ≤ array.size
  caGet : ∀ j, top ≤ j → j < i → copied.caGet j = array.caGet j

theorem ne_of_fresh {heap : Address → Option (CircularArray α)} {fresh address : Address}
    {array : CircularArray α} (hfresh : heap fresh = none) (harray : heap address = some array) :
    fresh ≠ address := by
  rintro rfl
  rw [harray] at hfresh
  exact absurd hfresh nofun

namespace Copying

variable {heap : Address → Option (CircularArray α)} {arr newArray : Address} {bottom top i : ℤ}
  {array copied : CircularArray α}

theorem start {fresh : Address} {contents : ℕ → α} (hfresh : heap fresh = none)
    (harray : heap arr = some array) (hdouble : array.double contents = some copied)
    (hwindow : bottom - top ≤ array.size) :
    Copying (Function.update heap fresh (some copied)) arr fresh bottom top top array copied where
  array_eq := (Function.update_of_ne (ne_of_fresh hfresh harray).symm ..).trans harray
  copied_eq := Function.update_self ..
  ne := ne_of_fresh hfresh harray
  size := size_double hdouble
  window := hwindow
  caGet := fun _ hle hlt ↦ absurd hlt hle.not_gt

theorem next (h : Copying heap arr newArray bottom top i array copied) (hlt : i < bottom) :
    Copying (Function.update heap newArray (some (copied.caSet i (array.caGet i)))) arr newArray
      bottom top (i + 1) array (copied.caSet i (array.caGet i)) where
  array_eq := (Function.update_of_ne h.ne.symm ..).trans h.array_eq
  copied_eq := Function.update_self ..
  ne := h.ne
  size := h.size
  window := h.window
  caGet := fun j hle hj ↦ by
    by_cases heq : j = i
    · subst heq
      rw [caGet_caSet_self]
    · have hpos := array.size_pos
      have hsize := h.size
      have hwindow := h.window
      rw [copied.caGet_caSet_of_ne heq (by omega) (by omega)]
      exact h.caGet j hle (by omega)

/-- A complete copy holds what the array holds behind `top`, and has room for more. -/
theorem holds (h : Copying heap arr newArray bottom top i array copied) (hle : bottom ≤ i)
    {head : ℤ} {elements : List α} (htop : top ≤ head)
    (hbottom : bottom = head + elements.length) (hholds : array.Holds head elements) :
    copied.Holds head elements ∧ elements.length < copied.size := by
  have hpos := array.size_pos
  have hsize := h.size
  have hwindow := h.window
  refine ⟨fun k elt helt ↦ ?_, by omega⟩
  have hk := (List.getElem?_eq_some_iff.mp helt).1
  rw [h.caGet _ (by omega) (by omega)]
  exact hholds k elt helt

end Copying

end CircularArray

end Libseff.Queues
