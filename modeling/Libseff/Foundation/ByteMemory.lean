import Mathlib.Data.BitVec
import Mathlib.Tactic.Common

/-!
# Byte-addressed memory

A memory gives every 64-bit address a byte, and words are stored with their least significant byte
first. Addresses wrap around: a range of bytes is given by its first address and its length
(`Within`), and a byte is in it when its distance from the first address is below the length.

A load returns what the last store at its address stored (`load64_store64`), and depends on the
eight bytes of its range only (`load64_congr`), so that stores, copies and other writes to disjoint
ranges do not change it.
-/

set_option autoImplicit false
set_option relaxedAutoImplicit false

namespace Libseff.Foundation

/-- A byte for every address. -/
abbrev ByteMemory := BitVec 64 → BitVec 8

/-- The addresses of `length` bytes from `base` on. -/
abbrev Within (base : BitVec 64) (length : ℕ) (address : BitVec 64) : Prop :=
  (address - base).toNat < length

namespace ByteMemory

variable (memory : ByteMemory)

/-- The word at an address. -/
def load64 (address : BitVec 64) : BitVec 64 :=
  memory (address + 7) ++ memory (address + 6) ++ memory (address + 5) ++ memory (address + 4) ++
    memory (address + 3) ++ memory (address + 2) ++ memory (address + 1) ++ memory address

/-- A word is stored at an address. -/
def store64 (address value : BitVec 64) : ByteMemory := fun other ↦
  if Within address 8 other then value.extractLsb' (8 * (other - address).toNat) 8
  else memory other

/-- Bytes are copied from one range to another of the same length. -/
def copyBytes (target source : BitVec 64) (length : ℕ) : ByteMemory := fun other ↦
  if Within target length other then memory (source + (other - target)) else memory other

/-- Some bytes are overwritten. -/
def overwrite (written : BitVec 64 → Option (BitVec 8)) : ByteMemory := fun other ↦
  (written other).getD (memory other)

/-- Words are stored one below the other, as `push` instructions do. -/
def storeDown (memory : ByteMemory) (top : BitVec 64) : List (BitVec 64) → ByteMemory
  | [] => memory
  | word :: words => storeDown (store64 memory (top - 8) word) (top - 8) words

variable {memory}

/-! ### Single bytes -/

theorem within_add {base : BitVec 64} {length offset : ℕ} (hlength : length ≤ 2 ^ 64)
    (hoffset : offset < length) : Within base length (base + BitVec.ofNat 64 offset) := by
  have hsub : base + BitVec.ofNat 64 offset - base = BitVec.ofNat 64 offset := by bv_omega
  rw [Within, hsub, BitVec.toNat_ofNat, Nat.mod_eq_of_lt (by omega)]
  exact hoffset

/-- A range that starts lower and ends where the other ends holds its addresses. -/
theorem within_extend {base address : BitVec 64} {length : ℕ} (offset : ℕ)
    (h : Within base length address) (hlength : offset + length ≤ 2 ^ 64) :
    Within (base - BitVec.ofNat 64 offset) (offset + length) address := by
  rw [Within] at h ⊢
  have hoffset : (BitVec.ofNat 64 offset).toNat = offset := by
    rw [BitVec.toNat_ofNat, Nat.mod_eq_of_lt (by omega)]
  have hsub : address - (base - BitVec.ofNat 64 offset) =
      address - base + BitVec.ofNat 64 offset := by
    bv_omega
  rw [hsub, BitVec.toNat_add_of_lt (by omega), hoffset]
  omega

theorem store64_of_not_within {address value other : BitVec 64} (h : ¬ Within address 8 other) :
    store64 memory address value other = memory other :=
  if_neg h

theorem store64_add (memory : ByteMemory) (address value : BitVec 64) {offset : ℕ}
    (h : offset < 8) :
    store64 memory address value (address + BitVec.ofNat 64 offset) =
      value.extractLsb' (8 * offset) 8 := by
  have hsub : address + BitVec.ofNat 64 offset - address = BitVec.ofNat 64 offset := by bv_omega
  have htoNat : (BitVec.ofNat 64 offset).toNat = offset := by
    rw [BitVec.toNat_ofNat, Nat.mod_eq_of_lt (by omega)]
  rw [store64, if_pos (within_add (by omega) h), hsub, htoNat]

theorem copyBytes_of_not_within {target source other : BitVec 64} {length : ℕ}
    (h : ¬ Within target length other) : copyBytes memory target source length other =
      memory other :=
  if_neg h

theorem copyBytes_add (memory : ByteMemory) (target source : BitVec 64) {length offset : ℕ}
    (hlength : length ≤ 2 ^ 64) (hoffset : offset < length) :
    copyBytes memory target source length (target + BitVec.ofNat 64 offset) =
      memory (source + BitVec.ofNat 64 offset) := by
  have hsub : target + BitVec.ofNat 64 offset - target = BitVec.ofNat 64 offset := by bv_omega
  rw [copyBytes, if_pos (within_add hlength hoffset), hsub]

theorem overwrite_of_eq_none {written : BitVec 64 → Option (BitVec 8)} {other : BitVec 64}
    (h : written other = none) : overwrite memory written other = memory other := by
  rw [overwrite, h, Option.getD_none]

/-! ### Words -/

/-- A load is the concatenation of the eight bytes of its range. -/
theorem load64_of_bytes {address : BitVec 64} {bytes : ℕ → BitVec 8}
    (h : ∀ offset < 8, memory (address + BitVec.ofNat 64 offset) = bytes offset) :
    load64 memory address =
      bytes 7 ++ bytes 6 ++ bytes 5 ++ bytes 4 ++ bytes 3 ++ bytes 2 ++ bytes 1 ++ bytes 0 := by
  have hzero : memory address = bytes 0 := by simpa using h 0 (by omega)
  have hone := h 1 (by omega)
  have htwo := h 2 (by omega)
  have hthree := h 3 (by omega)
  have hfour := h 4 (by omega)
  have hfive := h 5 (by omega)
  have hsix := h 6 (by omega)
  have hseven := h 7 (by omega)
  simp only [load64, BitVec.ofNat_eq_ofNat, hzero, hone, htwo, hthree, hfour, hfive, hsix, hseven]

/-- A load depends on the bytes of its range only. -/
theorem load64_congr {changed : ByteMemory} {address : BitVec 64}
    (h : ∀ other, Within address 8 other → changed other = memory other) :
    load64 changed address = load64 memory address := by
  have hbytes : ∀ offset < 8, changed (address + BitVec.ofNat 64 offset) =
      memory (address + BitVec.ofNat 64 offset) := fun offset hoffset ↦
    h _ (within_add (by omega) hoffset)
  rw [load64_of_bytes hbytes, load64_of_bytes fun _ _ ↦ rfl]

/-- A word is the concatenation of its bytes. -/
theorem append_extractLsb' (value : BitVec 64) :
    (value.extractLsb' 56 8 ++ value.extractLsb' 48 8 ++ value.extractLsb' 40 8 ++
      value.extractLsb' 32 8 ++ value.extractLsb' 24 8 ++ value.extractLsb' 16 8 ++
      value.extractLsb' 8 8 ++ value.extractLsb' 0 8 : BitVec 64) = value := by
  apply BitVec.eq_of_getLsbD_eq
  intro i hi
  simp only [BitVec.getLsbD_append, BitVec.getLsbD_extractLsb']
  grind

/-- A load returns the word that was stored at its address. -/
theorem load64_store64 (memory : ByteMemory) (address value : BitVec 64) :
    load64 (store64 memory address value) address = value := by
  have hbytes := fun offset (hoffset : offset < 8) ↦ store64_add memory address value hoffset
  rw [load64_of_bytes hbytes]
  exact append_extractLsb' value

/-- A load does not see a store to another range. -/
theorem load64_store64_of_le {address target value : BitVec 64}
    (habove : 8 ≤ (address - target).toNat) (hbelow : 8 ≤ (target - address).toNat) :
    load64 (store64 memory target value) address = load64 memory address := by
  refine load64_congr fun other hother ↦ store64_of_not_within ?_
  rw [Within] at hother ⊢
  bv_omega

/-! ### Words stored downwards -/

theorem storeDown_append (memory : ByteMemory) (top : BitVec 64) (front back : List (BitVec 64)) :
    storeDown memory top (front ++ back) = storeDown (storeDown memory top front)
      (top - BitVec.ofNat 64 (8 * front.length)) back := by
  induction front generalizing memory top with
  | nil => simp [storeDown]
  | cons word words ih =>
    have htop : top - 8 - BitVec.ofNat 64 (8 * words.length) =
        top - BitVec.ofNat 64 (8 * (words.length + 1)) := by
      bv_omega
    rw [List.cons_append, storeDown, storeDown, ih, htop, List.length_cons]

/-- Bytes that are not below `top` within the stored words stay as they were. -/
theorem storeDown_of_not_within {top other : BitVec 64} {words : List (BitVec 64)}
    (h : ∀ index < words.length, ¬ Within (top - BitVec.ofNat 64 (8 * (index + 1))) 8 other) :
    storeDown memory top words other = memory other := by
  induction words generalizing memory top with
  | nil => rfl
  | cons word words ih =>
    have hfirst := h 0 (by simp)
    rw [storeDown, ih, store64_of_not_within (by simpa using hfirst)]
    intro index hindex
    have hrest := h (index + 1) (by simpa using hindex)
    have htop : top - 8 - BitVec.ofNat 64 (8 * (index + 1)) =
        top - BitVec.ofNat 64 (8 * (index + 1 + 1)) := by
      bv_omega
    rwa [htop]

/-- Every stored word can be loaded again. -/
theorem load64_storeDown (memory : ByteMemory) (top : BitVec 64) (words : List (BitVec 64))
    (hlength : 8 * words.length ≤ 2 ^ 63) {index : ℕ} (hindex : index < words.length) :
    load64 (storeDown memory top words) (top - BitVec.ofNat 64 (8 * (index + 1))) =
      words[index] := by
  induction words generalizing memory top index with
  | nil => simp at hindex
  | cons word words ih =>
    rw [storeDown]
    simp only [List.length_cons] at hlength hindex
    cases index with
    | zero =>
      have hkept : load64 (storeDown (store64 memory (top - 8) word) (top - 8) words) (top - 8) =
          load64 (store64 memory (top - 8) word) (top - 8) := by
        refine load64_congr fun other hother ↦ storeDown_of_not_within fun position hposition ↦ ?_
        rw [Within] at hother ⊢
        bv_omega
      simpa using hkept.trans (load64_store64 memory (top - 8) word)
    | succ index =>
      have htop : top - BitVec.ofNat 64 (8 * (index + 1 + 1)) =
          top - 8 - BitVec.ofNat 64 (8 * (index + 1)) := by
        bv_omega
      rw [htop, ih _ _ (by omega) (by omega), List.getElem_cons_succ]

end ByteMemory

end Libseff.Foundation
