import Mathlib.Data.List.Basic
import Mathlib.Tactic

/-!
# Printing into a bounded buffer

Texts are printed one behind the other into a buffer. Each print is told the room that is left,
which is a difference of machine words, and stores as much of its text as fits with a terminator
behind it; the length goes on by the whole text. Where a text other than the last one does not fit,
the next difference wraps around, and that print stores beyond the buffer (`within_printAll_iff`).
Where all of them fit, they stand behind each other (`written_printAll`).
-/

set_option autoImplicit false
set_option relaxedAutoImplicit false

namespace Libseff.Foundation.BoundedPrinting

variable {Character : Type*}

/-- What has been written, by the distance from the start of the buffer. -/
abbrev Written (Character : Type*) := ℕ → Option Character

/-- Characters are written from an offset on. -/
def store (written : Written Character) (offset : ℕ) (characters : List Character) :
    Written Character := fun index ↦
  if offset ≤ index ∧ index < offset + characters.length then characters[index - offset]?
  else written index

/-- What a print of a text stores where there is room for some characters. -/
def truncate (terminator : Character) (room : ℕ) (text : List Character) : List Character :=
  if room = 0 then [] else text.take (room - 1) ++ [terminator]

/-- What has been printed: the length so far, and the characters in memory. -/
structure Printed (w : ℕ) (Character : Type*) where
  length : BitVec w
  written : Written Character

variable {w : ℕ} (terminator : Character) (capacity : BitVec w)

/-- A text is printed behind the others. -/
def Printed.print (printed : Printed w Character) (text : List Character) :
    Printed w Character where
  length := printed.length + BitVec.ofNat w text.length
  written := store printed.written printed.length.toNat
    (truncate terminator (capacity - printed.length).toNat text)

/-- Texts are printed from the start of the buffer on. -/
def printAll (texts : List (List Character)) : Printed w Character :=
  texts.foldl (Printed.print terminator capacity) ⟨0, fun _ ↦ none⟩

/-- Nothing has been written behind the buffer. -/
def Printed.Within (capacity : ℕ) (printed : Printed w Character) : Prop :=
  ∀ index, capacity ≤ index → printed.written index = none

variable {terminator capacity}

/-! ### One print -/

theorem Printed.written_print (printed : Printed w Character) (text : List Character) :
    (printed.print terminator capacity text).written =
      store printed.written printed.length.toNat
        (truncate terminator (capacity - printed.length).toNat text) :=
  rfl

theorem Printed.length_print (printed : Printed w Character) (text : List Character) :
    (printed.print terminator capacity text).length =
      printed.length + BitVec.ofNat w text.length :=
  rfl

theorem store_of_lt {written : Written Character} {offset index : ℕ} (characters : List Character)
    (hindex : index < offset) : store written offset characters index = written index :=
  if_neg fun hrange ↦ absurd hrange.1 (not_le.mpr hindex)

theorem store_of_le {written : Written Character} {offset index : ℕ} {characters : List Character}
    (hindex : offset + characters.length ≤ index) :
    store written offset characters index = written index :=
  if_neg fun hrange ↦ absurd hrange.2 (not_lt.mpr hindex)

theorem store_add (written : Written Character) (offset : ℕ) {characters : List Character}
    {index : ℕ} (hindex : index < characters.length) :
    store written offset characters (offset + index) = characters[index]? := by
  rw [store, if_pos ⟨Nat.le_add_right _ _, by omega⟩, Nat.add_sub_cancel_left]

theorem length_truncate_le (terminator : Character) (room : ℕ) (text : List Character) :
    (truncate terminator room text).length ≤ room := by
  unfold truncate
  split_ifs with hroom
  · exact Nat.zero_le _
  · rw [List.length_append, List.length_take, List.length_singleton]
    omega

theorem truncate_ne_nil (terminator : Character) {room : ℕ} (hroom : room ≠ 0)
    (text : List Character) : truncate terminator room text ≠ [] := by
  rw [truncate, if_neg hroom]
  exact List.concat_ne_nil _ _

theorem truncate_of_lt {room : ℕ} {text : List Character} (hroom : text.length < room) :
    truncate terminator room text = text ++ [terminator] := by
  rw [truncate, if_neg (by omega), List.take_of_length_le (by omega)]

theorem toNat_sub_of_le {length : BitVec w} (h : length.toNat ≤ capacity.toNat) :
    (capacity - length).toNat = capacity.toNat - length.toNat :=
  BitVec.toNat_sub_of_le h

/-- A print stays in the buffer if its text starts in it. -/
theorem Printed.within_print_iff (printed : Printed w Character) (text : List Character) :
    (printed.print terminator capacity text).Within capacity.toNat ↔
      printed.Within capacity.toNat ∧ printed.length.toNat ≤ capacity.toNat := by
  have hlength := length_truncate_le terminator (capacity - printed.length).toNat text
  by_cases hle : printed.length.toNat ≤ capacity.toNat
  · rw [toNat_sub_of_le hle] at hlength
    have hsame : ∀ index, capacity.toNat ≤ index →
        (printed.print terminator capacity text).written index = printed.written index := by
      intro index hindex
      refine store_of_le ?_
      rw [toNat_sub_of_le hle]
      omega
    constructor
    · intro h
      exact ⟨fun index hindex ↦ (hsame index hindex).symm.trans (h index hindex), hle⟩
    · rintro ⟨h, -⟩ index hindex
      exact (hsame index hindex).trans (h index hindex)
  · -- the room has wrapped around, so the terminator at least is written
    refine iff_of_false (fun h ↦ ?_) fun h ↦ hle h.2
    have hroom : (capacity - printed.length).toNat ≠ 0 := by
      have hbound := printed.length.isLt
      rw [BitVec.toNat_sub]
      rw [Nat.mod_eq_of_lt (by omega)]
      omega
    have hpos := List.length_pos_of_ne_nil (truncate_ne_nil terminator hroom text)
    have hwritten := h (printed.length.toNat + 0) (by omega)
    rw [Printed.written_print, store_add _ _ hpos] at hwritten
    exact absurd (List.getElem?_eq_none_iff.mp hwritten) (not_le.mpr hpos)

/-! ### All prints -/

theorem printAll_concat (texts : List (List Character)) (text : List Character) :
    printAll terminator capacity (texts ++ [text]) =
      (printAll terminator capacity texts).print terminator capacity text := by
  rw [printAll, List.foldl_append]
  rfl

theorem length_flatten_concat (texts : List (List Character)) (text : List Character) :
    (texts ++ [text]).flatten.length = texts.flatten.length + text.length := by
  rw [List.flatten_append, List.flatten_singleton, List.length_append]

/-- The length is that of the whole texts. -/
theorem length_printAll (terminator : Character) (capacity : BitVec w)
    {texts : List (List Character)} (htotal : texts.flatten.length < 2 ^ w) :
    (printAll terminator capacity texts).length.toNat = texts.flatten.length := by
  induction texts using List.reverseRecOn with
  | nil => exact BitVec.toNat_ofNat 0 w ▸ Nat.zero_mod _
  | append_singleton texts text ih =>
    rw [length_flatten_concat] at htotal ⊢
    rw [printAll_concat, Printed.length_print, BitVec.toNat_add, BitVec.toNat_ofNat, ih (by omega),
      Nat.mod_eq_of_lt (by omega : text.length < 2 ^ w), Nat.mod_eq_of_lt htotal]

/-- All prints stay in the buffer if all texts but the last one fit into it. -/
theorem within_printAll_iff (terminator : Character) {texts : List (List Character)}
    (htotal : texts.flatten.length < 2 ^ w) :
    (printAll terminator capacity texts).Within capacity.toNat ↔
      texts.dropLast.flatten.length ≤ capacity.toNat := by
  induction texts using List.reverseRecOn with
  | nil => exact iff_of_true (fun _ _ ↦ rfl) (Nat.zero_le _)
  | append_singleton texts text ih =>
    rw [length_flatten_concat] at htotal
    rw [printAll_concat, Printed.within_print_iff, ih (by omega),
      length_printAll _ _ (by omega), List.dropLast_concat]
    refine and_iff_right_of_imp fun hfits ↦ le_trans ?_ hfits
    exact ((List.dropLast_sublist texts).flatten).length_le

/-- Texts that fit stand behind each other. -/
theorem written_printAll {texts : List (List Character)}
    (hfits : texts.flatten.length < capacity.toNat) {index : ℕ}
    (hindex : index < texts.flatten.length) :
    (printAll terminator capacity texts).written index = texts.flatten[index]? := by
  have hbound := capacity.isLt
  induction texts using List.reverseRecOn with
  | nil => exact absurd hindex (Nat.not_lt_zero _)
  | append_singleton texts text ih =>
    rw [length_flatten_concat] at hfits hindex
    have hlength : (printAll terminator capacity texts).length.toNat = texts.flatten.length :=
      length_printAll _ _ (by omega)
    rw [printAll_concat, Printed.written_print, List.flatten_append, List.flatten_singleton]
    by_cases hbefore : index < texts.flatten.length
    · rw [store_of_lt _ (by omega), ih (by omega) hbefore, List.getElem?_append_left hbefore]
    · obtain ⟨offset, rfl⟩ := Nat.exists_eq_add_of_le (not_lt.mp hbefore)
      have hroom : text.length <
          (capacity - (printAll terminator capacity texts).length).toNat := by
        rw [toNat_sub_of_le (by omega)]
        omega
      rw [truncate_of_lt hroom, ← hlength, store_add _ _ (by simp; omega), hlength,
        List.getElem?_append_left (by omega), List.getElem?_append_right (Nat.le_add_right _ _),
        Nat.add_sub_cancel_left]

end Libseff.Foundation.BoundedPrinting
