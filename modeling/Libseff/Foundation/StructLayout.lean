import Mathlib.Algebra.Order.Ring.Nat
import Mathlib.Tactic.Common

/-!
# The layout of a structure

A structure lays out its members one after another, each at the next multiple of its alignment, and
rounds its size up to the largest alignment. A running sum of sizes that were recorded for the
members knows no alignment. The two agree on all offsets and on the whole size exactly if the sums
are aligned, and each recorded size is that of the member and less padding behind it than the next
alignment (`layout_eq_sums_iff`).
-/

set_option autoImplicit false
set_option relaxedAutoImplicit false

namespace Libseff.Foundation

/-- The size and the alignment of a type. -/
structure Layout where
  size : ℕ
  align : ℕ
  deriving DecidableEq

/-- The next multiple of the alignment. -/
def alignUp (offset align : ℕ) : ℕ := (offset + (align - 1)) / align * align

theorem dvd_alignUp (offset align : ℕ) : align ∣ alignUp offset align := Nat.dvd_mul_left ..

theorem le_alignUp (offset : ℕ) {align : ℕ} (halign : 0 < align) :
    offset ≤ alignUp offset align := by
  have hlt := Nat.lt_div_mul_add halign (a := offset + (align - 1))
  unfold alignUp
  omega

theorem alignUp_lt (offset : ℕ) {align : ℕ} (halign : 0 < align) :
    alignUp offset align < offset + align := by
  have hle := Nat.div_mul_le_self (offset + (align - 1)) align
  unfold alignUp
  omega

/-- It is the only multiple from the offset on that is less than the alignment away. -/
theorem alignUp_eq_iff {offset align next : ℕ} (halign : 0 < align) :
    alignUp offset align = next ↔ align ∣ next ∧ offset ≤ next ∧ next < offset + align := by
  have hle := le_alignUp offset halign
  have hlt := alignUp_lt offset halign
  constructor
  · rintro rfl
    exact ⟨dvd_alignUp offset align, hle, hlt⟩
  · rintro ⟨⟨count, rfl⟩, hleNext, hltNext⟩
    obtain ⟨countUp, hcountUp⟩ := dvd_alignUp offset align
    rw [hcountUp] at hle hlt ⊢
    have hbelow : countUp < count + 1 :=
      Nat.lt_of_mul_lt_mul_left (a := align) (by rw [Nat.mul_succ]; omega)
    have habove : count < countUp + 1 :=
      Nat.lt_of_mul_lt_mul_left (a := align) (by rw [Nat.mul_succ]; omega)
    rw [show countUp = count by omega]

/-- The offsets of the members from an offset on, and the end of the last one. -/
def placeMembers : ℕ → List Layout → List ℕ × ℕ
  | offset, [] => ([], offset)
  | offset, member :: rest =>
    let start := alignUp offset member.align
    let (starts, stop) := placeMembers (start + member.size) rest
    (start :: starts, stop)

/-- The offsets of the members of a structure. -/
def memberOffsets (members : List Layout) : List ℕ := (placeMembers 0 members).1

theorem length_placeMembers (offset : ℕ) (members : List Layout) :
    (placeMembers offset members).1.length = members.length := by
  induction members generalizing offset with
  | nil => rfl
  | cons member rest ih => exact congrArg Nat.succ (ih _)

theorem length_memberOffsets (members : List Layout) :
    (memberOffsets members).length = members.length := length_placeMembers 0 members

/-- The largest alignment of the members. -/
def largestAlign (members : List Layout) : ℕ :=
  members.foldr (fun member largest ↦ max member.align largest) 1

/-- The layout of a structure with the given members. -/
def structLayout (members : List Layout) : Layout where
  size := alignUp (placeMembers 0 members).2 (largestAlign members)
  align := largestAlign members

theorem largestAlign_pos (members : List Layout) : 0 < largestAlign members := by
  induction members with
  | nil => exact Nat.one_pos
  | cons member rest ih => exact lt_max_of_lt_right ih

/-- The running sums of some sizes from an offset on, and the last one. -/
def runningSums : ℕ → List ℕ → List ℕ × ℕ
  | offset, [] => ([], offset)
  | offset, size :: rest =>
    let (sums, stop) := runningSums (offset + size) rest
    (offset :: sums, stop)

theorem runningSums_snd (offset : ℕ) (sizes : List ℕ) :
    (runningSums offset sizes).2 = offset + sizes.sum := by
  induction sizes generalizing offset with
  | nil => rfl
  | cons size rest ih => rw [runningSums, ih, List.sum_cons, add_assoc]

/-- Each place in the sum is a multiple of the alignment of the member. -/
def Aligned : ℕ → List (ℕ × Layout) → Prop
  | _, [] => True
  | offset, (size, member) :: rest => member.align ∣ offset ∧ Aligned (offset + size) rest

instance decidableAligned : ∀ offset members, Decidable (Aligned offset members)
  | _, [] => isTrue trivial
  | offset, (size, _) :: rest =>
    have := decidableAligned (offset + size) rest
    inferInstanceAs (Decidable (_ ∧ _))

/-- The alignment of the first member, or `last` behind the last one. -/
def nextAlign (last : ℕ) : List (ℕ × Layout) → ℕ
  | [] => last
  | (_, member) :: _ => member.align

/-- Each size in the sum is at least that of the member, and exceeds it by less than the alignment
of what comes next. -/
def Fills (last : ℕ) : List (ℕ × Layout) → Prop
  | [] => True
  | (size, member) :: rest =>
    (member.size ≤ size ∧ size < member.size + nextAlign last rest) ∧ Fills last rest

instance decidableFills (last : ℕ) : ∀ members, Decidable (Fills last members)
  | [] => isTrue trivial
  | _ :: rest =>
    have := decidableFills last rest
    inferInstanceAs (Decidable (_ ∧ _))

@[simp] theorem nextAlign_cons (last size : ℕ) (member : Layout) (rest : List (ℕ × Layout)) :
    nextAlign last ((size, member) :: rest) = member.align := rfl

@[simp] theorem fills_cons (last size : ℕ) (member : Layout) (rest : List (ℕ × Layout)) :
    Fills last ((size, member) :: rest) ↔
      (member.size ≤ size ∧ size < member.size + nextAlign last rest) ∧ Fills last rest := Iff.rfl

section Sums

variable {members : List (ℕ × Layout)} {last : ℕ}

theorem nextAlign_pos (hlast : 0 < last) (halign : ∀ entry ∈ members, 0 < entry.2.align) :
    0 < nextAlign last members := by
  cases members with
  | nil => exact hlast
  | cons entry rest => exact halign entry List.mem_cons_self

theorem nextAlign_dvd {offset : ℕ} (haligned : Aligned offset members)
    (hlast : last ∣ (runningSums offset (members.map Prod.fst)).2) :
    nextAlign last members ∣ offset := by
  cases members with
  | nil => exact hlast
  | cons entry rest => exact haligned.1

/-- The members have the places of the sum from some place on if the first one has, and the sums
are aligned and filled. The member before them may end at `stop`, before its place in the sum. -/
theorem placeMembers_eq_iff (hlast : 0 < last) (halign : ∀ entry ∈ members, 0 < entry.2.align)
    (stop offset : ℕ) :
    (placeMembers stop (members.map Prod.snd)).1 =
          (runningSums offset (members.map Prod.fst)).1 ∧
        alignUp (placeMembers stop (members.map Prod.snd)).2 last =
          (runningSums offset (members.map Prod.fst)).2 ↔
      alignUp stop (nextAlign last members) = offset ∧ Aligned offset members ∧
        Fills last members ∧ last ∣ (runningSums offset (members.map Prod.fst)).2 := by
  induction members generalizing stop offset with
  | nil =>
    have hdvd : alignUp stop last = offset → last ∣ offset := fun heq ↦ heq ▸ dvd_alignUp stop last
    simpa [placeMembers, runningSums, nextAlign, Aligned, Fills] using hdvd
  | cons entry rest ih =>
    obtain ⟨size, member⟩ := entry
    have hrest : ∀ other ∈ rest, 0 < other.2.align :=
      fun other hother ↦ halign other (List.mem_cons_of_mem _ hother)
    have hstart : alignUp stop member.align = offset → member.align ∣ offset :=
      fun heq ↦ heq ▸ dvd_alignUp stop member.align
    have hfilled : alignUp (offset + member.size) (nextAlign last rest) = offset + size ↔ _ :=
      alignUp_eq_iff (nextAlign_pos hlast hrest)
    have htail := ih hrest (offset + member.size) (offset + size)
    simp only [List.map_cons, placeMembers, runningSums, nextAlign_cons, Aligned, fills_cons,
      List.cons.injEq]
    constructor
    · rintro ⟨⟨hplace, hplaces⟩, hend⟩
      rw [hplace] at hplaces hend
      obtain ⟨hnext, haligned, hfills, hwhole⟩ := htail.mp ⟨hplaces, hend⟩
      obtain ⟨-, hle, hlt⟩ := hfilled.mp hnext
      exact ⟨hplace, ⟨hstart hplace, haligned⟩, ⟨⟨by omega, by omega⟩, hfills⟩, hwhole⟩
    · rintro ⟨hplace, ⟨-, haligned⟩, ⟨⟨hle, hlt⟩, hfills⟩, hwhole⟩
      have hnext := hfilled.mpr ⟨nextAlign_dvd haligned hwhole, by omega, by omega⟩
      obtain ⟨hplaces, hend⟩ := htail.mpr ⟨hnext, haligned, hfills, hwhole⟩
      rw [hplace]
      exact ⟨⟨rfl, hplaces⟩, hend⟩

/-- The sums are the offsets and the size of the structure exactly if they are aligned and filled,
up to the largest alignment. -/
theorem layout_eq_sums_iff (halign : ∀ entry ∈ members, 0 < entry.2.align) :
    memberOffsets (members.map Prod.snd) = (runningSums 0 (members.map Prod.fst)).1 ∧
        (structLayout (members.map Prod.snd)).size = (runningSums 0 (members.map Prod.fst)).2 ↔
      Aligned 0 members ∧ Fills (largestAlign (members.map Prod.snd)) members ∧
        largestAlign (members.map Prod.snd) ∣ (runningSums 0 (members.map Prod.fst)).2 := by
  have hlast := largestAlign_pos (members.map Prod.snd)
  have hfirst : alignUp 0 (nextAlign (largestAlign (members.map Prod.snd)) members) = 0 :=
    (alignUp_eq_iff (nextAlign_pos hlast halign)).mpr
      ⟨Nat.dvd_zero _, le_rfl, by simpa using nextAlign_pos hlast halign⟩
  rw [memberOffsets, structLayout, placeMembers_eq_iff hlast halign]
  exact and_iff_right hfirst

end Sums

end Libseff.Foundation
