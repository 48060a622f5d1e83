import Mathlib.Data.List.Nodup
import Mathlib.Logic.Function.Basic
import Mathlib.Tactic.Common

/-!
# Families of lists without repetition

A family of lists is separated when no element occurs twice in it, neither twice in one list nor in
two lists. The operations below move elements between the lists of a family: a list is emptied in
front of another (`Separated.move`), the front of a list is split off into an empty list
(`Separated.split`) or dropped (`Separated.drop`), and a list is replaced by new elements
(`Separated.replace`).
-/

set_option autoImplicit false
set_option relaxedAutoImplicit false

namespace Libseff.Foundation

variable {Index Element : Type*}

/-- No element occurs twice in the family. -/
structure Separated (lists : Index → List Element) : Prop where
  nodup : ∀ index, (lists index).Nodup
  disjoint : ∀ first second, first ≠ second → List.Disjoint (lists first) (lists second)

/-- Where the elements are after one list was emptied in front of another. -/
theorem mem_move_cases [DecidableEq Index] {lists : Index → List Element}
    {source target index : Index} {element : Element}
    (hmem : element ∈ Function.update (Function.update lists source []) target
      (lists source ++ lists target) index) :
    (index = target ∧ (element ∈ lists source ∨ element ∈ lists target)) ∨
      (index ≠ target ∧ index ≠ source ∧ element ∈ lists index) := by
  by_cases htarget : index = target
  · subst htarget
    rw [Function.update_self] at hmem
    exact .inl ⟨rfl, List.mem_append.mp hmem⟩
  · rw [Function.update_of_ne htarget] at hmem
    by_cases hsource : index = source
    · subst hsource
      simp at hmem
    · rw [Function.update_of_ne hsource] at hmem
      exact .inr ⟨htarget, hsource, hmem⟩

namespace Separated

variable {lists : Index → List Element}

/-- An element occurs in one list of a separated family only. -/
theorem unique (h : Separated lists) (first second : Index) {element : Element}
    (hfirst : element ∈ lists first) (hsecond : element ∈ lists second) : first = second := by
  by_contra hne
  exact h.disjoint first second hne hfirst hsecond

theorem of_nodup_of_unique (hnodup : ∀ index, (lists index).Nodup)
    (hunique : ∀ first second element, element ∈ lists first → element ∈ lists second →
      first = second) : Separated lists :=
  ⟨hnodup, fun first second hne element hfirst hsecond ↦
    hne (hunique first second element hfirst hsecond)⟩

variable [DecidableEq Index]

/-- One list of a separated family is emptied, and its elements put in front of another. -/
theorem move (h : Separated lists) {source target : Index} (hne : source ≠ target) :
    Separated (Function.update (Function.update lists source []) target
      (lists source ++ lists target)) := by
  refine of_nodup_of_unique (fun index ↦ ?_) fun first second element hfirst hsecond ↦ ?_
  · by_cases htarget : index = target
    · subst htarget
      rw [Function.update_self]
      exact (h.nodup source).append (h.nodup index) (h.disjoint _ _ hne)
    · by_cases hsource : index = source
      · subst hsource
        simp [Function.update_of_ne htarget]
      · simpa [Function.update_of_ne htarget, Function.update_of_ne hsource] using h.nodup index
  · rcases mem_move_cases hfirst with ⟨rfl, hin⟩ | ⟨hft, hfs, hin⟩ <;>
      rcases mem_move_cases hsecond with ⟨rfl, hin'⟩ | ⟨hst, hss, hin'⟩
    · rfl
    · rcases hin with hin | hin
      · exact absurd (h.unique _ _ hin hin').symm hss
      · exact h.unique _ _ hin hin'
    · rcases hin' with hin' | hin'
      · exact absurd (h.unique _ _ hin hin') hfs
      · exact h.unique _ _ hin hin'
    · exact h.unique _ _ hin hin'

/-- One list of a separated family is replaced by elements that occur in no other. -/
theorem replace (h : Separated lists) {target : Index} {new : List Element} (hnodup : new.Nodup)
    (hfresh : ∀ index, index ≠ target → ∀ element ∈ new, element ∉ lists index) :
    Separated (Function.update lists target new) := by
  refine of_nodup_of_unique (fun index ↦ ?_) fun first second element hfirst hsecond ↦ ?_
  · by_cases hindex : index = target
    · subst hindex
      rwa [Function.update_self]
    · rw [Function.update_of_ne hindex]
      exact h.nodup index
  · by_cases hft : first = target <;> by_cases hst : second = target
    · rw [hft, hst]
    · subst hft
      rw [Function.update_self] at hfirst
      rw [Function.update_of_ne hst] at hsecond
      exact absurd hsecond (hfresh second hst element hfirst)
    · subst hst
      rw [Function.update_self] at hsecond
      rw [Function.update_of_ne hft] at hfirst
      exact absurd hfirst (hfresh first hft element hsecond)
    · rw [Function.update_of_ne hft] at hfirst
      rw [Function.update_of_ne hst] at hsecond
      exact h.unique _ _ hfirst hsecond

/-- The front of one list of a separated family is dropped. -/
theorem drop (h : Separated lists) {source : Index} {front back : List Element}
    (hsource : lists source = front ++ back) :
    Separated (Function.update lists source back) := by
  have hnodup : back.Nodup := (List.nodup_append.mp (hsource ▸ h.nodup source)).2.1
  refine h.replace hnodup fun index hindex element hback hmem ↦ ?_
  exact hindex (h.unique _ _ hmem (hsource ▸ List.mem_append_right front hback))

/-- The front of one list of a separated family becomes a list of its own. -/
theorem split (h : Separated lists) {source target : Index} {front back : List Element}
    (hsource : lists source = front ++ back) :
    Separated (Function.update (Function.update lists source back) target front) := by
  have hsplit := List.nodup_append.mp (hsource ▸ h.nodup source)
  refine (h.drop hsource).replace hsplit.1 fun index _ element hfront hmem ↦ ?_
  by_cases hindex : index = source
  · subst hindex
    rw [Function.update_self] at hmem
    exact hsplit.2.2 element hfront element hmem rfl
  · rw [Function.update_of_ne hindex] at hmem
    have hin : element ∈ lists source := hsource ▸ List.mem_append_left back hfront
    exact hindex (h.unique _ _ hmem hin)

end Separated

section Membership

variable [DecidableEq Index] (lists : Index → List Element) {element : Element}

/-- Emptying a list in front of another loses no element and adds none. -/
theorem exists_mem_move_iff {source target : Index} :
    (∃ index, element ∈ Function.update (Function.update lists source []) target
      (lists source ++ lists target) index) ↔ ∃ index, element ∈ lists index := by
  constructor
  · rintro ⟨index, hmem⟩
    rcases mem_move_cases hmem with ⟨-, hsource | htarget⟩ | ⟨-, -, hother⟩
    · exact ⟨source, hsource⟩
    · exact ⟨target, htarget⟩
    · exact ⟨index, hother⟩
  · rintro ⟨index, hmem⟩
    by_cases hin : index = source ∨ index = target
    · refine ⟨target, ?_⟩
      rw [Function.update_self]
      rcases hin with rfl | rfl
      · exact List.mem_append_left _ hmem
      · exact List.mem_append_right _ hmem
    · push Not at hin
      refine ⟨index, ?_⟩
      rwa [Function.update_of_ne hin.2, Function.update_of_ne hin.1]

/-- Splitting the front of a list off into an empty list loses no element and adds none. -/
theorem exists_mem_split_iff {source target : Index} {front back : List Element}
    (hne : source ≠ target) (hsource : lists source = front ++ back) (hempty : lists target = []) :
    (∃ index, element ∈ Function.update (Function.update lists source back) target front index) ↔
      ∃ index, element ∈ lists index := by
  constructor
  · rintro ⟨index, hmem⟩
    by_cases htarget : index = target
    · subst htarget
      rw [Function.update_self] at hmem
      exact ⟨source, hsource ▸ List.mem_append_left back hmem⟩
    · rw [Function.update_of_ne htarget] at hmem
      by_cases hindex : index = source
      · subst hindex
        rw [Function.update_self] at hmem
        exact ⟨index, hsource ▸ List.mem_append_right front hmem⟩
      · rw [Function.update_of_ne hindex] at hmem
        exact ⟨index, hmem⟩
  · rintro ⟨index, hmem⟩
    by_cases hindex : index = source
    · subst hindex
      rw [hsource] at hmem
      rcases List.mem_append.mp hmem with h | h
      · exact ⟨target, by rwa [Function.update_self]⟩
      · exact ⟨index, by rwa [Function.update_of_ne hne, Function.update_self]⟩
    · by_cases htarget : index = target
      · subst htarget
        simp [hempty] at hmem
      · exact ⟨index, by rwa [Function.update_of_ne htarget, Function.update_of_ne hindex]⟩

/-- What remains after the front of a list is dropped was there before. -/
theorem mem_of_mem_drop {source index : Index} {front back : List Element}
    (hsource : lists source = front ++ back)
    (hmem : element ∈ Function.update lists source back index) : element ∈ lists index := by
  by_cases hindex : index = source
  · subst hindex
    rw [Function.update_self] at hmem
    exact hsource ▸ List.mem_append_right front hmem
  · rwa [Function.update_of_ne hindex] at hmem

/-- An element that was there before the front of a list was dropped was in that front or
remains. -/
theorem mem_front_or_exists_mem_drop {source index : Index} {front back : List Element}
    (hsource : lists source = front ++ back) (hmem : element ∈ lists index) :
    element ∈ front ∨ ∃ other, element ∈ Function.update lists source back other := by
  by_cases hindex : index = source
  · subst hindex
    rw [hsource] at hmem
    exact (List.mem_append.mp hmem).imp id fun h ↦ ⟨index, by rwa [Function.update_self]⟩
  · exact .inr ⟨index, by rwa [Function.update_of_ne hindex]⟩

end Membership

end Libseff.Foundation
