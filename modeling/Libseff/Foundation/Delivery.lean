import Mathlib.Data.List.Nodup
import Mathlib.Data.List.Perm.Basic
import Mathlib.Data.List.Perm.Subperm
import Mathlib.Tactic

/-!
# Delivery of elements

Elements are published to a container, taken out of it by threads, held by the thread that took them
until its call returns, and returned. `Delivery` says where every element is: in the container, held
by one thread, or returned. Each move keeps it (`publish`, `take`, `finish`), when the published
elements are distinct. So no element is returned twice, and while no thread holds any, the container
holds exactly the elements not returned (`perm_returned`), and in the order they were published if
it keeps that order (`contents_eq_filter`).
-/

set_option autoImplicit false
set_option relaxedAutoImplicit false

namespace Libseff.Foundation

/-- Where the published elements are. -/
structure Delivery {α Thread : Type*} (published contents taken returned : List α)
    (held : Thread → Option α) : Prop where
  perm : (contents ++ taken).Perm published
  taken_of_held : ∀ thread elt, held thread = some elt → elt ∈ taken ∧ elt ∉ returned
  unique : ∀ first second elt, held first = some elt → held second = some elt → first = second
  accounted : ∀ elt ∈ taken, elt ∈ returned ∨ ∃ thread, held thread = some elt
  nodup : returned.Nodup
  taken_of_returned : ∀ elt ∈ returned, elt ∈ taken

namespace Delivery

variable {α Thread : Type*} {published contents taken returned : List α}
  {held : Thread → Option α}

/-- Nothing is published. -/
theorem nil (hheld : ∀ thread, held thread = none) : Delivery [] [] [] [] held where
  perm := .refl _
  taken_of_held thread elt h := by
    rw [hheld] at h
    exact absurd h nofun
  unique first _ elt h := by
    rw [hheld] at h
    exact absurd h nofun
  accounted := nofun
  nodup := List.nodup_nil
  taken_of_returned := nofun

/-- The order in the container plays no role. -/
theorem permContents (h : Delivery published contents taken returned held) {other : List α}
    (hperm : other.Perm contents) : Delivery published other taken returned held :=
  { h with perm := (hperm.append_right taken).trans h.perm }

/-- An element is added to the container. -/
theorem publish (h : Delivery published contents taken returned held) (elt : α) :
    Delivery (published ++ [elt]) (contents ++ [elt]) taken returned held where
  perm := by
    have hmiddle : (contents ++ [elt] ++ taken).Perm (contents ++ taken ++ [elt]) := by
      rw [List.append_assoc, List.append_assoc]
      exact List.perm_append_comm.append_left contents
    exact hmiddle.trans (h.perm.append_right [elt])
  taken_of_held := h.taken_of_held
  unique := h.unique
  accounted := h.accounted
  nodup := h.nodup
  taken_of_returned := h.taken_of_returned

section Moves

variable [DecidableEq Thread]

/-- A thread takes an element out of the container. -/
theorem take (h : Delivery published contents taken returned held) (hdistinct : published.Nodup)
    {elt : α} {rest : List α} (hperm : contents.Perm (elt :: rest)) {thread : Thread}
    (hnone : held thread = none) :
    Delivery published rest (elt :: taken) returned (Function.update held thread (some elt)) := by
  have hnew : elt ∉ taken := by
    have hnodup : (contents ++ taken).Nodup := h.perm.nodup_iff.mpr hdistinct
    have hmem : elt ∈ contents := hperm.mem_iff.mpr (by simp)
    exact fun hin ↦ (List.nodup_append.mp hnodup).2.2 elt hmem elt hin rfl
  have hunheld : ∀ other, held other ≠ some elt :=
    fun other hother ↦ hnew (h.taken_of_held other elt hother).1
  refine
    { perm := ?_
      taken_of_held := fun other held' hother ↦ ?_
      unique := fun first second held' hfirst hsecond ↦ ?_
      accounted := fun other hother ↦ ?_
      nodup := h.nodup
      taken_of_returned := fun other hother ↦
        List.mem_cons_of_mem _ (h.taken_of_returned other hother) }
  · exact (List.perm_middle.trans (hperm.append_right taken).symm).trans h.perm
  · by_cases heq : other = thread
    · subst heq
      rw [Function.update_self, Option.some.injEq] at hother
      subst hother
      exact ⟨by simp, fun hmem ↦ hnew (h.taken_of_returned _ hmem)⟩
    · rw [Function.update_of_ne heq] at hother
      obtain ⟨hmem, hnot⟩ := h.taken_of_held other held' hother
      exact ⟨List.mem_cons_of_mem _ hmem, hnot⟩
  · by_cases hone : first = thread <;> by_cases htwo : second = thread
    · rw [hone, htwo]
    · subst hone
      rw [Function.update_self, Option.some.injEq] at hfirst
      rw [Function.update_of_ne htwo, ← hfirst] at hsecond
      exact absurd hsecond (hunheld second)
    · subst htwo
      rw [Function.update_self, Option.some.injEq] at hsecond
      rw [Function.update_of_ne hone, ← hsecond] at hfirst
      exact absurd hfirst (hunheld first)
    · rw [Function.update_of_ne hone] at hfirst
      rw [Function.update_of_ne htwo] at hsecond
      exact h.unique first second held' hfirst hsecond
  · rcases List.mem_cons.mp hother with rfl | hold
    · exact .inr ⟨thread, Function.update_self ..⟩
    · refine (h.accounted other hold).imp id ?_
      rintro ⟨holder, hholder⟩
      have hne : holder ≠ thread := fun heq ↦ by
        rw [heq, hnone] at hholder
        exact absurd hholder nofun
      exact ⟨holder, by rwa [Function.update_of_ne hne]⟩

/-- A thread returns the element it holds. -/
theorem finish (h : Delivery published contents taken returned held) {thread : Thread} {elt : α}
    (hheld : held thread = some elt) :
    Delivery published contents taken (returned ++ [elt]) (Function.update held thread none) := by
  obtain ⟨htaken, hnot⟩ := h.taken_of_held thread elt hheld
  refine
    { perm := h.perm
      taken_of_held := fun other held' hother ↦ ?_
      unique := fun first second held' hfirst hsecond ↦ ?_
      accounted := fun other hother ↦ ?_
      nodup := by simpa using h.nodup.concat hnot
      taken_of_returned := fun other hother ↦ ?_ }
  · have hne : other ≠ thread := fun heq ↦ by
      rw [heq, Function.update_self] at hother
      exact absurd hother nofun
    rw [Function.update_of_ne hne] at hother
    obtain ⟨hmem, hreturned⟩ := h.taken_of_held other held' hother
    refine ⟨hmem, fun hin ↦ ?_⟩
    rcases List.mem_append.mp hin with hold | hlast
    · exact hreturned hold
    · rw [List.mem_singleton.mp hlast] at hother
      exact hne (h.unique other thread elt hother hheld)
  · have hkept : ∀ other, Function.update held thread none other = some held' →
        held other = some held' := fun other hother ↦ by
      by_cases heq : other = thread
      · rw [heq, Function.update_self] at hother
        exact absurd hother nofun
      · rwa [Function.update_of_ne heq] at hother
    exact h.unique first second held' (hkept first hfirst) (hkept second hsecond)
  · rcases h.accounted other hother with hold | ⟨holder, hholder⟩
    · exact .inl (List.mem_append_left _ hold)
    · by_cases heq : holder = thread
      · rw [heq, hheld, Option.some.injEq] at hholder
        exact .inl (by simp [hholder])
      · exact .inr ⟨holder, by rwa [Function.update_of_ne heq]⟩
  · rcases List.mem_append.mp hother with hold | hlast
    · exact h.taken_of_returned other hold
    · rwa [List.mem_singleton.mp hlast]

/-- A thread returns what it holds, if anything. -/
theorem finishResult (h : Delivery published contents taken returned held) {thread : Thread}
    {result : Option α} (hheld : held thread = result) :
    Delivery published contents taken (returned ++ result.toList)
      (Function.update held thread none) := by
  cases result with
  | none =>
    rw [Option.toList_none, List.append_nil, ← hheld, Function.update_eq_self]
    exact h
  | some elt => exact h.finish hheld

end Moves

/-- An element was taken when a thread returned it or holds it. -/
theorem mem_taken_iff (h : Delivery published contents taken returned held) {elt : α} :
    elt ∈ taken ↔ elt ∈ returned ∨ ∃ thread, held thread = some elt := by
  refine ⟨h.accounted elt, ?_⟩
  rintro (hreturned | ⟨thread, hheld⟩)
  · exact h.taken_of_returned elt hreturned
  · exact (h.taken_of_held thread elt hheld).1

/-- While no thread holds an element, the published ones are in the container or returned. -/
theorem perm_returned (h : Delivery published contents taken returned held)
    (hdistinct : published.Nodup) (hheld : ∀ thread, held thread = none) :
    published.Perm (contents ++ returned) := by
  have hnodup : (contents ++ taken).Nodup := h.perm.nodup_iff.mpr hdistinct
  have htaken : taken.Perm returned := by
    refine (List.perm_ext_iff_of_nodup hnodup.of_append_right h.nodup).mpr fun elt ↦ ?_
    simp [h.mem_taken_iff, hheld]
  exact h.perm.symm.trans (htaken.append_left contents)

/-- The container holds what was not taken, in the order of publication. -/
theorem contents_eq [DecidableEq α] (h : Delivery published contents taken returned held)
    (hdistinct : published.Nodup) (hsublist : contents.Sublist published) :
    contents = published.filter (· ∉ taken) := by
  have hnodup : (contents ++ taken).Nodup := h.perm.nodup_iff.mpr hdistinct
  have hdisjoint : ∀ elt ∈ contents, elt ∉ taken :=
    fun elt hmem hin ↦ (List.nodup_append.mp hnodup).2.2 elt hmem elt hin rfl
  have hself : contents.filter (· ∉ taken) = contents :=
    List.filter_eq_self.mpr fun elt hmem ↦ by simpa using hdisjoint elt hmem
  have hsub : contents.Sublist (published.filter (· ∉ taken)) := by
    have hfilter := hsublist.filter (fun elt ↦ decide (elt ∉ taken))
    rwa [hself] at hfilter
  refine hsub.eq_of_length_le ?_
  refine ((hdistinct.filter _).subperm fun elt hmem ↦ ?_).length_le
  obtain ⟨hpublished, hnot⟩ := List.mem_filter.mp hmem
  rcases List.mem_append.mp (h.perm.mem_iff.mpr hpublished) with hin | hin
  · exact hin
  · exact absurd hin (by simpa using hnot)

/-- While no thread holds an element, the container holds those not returned. -/
theorem contents_eq_filter [DecidableEq α] (h : Delivery published contents taken returned held)
    (hdistinct : published.Nodup) (hsublist : contents.Sublist published)
    (hheld : ∀ thread, held thread = none) : contents = published.filter (· ∉ returned) := by
  rw [h.contents_eq hdistinct hsublist]
  refine List.filter_congr fun elt _ ↦ ?_
  have hiff : elt ∈ taken ↔ elt ∈ returned := by
    simp [h.mem_taken_iff, hheld]
  simp [hiff]

end Delivery

end Libseff.Foundation
