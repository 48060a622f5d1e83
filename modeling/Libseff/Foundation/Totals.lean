import Mathlib.Algebra.BigOperators.Group.Finset.Piecewise
import Mathlib.Algebra.Order.BigOperators.Group.Finset
import Mathlib.Algebra.Order.BigOperators.Group.Multiset
import Mathlib.Data.Fintype.BigOperators
import Mathlib.Tactic

/-!
# Totals over threads

A weight gives each point of a thread's program what the thread contributes there: one to a count,
or the elements in its hands. The total over all threads changes by the weights before and after the
step of one thread (`total_update`). Where the elements of all threads are distinct, each is in the
hands of one thread (`eq_of_mem_total`).
-/

set_option autoImplicit false
set_option relaxedAutoImplicit false

namespace Libseff.Foundation

variable {Thread Pc M : Type*} [Fintype Thread]

section Weights

variable [AddCommMonoid M]

/-- What all threads contribute. -/
def total (weight : Pc → M) (pcs : Thread → Pc) : M := ∑ thread, weight (pcs thread)

/-- All threads are at one point, where a thread contributes nothing. -/
theorem total_eq_zero {weight : Pc → M} {pcs : Thread → Pc}
    (hzero : ∀ thread, weight (pcs thread) = 0) : total weight pcs = 0 :=
  Finset.sum_eq_zero fun thread _ ↦ hzero thread

/-- One thread goes on. -/
theorem total_update [DecidableEq Thread] (weight : Pc → M) (pcs : Thread → Pc) (thread : Thread)
    (pc : Pc) : total weight (Function.update pcs thread pc) + weight (pcs thread) =
      total weight pcs + weight pc := by
  have hcomp : ∀ other, weight (Function.update pcs thread pc other) =
      Function.update (fun other ↦ weight (pcs other)) thread (weight pc) other :=
    Function.apply_update (fun _ ↦ weight) pcs thread pc
  unfold total
  rw [Finset.sum_congr rfl fun other _ ↦ hcomp other,
    Finset.sum_update_of_mem (Finset.mem_univ thread),
    ← Finset.sum_sdiff (Finset.subset_univ {thread}), Finset.sum_singleton]
  abel

end Weights

/-- Each thread contributes nothing where all together do. -/
theorem weight_eq_zero_of_total {weight : Pc → ℕ} {pcs : Thread → Pc}
    (hzero : total weight pcs = 0) (thread : Thread) : weight (pcs thread) = 0 :=
  Finset.sum_eq_zero_iff.mp hzero thread (Finset.mem_univ thread)

section Elements

variable {α : Type*} {weight : Pc → Multiset α} {pcs : Thread → Pc}

/-- Each element is in the hands of a thread. -/
theorem mem_total {elt : α} : elt ∈ total weight pcs ↔ ∃ thread, elt ∈ weight (pcs thread) := by
  simp [total, Multiset.mem_sum]

/-- Elements that are all distinct are in the hands of one thread each. -/
theorem eq_of_mem_total (hnodup : (total weight pcs).Nodup) {elt : α} {first second : Thread}
    (hfirst : elt ∈ weight (pcs first)) (hsecond : elt ∈ weight (pcs second)) :
    first = second := by
  by_contra hne
  have hle : weight (pcs first) + weight (pcs second) ≤ total weight pcs :=
    Finset.add_le_sum (fun _ _ ↦ Multiset.zero_le _) (Finset.mem_univ first)
      (Finset.mem_univ second) hne
  have hdisjoint := (Multiset.nodup_add.mp (Multiset.nodup_of_le hle hnodup)).2.2
  exact Multiset.disjoint_left.mp hdisjoint hfirst hsecond

/-- Elements that are all distinct are in the hands of exactly one thread each. -/
theorem existsUnique_of_mem_total (hnodup : (total weight pcs).Nodup) {elt : α}
    (hmem : elt ∈ total weight pcs) : ∃! thread, elt ∈ weight (pcs thread) := by
  obtain ⟨thread, hthread⟩ := mem_total.mp hmem
  exact ⟨thread, hthread, fun other hother ↦ eq_of_mem_total hnodup hother hthread⟩

end Elements

end Libseff.Foundation
