import Mathlib.Algebra.BigOperators.Finprod

/-!
# Potentials

The sum of the ranks of the values that a map has (`potential`), where there are finitely many. When
one of them changes, the sum changes with its rank (`potential_update`).
-/

set_option autoImplicit false
set_option relaxedAutoImplicit false

namespace Libseff.Foundation

variable {Key Value : Type*}

/-- The sum of the ranks of the values. -/
noncomputable def potential (rank : Value → ℕ) (values : Key → Option Value) : ℕ :=
  ∑ᶠ key, (values key).elim 0 rank

variable [DecidableEq Key] {rank : Value → ℕ} {values : Key → Option Value} {keys : Finset Key}

omit [DecidableEq Key] in
theorem potential_eq_sum (hkeys : ∀ key, (values key).isSome → key ∈ keys) :
    potential rank values = ∑ key ∈ keys, (values key).elim 0 rank := by
  refine finsum_eq_sum_of_support_subset _ fun key hkey ↦ hkeys key ?_
  rw [Function.mem_support] at hkey
  cases hvalue : values key with
  | none =>
    rw [hvalue] at hkey
    exact absurd rfl hkey
  | some value => rfl

/-- Assumes: finitely many values. One of them changes, or comes or goes. -/
theorem potential_update (rank : Value → ℕ) (hkeys : ∀ key, (values key).isSome → key ∈ keys)
    (key : Key) (value : Option Value) :
    potential rank (Function.update values key value) + (values key).elim 0 rank =
      potential rank values + value.elim 0 rank := by
  have hafter : ∀ other, (Function.update values key value other).isSome →
      other ∈ insert key keys := by
    intro other hother
    by_cases heq : other = key
    · rw [heq]
      exact Finset.mem_insert_self ..
    · rw [Function.update_of_ne heq] at hother
      exact Finset.mem_insert_of_mem (hkeys other hother)
  have hmem : key ∈ insert key keys := Finset.mem_insert_self ..
  have hrest : ∑ other ∈ (insert key keys).erase key,
      (Function.update values key value other).elim 0 rank =
        ∑ other ∈ (insert key keys).erase key, (values other).elim 0 rank := by
    refine Finset.sum_congr rfl fun other hother ↦ ?_
    rw [Function.update_of_ne (Finset.ne_of_mem_erase hother)]
  rw [potential_eq_sum hafter, potential_eq_sum fun other hother ↦
    Finset.mem_insert_of_mem (hkeys other hother), ← Finset.sum_erase_add _ _ hmem,
    ← Finset.sum_erase_add _ _ hmem, hrest, Function.update_self, add_right_comm]

end Libseff.Foundation
