import Mathlib.Algebra.Order.Ring.Nat
import Mathlib.Tactic.Ring

/-!
# A lexicographic measure of lists

`lexRank base depth digits` reads the first `depth` entries of a list as the digits of a number,
most significant first, and missing entries as zero. Where the digits are below the base the number
is below `base ^ depth` (`lexRank_lt`), and inserting a digit that is larger than the one it pushes
on makes it larger, whatever the digits behind become (`lexRank_lt_insert`). A process that inserts
only such digits therefore ends after fewer than `base ^ depth` insertions.
-/

set_option autoImplicit false
set_option relaxedAutoImplicit false

namespace Libseff.Foundation

/-- The number whose digits are the first `depth` entries of a list. -/
def lexRank (base : ℕ) : ℕ → List ℕ → ℕ
  | 0, _ => 0
  | _ + 1, [] => 0
  | depth + 1, digit :: rest => digit * base ^ depth + lexRank base depth rest

variable {base : ℕ}

theorem lexRank_lt (hbase : 0 < base) (depth : ℕ) {digits : List ℕ}
    (hdigits : ∀ digit ∈ digits, digit < base) : lexRank base depth digits < base ^ depth := by
  induction depth generalizing digits with
  | zero => simp [lexRank]
  | succ depth ih =>
    cases digits with
    | nil => exact Nat.pow_pos hbase
    | cons digit rest =>
      have hrest := ih fun other hother ↦ hdigits other (List.mem_cons_of_mem _ hother)
      have hdigit : digit + 1 ≤ base := hdigits digit (by simp)
      calc lexRank base (depth + 1) (digit :: rest)
          < digit * base ^ depth + base ^ depth := Nat.add_lt_add_left hrest _
        _ = (digit + 1) * base ^ depth := by ring
        _ ≤ base * base ^ depth := Nat.mul_le_mul_right _ hdigit
        _ = base ^ (depth + 1) := (Nat.pow_succ').symm

/-- A digit that is larger than the one it pushes on makes the number larger. -/
theorem lexRank_lt_insert (hbase : 0 < base) {depth : ℕ} {front back : List ℕ} {digit : ℕ}
    (hback : ∀ other ∈ back, other < base) (hdepth : front.length < depth)
    (hdigit : back.headD 0 < digit) :
    lexRank base depth (front ++ back) < lexRank base depth (front ++ digit :: back) := by
  induction front generalizing depth with
  | nil =>
    obtain ⟨depth, rfl⟩ := Nat.exists_eq_add_one_of_ne_zero (by omega : depth ≠ 0)
    cases back with
    | nil =>
      exact Nat.lt_of_lt_of_le (Nat.mul_pos hdigit (Nat.pow_pos hbase)) (Nat.le_add_right _ _)
    | cons head rest =>
      have hrest := lexRank_lt hbase depth fun other hother ↦
        hback other (List.mem_cons_of_mem _ hother)
      have hhead : head + 1 ≤ digit := hdigit
      calc lexRank base (depth + 1) (head :: rest)
          < head * base ^ depth + base ^ depth := Nat.add_lt_add_left hrest _
        _ = (head + 1) * base ^ depth := by ring
        _ ≤ digit * base ^ depth := Nat.mul_le_mul_right _ hhead
        _ ≤ lexRank base (depth + 1) (digit :: head :: rest) := Nat.le_add_right _ _
  | cons first front ih =>
    obtain ⟨depth, rfl⟩ := Nat.exists_eq_add_one_of_ne_zero (by omega : depth ≠ 0)
    exact Nat.add_lt_add_left (ih (by simpa using hdepth)) _

end Libseff.Foundation
