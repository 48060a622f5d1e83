import Libseff.Ad.ReverseMode
import Mathlib.Algebra.Polynomial.Derivative
import Mathlib.Algebra.BigOperators.Fin
import Mathlib.Tactic.Ring

/-!
# What the handlers compute

What a coroutine computes with numbers only, and the adjoints that `handle` computes for it, without
memory (`backward`): the operations are numbered in the order in which they are performed, and the
contributions are added in the order in which the code adds them, so nothing is assumed of the
arithmetic.

In a commutative ring the adjoint of `x` is the derivative. For a coroutine that only passes its
operands on (`Parametric`), what it computes is a polynomial in `x`, and the adjoint is the value of
its derivative (`backward_eq_derivative`). What carries the induction is the sum over all numbers
computed so far of the adjoint times the derivative in `x`: no operation changes it. For `example`
this polynomial is a geometric sum (`computed_exampleClient`).
-/

set_option autoImplicit false
set_option relaxedAutoImplicit false

namespace Libseff.Ad

open Foundation.SystemCalls

variable {Scalar Arg Arg' : Type}

/-! ### Parametric coroutines -/

/-- The same operation, for operands that are related. -/
inductive Smooth.Lift (related : Arg → Arg' → Prop) : Smooth Scalar Arg → Smooth Scalar Arg' → Prop
  | ap0 (value : Scalar) : Lift related (.ap0 value) (.ap0 value)
  | ap1 (op : Op1) {arg1 : Arg} {arg1' : Arg'} (harg1 : related arg1 arg1') :
      Lift related (.ap1 op arg1) (.ap1 op arg1')
  | ap2 (op : Op2) {arg1 arg2 : Arg} {arg1' arg2' : Arg'} (harg1 : related arg1 arg1')
      (harg2 : related arg2 arg2') : Lift related (.ap2 op arg1 arg2) (.ap2 op arg1' arg2')

/-- What is computed from `x`, whatever stands for the numbers. -/
abbrev Family (Scalar : Type) := (Arg : Type) → Arg → Client Scalar Arg Arg

/-- The coroutine only passes on what it is given. -/
def Parametric (client : Family Scalar) : Prop :=
  ∀ (Arg Arg' : Type) (x : Arg) (x' : Arg'),
    Program.Parallel Smooth.Lift [(x, x')] (client Arg x) (client Arg' x')

/-! ### Values and adjoints -/

section Arithmetic

variable [Neg Scalar] [Add Scalar] [Mul Scalar]

/-- The result of an operation on numbers that stand at some places. -/
def Smooth.value : Smooth Scalar (Scalar × ℕ) → Scalar
  | .ap0 value => value
  | .ap1 .negateOp arg1 => -arg1.1
  | .ap2 .addOp arg1 arg2 => arg1.1 + arg2.1
  | .ap2 .multiplyOp arg1 arg2 => arg1.1 * arg2.1

/-- The adjoints of the operands get their contributions, for the adjoint of the result. -/
def Smooth.scatter (adjoint : Scalar) (adjoints : ℕ → Scalar) :
    Smooth Scalar (Scalar × ℕ) → ℕ → Scalar
  | .ap0 _ => adjoints
  | .ap1 .negateOp arg1 => Function.update adjoints arg1.2 (adjoints arg1.2 + -adjoint)
  | .ap2 .addOp arg1 arg2 =>
    let adjoints := Function.update adjoints arg1.2 (adjoints arg1.2 + adjoint)
    Function.update adjoints arg2.2 (adjoints arg2.2 + adjoint)
  | .ap2 .multiplyOp arg1 arg2 =>
    let adjoints := Function.update adjoints arg1.2 (adjoints arg1.2 + arg2.1 * adjoint)
    Function.update adjoints arg2.2 (adjoints arg2.2 + arg1.1 * adjoint)

/-- The adjoints of the numbers at all places, when `size` of them have been computed. -/
def backward [Zero Scalar] [One Scalar] :
    Client Scalar (Scalar × ℕ) (Scalar × ℕ) → ℕ → ℕ → Scalar
  | .done result, _ => Function.update (fun _ ↦ 0) result.2 1
  | .call request next, size =>
    let adjoints := backward (next (request.value, size)) (size + 1)
    request.scatter (adjoints size) adjoints

/-- What an operation computes where the numbers of the code stand for something. -/
def Smooth.applied {Value : Type} [Neg Value] [Add Value] [Mul Value] (constant : Scalar → Value) :
    Smooth Scalar Value → Value
  | .ap0 value => constant value
  | .ap1 .negateOp arg1 => -arg1
  | .ap2 .addOp arg1 arg2 => arg1 + arg2
  | .ap2 .multiplyOp arg1 arg2 => arg1 * arg2

/-- What a coroutine computes. -/
def computed {Value : Type} [Neg Value] [Add Value] [Mul Value] (constant : Scalar → Value) :
    Client Scalar Value Value → Value
  | .done result => result
  | .call request next => computed constant (next (request.applied constant))

end Arithmetic

/-! ### Derivatives -/

section Derivatives

open Polynomial Finset

variable {R : Type} [CommRing R]

/-- The derivative in `x` of a number, as the polynomial in `x` that it is. -/
noncomputable def slope (x₀ : R) (p : R[X]) : R := (derivative p).eval x₀

/-- The values and the derivatives of the numbers so far, each at a place of its own. -/
def Tangents (x₀ : R) (size : ℕ) (tangents : ℕ → R) (pairs : List ((R × ℕ) × R[X])) : Prop :=
  ∀ node p, (node, p) ∈ pairs →
    node.1 = p.eval x₀ ∧ node.2 < size ∧ tangents node.2 = slope x₀ p

/-- Adding to the adjoint at one place. -/
theorem sum_update_add (size : ℕ) {place : ℕ} (hplace : place < size) (adjoints tangents : ℕ → R)
    (more : R) :
    ∑ i ∈ range size, Function.update adjoints place (adjoints place + more) i * tangents i =
      ∑ i ∈ range size, adjoints i * tangents i + more * tangents place := by
  have hpoint (i : ℕ) :
      Function.update adjoints place (adjoints place + more) i * tangents i =
        adjoints i * tangents i + if i = place then more * tangents place else 0 := by
    by_cases hi : i = place
    · subst hi
      simp only [Function.update_self, if_true]
      ring
    · simp [hi]
  rw [sum_congr rfl fun i _ ↦ hpoint i, sum_add_distrib, sum_ite_eq' (range size) place,
    if_pos (mem_range.mpr hplace)]

/-- Assumes: the operands of two related operations have their derivatives. The contributions of an
operation weigh as much as its result: its adjoint times its derivative. -/
theorem sum_scatter {x₀ : R} {size : ℕ} {tangents : ℕ → R} {pairs : List ((R × ℕ) × R[X])}
    {request : Smooth R (R × ℕ)} {request' : Smooth R R[X]}
    (htangents : Tangents x₀ size tangents pairs)
    (hrequest : Smooth.Lift (fun node p ↦ (node, p) ∈ pairs) request request')
    (adjoint : R) (adjoints : ℕ → R) :
    ∑ i ∈ range size, request.scatter adjoint adjoints i * tangents i =
      ∑ i ∈ range size, adjoints i * tangents i + adjoint * slope x₀ (request'.applied C) := by
  cases hrequest with
  | ap0 value => simp [Smooth.scatter, Smooth.applied, slope]
  | ap1 op harg1 =>
    obtain ⟨-, hlt, htangent⟩ := htangents _ _ harg1
    cases op
    rw [Smooth.scatter, sum_update_add size hlt, htangent]
    simp [Smooth.applied, slope]
  | ap2 op harg1 harg2 =>
    obtain ⟨hvalue1, hlt1, htangent1⟩ := htangents _ _ harg1
    obtain ⟨hvalue2, hlt2, htangent2⟩ := htangents _ _ harg2
    cases op with
    | addOp =>
      rw [Smooth.scatter, sum_update_add size hlt2, sum_update_add size hlt1, htangent1, htangent2]
      simp only [Smooth.applied, slope, derivative_add, eval_add]
      ring
    | multiplyOp =>
      rw [Smooth.scatter, sum_update_add size hlt2, sum_update_add size hlt1, htangent1, htangent2,
        hvalue1, hvalue2]
      simp only [Smooth.applied, slope, derivative_mul, eval_add, eval_mul]
      ring

/-- Assumes: the numbers so far have their derivatives. So has the result of an operation, at the
next place. -/
theorem Tangents.applied {x₀ : R} {size : ℕ} {tangents : ℕ → R} {pairs : List ((R × ℕ) × R[X])}
    {request : Smooth R (R × ℕ)} {request' : Smooth R R[X]}
    (htangents : Tangents x₀ size tangents pairs)
    (hrequest : Smooth.Lift (fun node p ↦ (node, p) ∈ pairs) request request') :
    Tangents x₀ (size + 1) (Function.update tangents size (slope x₀ (request'.applied C)))
      (((request.value, size), request'.applied C) :: pairs) := by
  intro node p hmem
  rcases List.mem_cons.mp hmem with heq | hmem
  · obtain ⟨rfl, rfl⟩ := Prod.mk.inj heq
    refine ⟨?_, size.lt_succ_self, Function.update_self ..⟩
    cases hrequest with
    | ap0 value => simp [Smooth.value, Smooth.applied]
    | ap1 op harg1 =>
      cases op
      simp [Smooth.value, Smooth.applied, (htangents _ _ harg1).1]
    | ap2 op harg1 harg2 =>
      cases op <;>
        simp [Smooth.value, Smooth.applied, (htangents _ _ harg1).1, (htangents _ _ harg2).1]
  · obtain ⟨hvalue, hlt, htangent⟩ := htangents node p hmem
    exact ⟨hvalue, hlt.trans size.lt_succ_self, by rwa [Function.update_of_ne hlt.ne]⟩

/-- Assumes: the numbers so far have their derivatives. The adjoints, weighted with them, sum up to
the derivative of the result: the sum stays the same from operation to operation. -/
theorem sum_backward {x₀ : R} {size : ℕ} {tangents : ℕ → R} {pairs : List ((R × ℕ) × R[X])}
    {client : Client R (R × ℕ) (R × ℕ)} {client' : Client R R[X] R[X]}
    (hparallel : Program.Parallel Smooth.Lift pairs client client')
    (htangents : Tangents x₀ size tangents pairs) :
    ∑ i ∈ range size, backward client size i * tangents i = slope x₀ (computed C client') := by
  induction hparallel generalizing size tangents with
  | done hresult =>
    obtain ⟨-, hlt, htangent⟩ := htangents _ _ hresult
    have hseed := sum_update_add size hlt (fun _ ↦ 0) tangents 1
    simp only [zero_add, zero_mul, sum_const_zero, one_mul] at hseed
    simp only [backward, computed]
    rw [hseed, htangent]
  | @call pairs request request' next next' hrequest _ ih =>
    set node := (request.value, size)
    have hnext := ih node (request'.applied C) (htangents.applied hrequest)
    rw [sum_range_succ, Function.update_self] at hnext
    have hkept : ∀ i ∈ range size,
        backward (next node) (size + 1) i *
          Function.update tangents size (slope x₀ (request'.applied C)) i =
        backward (next node) (size + 1) i * tangents i :=
      fun i hi ↦ by rw [Function.update_of_ne (mem_range.mp hi).ne]
    rw [sum_congr rfl hkept] at hnext
    simp only [backward, computed]
    rw [sum_scatter htangents hrequest, hnext]

/-- Assumes: a coroutine that only passes its operands on. In a commutative ring the adjoint of `x`
is the value of the derivative of what the coroutine computes, as a polynomial in `x`. -/
theorem backward_eq_derivative {client : Family R} (hclient : Parametric client) (x₀ : R) :
    backward (client (R × ℕ) (x₀, 0)) 1 0 = (derivative (computed C (client R[X] X))).eval x₀ := by
  have htangents : Tangents x₀ 1 (fun _ ↦ 1) [((x₀, 0), (X : R[X]))] := by
    intro node p hmem
    obtain ⟨rfl, rfl⟩ := Prod.mk.inj (List.mem_singleton.mp hmem)
    exact ⟨eval_X.symm, Nat.one_pos, by simp [slope]⟩
  have hsum := sum_backward (hclient (R × ℕ) R[X] (x₀, 0) X) htangents
  simpa [slope] using hsum

end Derivatives

/-! ### The function `example` -/

theorem parallel_rC {pairs : List (Arg × Arg')} (x : Scalar) :
    Program.Parallel Smooth.Lift pairs (rC x) (rC x) :=
  parallel_ask (.ap0 x)

theorem parallel_rN {pairs : List (Arg × Arg')} {x : Arg} {x' : Arg'} (hx : (x, x') ∈ pairs) :
    Program.Parallel (@Smooth.Lift Scalar Arg Arg') pairs (rN x) (rN x') :=
  parallel_ask (.ap1 .negateOp hx)

theorem parallel_rA {pairs : List (Arg × Arg')} {x y : Arg} {x' y' : Arg'} (hx : (x, x') ∈ pairs)
    (hy : (y, y') ∈ pairs) :
    Program.Parallel (@Smooth.Lift Scalar Arg Arg') pairs (rA x y) (rA x' y') :=
  parallel_ask (.ap2 .addOp hx hy)

theorem parallel_rM {pairs : List (Arg × Arg')} {x y : Arg} {x' y' : Arg'} (hx : (x, x') ∈ pairs)
    (hy : (y, y') ∈ pairs) :
    Program.Parallel (@Smooth.Lift Scalar Arg Arg') pairs (rM x y) (rM x' y') :=
  parallel_ask (.ap2 .multiplyOp hx hy)

section Example

variable [One Scalar] [Neg Scalar]

theorem parallel_exampleLoop {x : Arg} {x' : Arg'} (iters : ℕ) {pairs : List (Arg × Arg')}
    {acc prev : Arg} {acc' prev' : Arg'} (hx : (x, x') ∈ pairs) (hacc : (acc, acc') ∈ pairs)
    (hprev : (prev, prev') ∈ pairs) :
    Program.Parallel (@Smooth.Lift Scalar Arg Arg') pairs (exampleLoop x iters acc prev)
      (exampleLoop x' iters acc' prev') := by
  induction iters generalizing pairs acc prev acc' prev' with
  | zero => exact .done hacc
  | succ iters ih =>
    refine (parallel_rC (-1)).bind fun more₁ _ _ hmore₁ hminusOne ↦ ?_
    refine (parallel_rA (hmore₁ hx) hminusOne).bind fun more₂ _ _ hmore₂ hsum ↦ ?_
    refine (parallel_rN hsum).bind fun more₃ _ _ hmore₃ hnegated ↦ ?_
    have hthree : pairs ⊆ more₃ := fun _ h ↦ hmore₃ (hmore₂ (hmore₁ h))
    refine (parallel_rM (hthree hprev) hnegated).bind fun more₄ _ _ hmore₄ hprev ↦ ?_
    refine (parallel_rA (hmore₄ (hthree hacc)) hprev).bind fun more₅ _ _ hmore₅ hacc ↦ ?_
    exact ih (hmore₅ (hmore₄ (hthree hx))) hacc (hmore₅ hprev)

theorem parametric_exampleClient (iters : ℕ) :
    Parametric fun Arg x ↦ (exampleClient iters x : Client Scalar Arg Arg) := by
  intro Arg Arg' x x'
  refine (parallel_rC 1).bind fun more₁ _ _ hmore₁ hacc ↦ ?_
  refine (parallel_rC 1).bind fun more₂ _ _ hmore₂ hprev ↦ ?_
  exact parallel_exampleLoop iters (hmore₂ (hmore₁ List.mem_cons_self)) (hmore₂ hacc) hprev

end Example

section GeometricSum

open Polynomial Finset

variable {R : Type} [CommRing R]

theorem computed_exampleLoop (iters : ℕ) (acc prev : R[X]) :
    computed C (exampleLoop X iters acc prev) =
      acc + ∑ k ∈ range iters, prev * (1 - X) ^ (k + 1) := by
  induction iters generalizing acc prev with
  | zero => simp [exampleLoop, computed, pure]
  | succ iters ih =>
    have hstep : computed C (exampleLoop X (iters + 1) acc prev : Client R R[X] R[X]) =
        computed C (exampleLoop X iters (acc + prev * -(X + C (-1))) (prev * -(X + C (-1)))) := rfl
    rw [hstep, ih, sum_range_succ']
    have hfactor : -(X + C (-1) : R[X]) = 1 - X := by
      rw [map_neg, C_1]
      ring
    rw [hfactor, zero_add, pow_one, add_assoc, add_comm (prev * (1 - X))]
    refine congrArg₂ _ rfl (congrArg₂ _ (sum_congr rfl fun k _ ↦ ?_) rfl)
    ring

/-- `example` sums up the powers of `1 - x`. -/
theorem computed_exampleClient (iters : ℕ) :
    computed C (exampleClient iters (X : R[X])) = ∑ k ∈ range (iters + 1), (1 - X) ^ k := by
  have hstart : computed C (exampleClient iters (X : R[X])) =
      computed C (exampleLoop X iters (C 1) (C 1) : Client R R[X] R[X]) := rfl
  rw [hstart, computed_exampleLoop, sum_range_succ', C_1, pow_zero, add_comm]
  simp

end GeometricSum

end Libseff.Ad
