import Libseff.Ad.AdPrograms
import Mathlib.Data.Set.Finite.Basic

/-!
# Runs of the programs for differentiation

What holds in every run of `no_alloc.c`, `indirect_prop_t.c` and `naive.c`, for every coroutine that
only passes its operands on and whatever addresses new objects get (`main_runs`): every access is to
an object that is there, the run can be completed, and then the adjoint of `x` has been printed, the
same in all three programs. In a commutative ring it is the derivative (`printed_derivative`).

The variable with the adjoint of `x` is read after the function that it belongs to has returned,
unless it is on the heap (`reads_after_return`). The heap is given back but for one object,
`*result`.
-/

set_option autoImplicit false
set_option relaxedAutoImplicit false

namespace Libseff.Ad

open Foundation Foundation.SystemCalls

variable {Scalar Address : Type}

/-- The programs. -/
inductive Benchmark
  | noAlloc
  | indirectPropT
  | naive
  deriving DecidableEq

/-- Whether the adjoints and the pairs are on the heap. -/
def Benchmark.heap : Benchmark → Bool
  | .noAlloc => false
  | .indirectPropT => false
  | .naive => true

/-! ### Addresses for new objects -/

section Sparse

variable [DecidableEq Address] {memory after : Memory Scalar Address}

omit [DecidableEq Address] in
/-- There are finitely many objects. -/
def Memory.Sparse (memory : Memory Scalar Address) : Prop :=
  {address | memory.doubles address ≠ none}.Finite ∧
    {address | memory.props address ≠ none}.Finite

theorem finite_update {Value : Type} {contents : Address → Option Value}
    (hfinite : {address | contents address ≠ none}.Finite) (address : Address)
    (content : Option Value) :
    {other | Function.update contents address content other ≠ none}.Finite := by
  refine (hfinite.insert address).subset fun other hother ↦ ?_
  by_cases heq : other = address
  · exact Set.mem_insert_iff.mpr (.inl heq)
  · exact Set.mem_insert_iff.mpr (.inr (by simpa [heq] using hother))

/-- An access adds at most one object. -/
theorem Memory.Sparse.does (hsparse : memory.Sparse) {request : Access Scalar Address}
    {answer : request.Answer} (hdoes : request.Does memory answer after) : after.Sparse := by
  have hleft : {address | memory.doubles address ≠ none ∧ address ∉ memory.left}.Finite :=
    hsparse.1.subset fun _ h ↦ h.1
  cases request with
  | newDouble => exact hdoes.2 ▸ ⟨finite_update hsparse.1 _ _, hsparse.2⟩
  | newProp => exact hdoes.2 ▸ ⟨hsparse.1, finite_update hsparse.2 _ _⟩
  | storeDouble | releaseDouble => exact hdoes ▸ ⟨finite_update hsparse.1 _ _, hsparse.2⟩
  | storeProp | releaseProp => exact hdoes ▸ ⟨hsparse.1, finite_update hsparse.2 _ _⟩
  | loadDouble | loadProp | «global» => exact hdoes.2 ▸ hsparse
  | setGlobal name => cases name <;> exact hdoes ▸ hsparse
  | leave | print => exact hdoes ▸ hsparse
  | deleteStack =>
    obtain rfl := hdoes
    exact ⟨hleft.subset fun address h ↦ by simpa [and_comm] using h, hsparse.2⟩

/-- Assumes: a valid access. It can be done. -/
theorem Access.Valid.exists_does [Infinite Address] {request : Access Scalar Address}
    (hvalid : request.Valid memory) (hsparse : memory.Sparse) :
    ∃ answer after, request.Does memory answer after := by
  cases request with
  | newDouble =>
    obtain ⟨address, haddress⟩ := hsparse.1.exists_notMem
    exact ⟨address, _, by simpa using haddress, rfl⟩
  | newProp =>
    obtain ⟨address, haddress⟩ := hsparse.2.exists_notMem
    exact ⟨address, _, by simpa using haddress, rfl⟩
  | loadDouble | loadProp =>
    obtain ⟨value, hvalue⟩ := hvalid
    exact ⟨value, _, hvalue, rfl⟩
  | «global» =>
    obtain ⟨address, haddress⟩ := Option.ne_none_iff_exists'.mp hvalid
    exact ⟨address, _, haddress, rfl⟩
  | setGlobal name => cases name <;> exact ⟨(), _, rfl⟩
  | storeDouble | releaseDouble | storeProp | releaseProp | leave | deleteStack | print =>
    exact ⟨(), _, rfl⟩

end Sparse

section Runs

variable [DecidableEq Address] [Zero Scalar] [One Scalar] [Neg Scalar] [Add Scalar] [Mul Scalar]

/-- `main`. -/
def Benchmark.main (benchmark : Benchmark) (x₀ : Scalar) (client : Family Scalar) :
    MemoryCode Scalar Address Unit :=
  match benchmark with
  | .noAlloc => Ad.noAlloc.main x₀ (client (PropT Scalar Address))
  | .indirectPropT => Ad.indirectPropT.main x₀ (client Address)
  | .naive => naiveMain x₀ (client (PropT Scalar Address))

/-- The memory before `main`. -/
def Benchmark.Starts (benchmark : Benchmark) (memory : Memory Scalar Address) : Prop :=
  match benchmark with
  | .noAlloc | .indirectPropT => StartsInBlocks memory
  | .naive => StartsOnHeap memory

/-- The runs of a program. -/
def Benchmark.system (benchmark : Benchmark) (x₀ : Scalar) (client : Family Scalar) :
    TransitionSystem (Activity (Access Scalar Address) Access.Answer Unit Unit ×
      Memory Scalar Address) (Label (Access Scalar Address) Access.Answer Empty) :=
  (benchmark.main x₀ client).once.system memoryOf () benchmark.Starts

variable {client : Family Scalar} {benchmark : Benchmark} {x₀ : Scalar}
  {memory : Memory Scalar Address}
  {labels : List (Label (Access Scalar Address) Access.Answer Empty)}
  {reached : Activity (Access Scalar Address) Access.Answer Unit Unit × Memory Scalar Address}

theorem Benchmark.ensures_main (hclient : Parametric client) (hstart : benchmark.Starts memory) :
    Ensures benchmark.heap
      (fun after _ ↦ Finished benchmark.heap (backward (client (Scalar × ℕ) (x₀, 0)) 1 0) after)
      (benchmark.main x₀ client) memory := by
  cases benchmark with
  | noAlloc => exact noAlloc_lawful.ensures_main hclient x₀ hstart
  | indirectPropT => exact indirectPropT_lawful.ensures_main hclient x₀ hstart
  | naive => exact ensures_naiveMain hclient x₀ hstart

omit [Zero Scalar] [One Scalar] [Neg Scalar] [Add Scalar] [Mul Scalar] in
theorem Benchmark.sparse (hstart : benchmark.Starts memory) : memory.Sparse := by
  have hblocks (h : StartsInBlocks memory) : memory.Sparse := by
    obtain ⟨x, r, -, -, -, hprops⟩ := h.globals
    have hnone :
        {address : Address | (none : Option (Option (PropT Scalar Address))) ≠ none}.Finite :=
      by simp
    refine ⟨by simp [h.doubles], ?_⟩
    rw [hprops]
    exact finite_update (finite_update hnone x _) r _
  cases benchmark with
  | noAlloc => exact hblocks hstart
  | indirectPropT => exact hblocks hstart
  | naive => exact ⟨by simp [StartsOnHeap.doubles hstart], by simp [StartsOnHeap.props hstart]⟩

/-- The conditions of `ensures_main` hold at the end of every run. -/
theorem Benchmark.meets_of_run (hclient : Parametric client)
    (hrun : (benchmark.system x₀ client).Run (fun _ _ ↦ True) labels reached) :
    reached.1.Meets (fun history request ↦ Allowed benchmark.heap history.2 request)
      (fun history _ ↦
        Finished benchmark.heap (backward (client (Scalar × ℕ) (x₀, 0)) 1 0) history.2)
      (labels, reached.2) :=
  Program.meets_of_run (fun _ _ ↦ True) hrun fun _ hstart ↦ ensures_main hclient hstart []

/-- Every run can be completed. -/
theorem Benchmark.exists_returned [Infinite Address] (hclient : Parametric client)
    (hrun : (benchmark.system x₀ client).Run (fun _ _ ↦ True) labels reached) :
    ∃ more memory, (benchmark.system x₀ client).Run (fun _ _ ↦ True) (labels ++ more)
      (.returned (), memory) := by
  have hensures : ∀ memory : Memory Scalar Address, benchmark.Starts memory →
      (benchmark.main x₀ client).Ensures memoryOf (fun _ _ ↦ True)
        (fun history request ↦ Allowed benchmark.heap history.2 request ∧ history.2.Sparse)
        (fun history _ ↦ Finished benchmark.heap
          (backward (client (Scalar × ℕ) (x₀, 0)) 1 0) history.2 ∧ history.2.Sparse)
        ([], memory) := by
    intro memory hstart
    exact Program.Ensures.and_invariant
      (fun history : History (Access Scalar Address) Access.Answer (Memory Scalar Address) Empty ↦
        history.2.Sparse)
      (fun _ _ _ hhappens ↦ isEmptyElim hhappens.choose)
      (fun _ _ _ _ hsparse hdoes ↦ hsparse.does hdoes)
      (ensures_main hclient hstart []) (sparse hstart)
  obtain ⟨more, ⟨⟩, memory, hreturned⟩ := Program.exists_returned_of_run (fun _ _ ↦ True)
    (fun history request hmay ↦ by
      obtain ⟨answer, after, hdoes⟩ := hmay.1.1.exists_does hmay.2
      exact ⟨answer, after, hdoes, trivial⟩) hrun hensures
  exact ⟨more, memory, hreturned⟩

/-- A run starts. -/
theorem Benchmark.exists_start (hstart : benchmark.Starts memory) :
    ∃ activity, (benchmark.system x₀ client).Run (fun _ _ ↦ True) [] (activity, memory) := by
  obtain ⟨activity, hresumes⟩ := exists_resumes_once (benchmark.main x₀ client).once
    (benchmark.main x₀ client)
  exact ⟨activity, .start ⟨hresumes, hstart⟩⟩

/-- Assumes: a coroutine that only passes its operands on. In every run every access is to an object
that is there, and to none after its lifetime but the adjoint of `x`, where this is a variable. The
run can be completed; then the adjoint of `x` has been printed, and all objects of the frames have
been released. -/
theorem main_runs [Infinite Address] (hclient : Parametric client)
    (hrun : (benchmark.system x₀ client).Run (fun _ _ ↦ True) labels reached) :
    reached.1.Meets (fun history request ↦ Allowed benchmark.heap history.2 request)
        (fun history _ ↦
          Finished benchmark.heap (backward (client (Scalar × ℕ) (x₀, 0)) 1 0) history.2)
        (labels, reached.2) ∧
      ∃ more memory, (benchmark.system x₀ client).Run (fun _ _ ↦ True) (labels ++ more)
        (.returned (), memory) :=
  ⟨Benchmark.meets_of_run hclient hrun, Benchmark.exists_returned hclient hrun⟩

/-- No objects. -/
def noObjects : Memory ℤ ℕ := ⟨fun _ ↦ none, fun _ ↦ none, fun _ ↦ none, [], []⟩

omit [DecidableEq Address] [Zero Scalar] [One Scalar] [Neg Scalar] [Add Scalar] [Mul Scalar] in
theorem startsOnHeap_noObjects : StartsOnHeap noObjects := ⟨rfl, rfl, rfl, rfl⟩

/-- Two rounds of the loop of `naive.c`, at 3: there is a run to the end, and in it the adjoint has
been printed. -/
theorem main_runs_naive : ∃ labels memory,
    (Benchmark.naive.system (3 : ℤ) fun _ x ↦ exampleClient 2 x).Run (fun _ _ ↦ True) labels
        (.returned (), memory) ∧
      Finished true (backward (exampleClient 2 ((3 : ℤ), 0)) 1 0) (memory : Memory ℤ ℕ) := by
  obtain ⟨activity, hstart⟩ : ∃ activity, (Benchmark.naive.system (3 : ℤ) fun _ x ↦
      exampleClient 2 x).Run (fun _ _ ↦ True) [] (activity, noObjects) :=
    Benchmark.exists_start startsOnHeap_noObjects
  obtain ⟨more, memory, hreturned⟩ := (main_runs (parametric_exampleClient 2) hstart).2
  exact ⟨_, memory, hreturned, (main_runs (parametric_exampleClient 2) hreturned).1⟩

/-! ### The adjoint of `x` after the coroutine has returned -/

omit [Zero Scalar] [One Scalar] [Neg Scalar] [Add Scalar] [Mul Scalar] in
/-- What has been left has been left by an access. -/
theorem left_of_does {history : History (Access Scalar Address) Access.Answer
      (Memory Scalar Address) Empty} {request : Access Scalar Address} {answer : request.Answer}
    (hleft : ∀ address ∈ history.2.left, .answer (.leave address) () ∈ history.1)
    (hdoes : request.Does history.2 answer memory) :
    ∀ address ∈ memory.left,
      .answer (.leave address) () ∈ history.1 ++ [Label.answer request answer] := by
  have hkept (h : memory.left = history.2.left) : ∀ address ∈ memory.left,
      .answer (.leave address) () ∈ history.1 ++ [Label.answer request answer] :=
    fun address hmem ↦ List.mem_append_left _ (hleft address (h ▸ hmem))
  cases request with
  | newDouble | newProp | loadDouble | loadProp | «global» => exact hkept (hdoes.2 ▸ rfl)
  | storeDouble | releaseDouble | storeProp | releaseProp | print => exact hkept (hdoes ▸ rfl)
  | setGlobal name => cases name <;> exact hkept (hdoes ▸ rfl)
  | leave address =>
    obtain rfl := hdoes
    intro other hmem
    rcases List.mem_cons.mp hmem with rfl | hmem
    · exact List.mem_append_right _ List.mem_cons_self
    · exact List.mem_append_left _ (hleft other hmem)
  | deleteStack =>
    obtain rfl := hdoes
    exact fun address hmem ↦ absurd hmem List.not_mem_nil

/-- The last labels load the pair of `x`, read and print the adjoint that it points to, and delete
the stack; the function that this adjoint is a variable of has returned before. -/
def ReadsAfterReturn (x₀ : Scalar)
    (labels : List (Label (Access Scalar Address) Access.Answer Empty)) : Prop :=
  ∃ before x dx value,
    labels = before ++ [.answer (.global .x) x, .answer (.loadProp x) ⟨x₀, dx⟩,
      .answer (.loadDouble dx) value, .answer (.print value) (), .answer .deleteStack ()] ∧
    .answer (.leave dx) () ∈ before

/-- `main` reads the adjoint of `x` when `example` has returned. -/
theorem Variant.Lawful.ensures_readsAfterReturn {Arg : Type} {variant : Variant Scalar Address Arg}
    (lawful : variant.Lawful) (hclient : Parametric client) (hstart : StartsInBlocks memory) :
    (variant.main x₀ (client Arg)).Ensures memoryOf (fun _ _ ↦ True) (fun _ _ ↦ True)
      (fun history _ ↦ ReadsAfterReturn x₀ history.1) ([], memory) := by
  rw [main_eq]
  refine ensures_bind ?_
  have hexample := Program.Ensures.and_invariant
    (fun history ↦ ∀ address ∈ history.2.left, .answer (.leave address) () ∈ history.1)
    (fun _ _ _ hhappens ↦ isEmptyElim hhappens.choose)
    (fun _ _ _ _ hleft hdoes ↦ left_of_does hleft hdoes)
    (lawful.ensures_example hclient x₀ hstart []) (by simp [hstart.left])
  refine (hexample.mono_may fun _ _ _ ↦ trivial).mono ?_
  rintro history ⟨⟩ ⟨⟨dx, hhandled⟩, hleft⟩
  obtain ⟨x, r, p, hx, -, hprops, hne⟩ := hhandled.globals
  have hpair : history.2.props x = some (some ⟨x₀, dx⟩) := by simp [hprops, hne]
  have hleave : .answer (.leave dx) () ∈ history.1 := hleft dx (by simp [hhandled.left])
  refine ensures_ask_iff.mpr ⟨trivial, ?_⟩
  rintro x' _ ⟨hx', rfl⟩ -
  obtain rfl : x = x' := Option.some_inj.mp (hx.symm.trans hx')
  refine ensures_ask_iff.mpr ⟨trivial, ?_⟩
  rintro pair _ ⟨hpair', rfl⟩ -
  obtain rfl : ⟨x₀, dx⟩ = pair := by simpa using hpair.symm.trans hpair'
  refine ensures_ask_iff.mpr ⟨trivial, fun value _ _ _ ↦ ?_⟩
  refine ensures_ask_iff.mpr ⟨trivial, fun _ _ _ _ ↦ ?_⟩
  rw [← Program.bind_done (ask Access.Answer .deleteStack)]
  refine ensures_ask_iff.mpr ⟨trivial, fun _ _ _ _ ↦ ensures_done_iff.mpr ?_⟩
  exact ⟨history.1, x, dx, value, by simp, hleave⟩

/-- Assumes: a coroutine that only passes its operands on. In every run to the end of a program
whose adjoints are variables of blocks, the adjoint of `x` is read after the function that it is a
variable of has returned, and before its stack is deleted. -/
theorem reads_after_return (hclient : Parametric client) (hheap : benchmark.heap = false)
    (hrun : (benchmark.system x₀ client).Run (fun _ _ ↦ True) labels (.returned (), memory)) :
    ReadsAfterReturn x₀ labels := by
  have hmeets : Activity.Meets (fun _ _ ↦ True) (fun history _ ↦ ReadsAfterReturn x₀ history.1)
      (labels, memory)
      (.returned () : Activity (Access Scalar Address) Access.Answer Unit Unit) := by
    refine Program.meets_of_run (fun _ _ ↦ True) hrun fun _ hstart ↦ ?_
    cases benchmark with
    | noAlloc => exact noAlloc_lawful.ensures_readsAfterReturn hclient hstart
    | indirectPropT => exact indirectPropT_lawful.ensures_readsAfterReturn hclient hstart
    | naive => exact Bool.noConfusion hheap
  exact hmeets

/-- The two global variables. -/
def twoGlobals : Memory ℤ ℕ where
  doubles _ := none
  props := Function.update (Function.update (fun _ ↦ none) 0 (some none)) 1 (some none)
  globals
    | .x => some 0
    | .result => some 1
  left := []
  printed := []

omit [DecidableEq Address] [Zero Scalar] [One Scalar] [Neg Scalar] [Add Scalar] [Mul Scalar] in
theorem startsInBlocks_twoGlobals : StartsInBlocks twoGlobals :=
  ⟨⟨0, 1, Nat.zero_ne_one, rfl, rfl, rfl⟩, rfl, rfl, rfl⟩

theorem reads_after_return_noAlloc : ∃ labels memory,
    (Benchmark.noAlloc.system (3 : ℤ) fun _ x ↦ exampleClient 2 x).Run (fun _ _ ↦ True) labels
        (.returned (), (memory : Memory ℤ ℕ)) ∧ ReadsAfterReturn 3 labels := by
  obtain ⟨activity, hstart⟩ : ∃ activity, (Benchmark.noAlloc.system (3 : ℤ) fun _ x ↦
      exampleClient 2 x).Run (fun _ _ ↦ True) [] (activity, twoGlobals) :=
    Benchmark.exists_start startsInBlocks_twoGlobals
  obtain ⟨more, memory, hreturned⟩ :=
    Benchmark.exists_returned (parametric_exampleClient 2) hstart
  exact ⟨_, memory, hreturned, reads_after_return (parametric_exampleClient 2) rfl hreturned⟩

end Runs

/-! ### Derivatives -/

section Derivatives

open Polynomial

variable {R : Type} [CommRing R] [DecidableEq Address] {benchmark : Benchmark} {x₀ : R}
  {memory : Memory R Address} {labels : List (Label (Access R Address) Access.Answer Empty)}

/-- Assumes: a coroutine that only passes its operands on. In every run to the end, in a commutative
ring, the derivative of what the coroutine computes has been printed. -/
theorem printed_derivative {client : Family R} (hclient : Parametric client)
    (hrun : (benchmark.system x₀ client).Run (fun _ _ ↦ True) labels (.returned (), memory)) :
    memory.printed = [(derivative (computed C (client R[X] X))).eval x₀] := by
  have hfinished := Benchmark.meets_of_run hclient hrun
  rw [hfinished.printed, backward_eq_derivative hclient]

/-- Two rounds of the loop of `naive.c`, at 3: the derivative of `1 + (1 - x) + (1 - x) ^ 2` is
printed. -/
theorem printed_derivative_naive : ∃ labels memory,
    (Benchmark.naive.system (3 : ℤ) fun _ x ↦ exampleClient 2 x).Run (fun _ _ ↦ True) labels
        (.returned (), (memory : Memory ℤ ℕ)) ∧ memory.printed = [3] := by
  obtain ⟨activity, hstart⟩ : ∃ activity, (Benchmark.naive.system (3 : ℤ) fun _ x ↦
      exampleClient 2 x).Run (fun _ _ ↦ True) [] (activity, noObjects) :=
    Benchmark.exists_start startsOnHeap_noObjects
  obtain ⟨more, memory, hreturned⟩ :=
    Benchmark.exists_returned (parametric_exampleClient 2) hstart
  refine ⟨_, memory, hreturned, ?_⟩
  have hprinted := printed_derivative (parametric_exampleClient 2) hreturned
  rw [hprinted, computed_exampleClient]
  norm_num [Finset.sum_range_succ, derivative_pow]

/-- In every run to the end of the programs with `example`, in a commutative ring, the derivative of
the sum of the powers of `1 - x` has been printed. -/
theorem printed_exampleClient {iters : ℕ}
    (hrun : (benchmark.system x₀ fun _ x ↦ exampleClient iters x).Run (fun _ _ ↦ True) labels
      (.returned (), memory)) :
    memory.printed =
      [(derivative (∑ k ∈ Finset.range (iters + 1), (1 - X : R[X]) ^ k)).eval x₀] := by
  have hfinished := Benchmark.meets_of_run (parametric_exampleClient iters) hrun
  rw [hfinished.printed, backward_eq_derivative (parametric_exampleClient iters),
    computed_exampleClient]

end Derivatives

end Libseff.Ad
