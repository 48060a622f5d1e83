import Libseff.Skynet.SkynetProtocol

/-!
# The result of Skynet

What the protocol of the promises gives, for every interleaving of any number of workers. Nothing
overflows where the depth is not too great (`skynet_bounds`). The waker of a task that sleeps is
never lost, and never used twice, and not all tasks sleep (`skynet_wakers`). No task uses its
promise, which is in the frame of its parent, after the parent has gone on behind it
(`skynet_lifetime`). No worker is ever stuck (`exists_step_of_run`).
-/

set_option autoImplicit false
set_option relaxedAutoImplicit false

namespace Libseff.Skynet

open Scheduler

variable {Task : Type*}

/-! ### The layers of the tree -/

theorem lastLayer_eq_pow (depth : ℕ) : lastLayer depth = branchingFactor ^ (depth - 1) := by
  fun_induction lastLayer depth with
  | case1 => rfl
  | case2 => rfl
  | case3 depth ih =>
    rw [ih, ← pow_succ]
    rfl

/-- The numbers in a layer, the root being layer 0. -/
def InLayer (layer num : ℕ) : Prop :=
  branchingFactor ^ layer ≤ num ∧ num < 2 * branchingFactor ^ layer

theorem inLayer_root : InLayer 0 1 := ⟨le_rfl, by decide⟩

theorem InLayer.child {layer num i : ℕ} (h : InLayer layer num) (hi : i < branchingFactor) :
    InLayer (layer + 1) (child num i) := by
  obtain ⟨hle, hlt⟩ := h
  unfold InLayer Skynet.child branchingFactor at *
  rw [pow_succ]
  omega

/-- A node above the last layer is in the layers before it. -/
theorem InLayer.lt_of_lt {layer depth num : ℕ} (h : InLayer layer num)
    (hlt : num < lastLayer depth) : layer < depth - 1 := by
  rw [lastLayer_eq_pow] at hlt
  exact (Nat.pow_lt_pow_iff_right (by decide)).mp (lt_of_le_of_lt h.1 hlt)

/-- Twice the sum of the results below a node, which are successive numbers. -/
theorem two_mul_sumBelow {layer layers num : ℕ} (h : InLayer layer num) :
    2 * sumBelow (branchingFactor ^ (layer + layers)) layers num =
      branchingFactor ^ layers * (2 * ((num : ℤ) * branchingFactor ^ layers -
        branchingFactor ^ (layer + layers)) + branchingFactor ^ layers - 1) := by
  induction layers generalizing layer num with
  | zero =>
    simp only [sumBelow, treeSum, pow_zero, add_zero]
    push_cast
    ring
  | succ layers ih =>
    have hinner : ¬ branchingFactor ^ (layer + (layers + 1)) ≤ num := by
      have hpow : 2 * branchingFactor ^ layer ≤ branchingFactor ^ (layer + (layers + 1)) := by
        rw [pow_add, pow_succ]
        have hpos : 0 < branchingFactor ^ layers := Nat.pow_pos (by decide)
        unfold branchingFactor at *
        nlinarith [Nat.pow_pos (n := layer) (show 0 < 10 by decide)]
      have hlt := h.2
      omega
    rw [sumBelow, treeSum, if_neg hinner, zero_add, Finset.mul_sum]
    have hchildren : ∀ i ∈ Finset.range branchingFactor,
        2 * sumBelow (branchingFactor ^ (layer + (layers + 1))) layers (child num i) =
          branchingFactor ^ layers * (2 * ((child num i : ℤ) * branchingFactor ^ layers -
            branchingFactor ^ (layer + (layers + 1))) + branchingFactor ^ layers - 1) := by
      intro i hi
      have hsum : layer + (layers + 1) = layer + 1 + layers := by ring
      rw [hsum]
      exact ih (h.child (Finset.mem_range.mp hi))
    refine (Finset.sum_congr rfl hchildren).trans ?_
    simp only [branchingFactor, child, Finset.sum_range_succ, Finset.sum_range_zero]
    push_cast
    ring

theorem sumBelow_add {lastLayer layers num : ℕ}
    (hlayers : lastLayer ≤ num * branchingFactor ^ layers) (more : ℕ) :
    sumBelow lastLayer (layers + more) num = sumBelow lastLayer layers num := by
  induction more with
  | zero => rfl
  | succ more ih =>
    rw [← ih]
    refine treeSum_succ (hlayers.trans (Nat.mul_le_mul_left _ ?_))
    exact Nat.pow_le_pow_right (by decide) (Nat.le_add_right _ _)

/-- Twice the result of a node. -/
theorem two_mul_nodeResult {layer layers num : ℕ} (h : InLayer layer num) :
    2 * nodeResult (branchingFactor ^ (layer + layers)) num =
      branchingFactor ^ layers * (2 * ((num : ℤ) * branchingFactor ^ layers -
        branchingFactor ^ (layer + layers)) + branchingFactor ^ layers - 1) := by
  have hlt : layers < branchingFactor ^ (layer + layers) :=
    lt_of_lt_of_le (Nat.lt_pow_self (by decide)) (Nat.pow_le_pow_right (by decide)
      (Nat.le_add_left _ _))
  obtain ⟨more, hmore⟩ := Nat.exists_eq_add_of_le hlt.le
  have henough : branchingFactor ^ (layer + layers) ≤ num * branchingFactor ^ layers := by
    rw [pow_add]
    exact Nat.mul_le_mul_right _ h.1
  have hadd := sumBelow_add henough more
  rw [← hmore] at hadd
  rw [nodeResult, hadd]
  exact two_mul_sumBelow h

/-- The result of the root: the sum of all numbers below that of the nodes in the last layer. -/
theorem two_mul_nodeResult_root (depth : ℕ) :
    2 * nodeResult (lastLayer depth) 1 = (lastLayer depth : ℤ) * (lastLayer depth - 1) := by
  have hpow : lastLayer depth = branchingFactor ^ (0 + (depth - 1)) := by
    rw [Nat.zero_add, lastLayer_eq_pow]
  rw [hpow, two_mul_nodeResult inLayer_root, Nat.zero_add]
  push_cast
  ring

/-- What a node computes is not negative, and not too great. -/
theorem nodeResult_mem {layer depth num : ℕ} (h : InLayer layer num) (hlayer : layer ≤ depth - 1) :
    0 ≤ nodeResult (lastLayer depth) num ∧
      nodeResult (lastLayer depth) num ≤ 2 * (lastLayer depth : ℤ) ^ 2 := by
  obtain ⟨layers, hlayers⟩ := Nat.exists_eq_add_of_le hlayer
  have hpow : lastLayer depth = branchingFactor ^ (layer + layers) := by
    rw [lastLayer_eq_pow, hlayers]
  have hresult : 2 * nodeResult (branchingFactor ^ (layer + layers)) num = _ :=
    two_mul_nodeResult h
  obtain ⟨hle, hlt⟩ := h
  have hmul : branchingFactor ^ (layer + layers) =
      branchingFactor ^ layer * branchingFactor ^ layers := pow_add ..
  rw [hpow]
  generalize hresultEq : nodeResult (branchingFactor ^ (layer + layers)) num = result at *
  have hpos : 1 ≤ branchingFactor ^ layers := Nat.one_le_pow _ _ (by decide)
  have hlower : branchingFactor ^ (layer + layers) ≤ num * branchingFactor ^ layers := by
    rw [hmul]
    exact Nat.mul_le_mul_right _ hle
  have hupper : num * branchingFactor ^ layers ≤ 2 * branchingFactor ^ (layer + layers) := by
    rw [hmul, ← mul_assoc]
    exact Nat.mul_le_mul_right _ hlt.le
  have hleaves : branchingFactor ^ layers ≤ branchingFactor ^ (layer + layers) :=
    Nat.pow_le_pow_right (by decide) (Nat.le_add_left _ _)
  push_cast at *
  zify at hpos hlower hupper hleaves
  generalize (branchingFactor : ℤ) ^ (layer + layers) = last at *
  generalize (branchingFactor : ℤ) ^ layers = leaves at *
  generalize (num : ℤ) * leaves = start at *
  constructor
  · have hfactor : 0 ≤ leaves * (2 * (start - last) + leaves - 1) :=
      mul_nonneg (by linarith) (by linarith)
    linarith
  · nlinarith

/-! ### The nodes of the tasks -/

theorem Code.num_of_advance {lastLayer : ℕ} {code after : Code Task}
    {before after' : Promises Task}
    (h : code.advance lastLayer before = some (after, after')) : after.num = code.num := by
  obtain ⟨num, pc⟩ := code
  cases pc with
  | start =>
    simp only [Code.advance] at h
    split_ifs at h <;> rw [← (Prod.mk.inj (Option.some.inj h)).1]
  | forkLoop i =>
    simp only [Code.advance] at h
    split_ifs at h <;> rw [← (Prod.mk.inj (Option.some.inj h)).1]
  | awaitLoop i sum =>
    simp only [Code.advance] at h
    split_ifs at h <;> rw [← (Prod.mk.inj (Option.some.inj h)).1]
  | await i sum step =>
    obtain ⟨next, -, heq⟩ := Option.map_eq_some_iff.mp h
    rw [← (Prod.mk.inj heq).1]
  | readResult i sum => rw [← (Prod.mk.inj (Option.some.inj h)).1]
  | fulfill result step =>
    obtain ⟨next, -, heq⟩ := Option.map_eq_some_iff.mp h
    rw [← (Prod.mk.inj heq).1]
  | _ => exact absurd h (by simp [Code.advance])

theorem Code.num_of_request {code after : Code Task} {request : Request Task Unit Unit}
    (h : code.request = some (request, after)) : after.num = code.num := by
  obtain ⟨num, pc⟩ := code
  cases pc with
  | fork i => rw [← (Prod.mk.inj (Option.some.inj h)).2]
  | ret => rw [← (Prod.mk.inj (Option.some.inj h)).2]
  | await i sum step =>
    cases step with
    | sleep => rw [← (Prod.mk.inj (Option.some.inj h)).2]
    | _ => exact absurd h (by simp [Code.request])
  | fulfill result step =>
    cases step with
    | wake waker => rw [← (Prod.mk.inj (Option.some.inj h)).2]
    | _ => exact absurd h (by simp [Code.request])
  | _ => exact absurd h (by simp [Code.request])

theorem Code.num_of_mustSleep {task : Task} {code after : Code Task}
    {before after' : Promises Task} (h : code.mustSleep task before = some (after, after')) :
    after.num = code.num := by
  obtain ⟨num, pc⟩ := code
  cases pc with
  | mustSleep i sum step =>
    obtain ⟨next, -, heq⟩ := Option.map_eq_some_iff.mp h
    rw [← (Prod.mk.inj heq).1]
  | _ => exact absurd h (by simp [Code.mustSleep])

theorem Code.num_of_answer {code after : Code Task} {before after' : Promises Task}
    {asleep : Bool} (h : code.answer before = some (asleep, after, after')) :
    after.num = code.num := by
  obtain ⟨num, pc⟩ := code
  cases pc with
  | mustSleep i sum step =>
    cases step with
    | release state =>
      obtain ⟨-, heq⟩ := Prod.mk.inj (Option.some.inj h)
      rw [← (Prod.mk.inj heq).1]
    | _ => exact absurd h (by simp [Code.answer])
  | _ => exact absurd h (by simp [Code.answer])

/-- The nodes of the tasks are in the layers of the tree. -/
def Layered (depth : ℕ) (s : TaskState Task (Code Task) (Promises Task)) : Prop :=
  ∀ task code, s.codes task = some code → ∃ layer ≤ depth - 1, InLayer layer code.num

namespace Layered

variable {depth : ℕ} {s next : TaskState Task (Code Task) (Promises Task)} [DecidableEq Task]

theorem update (h : Layered depth s) {task : Task} {code after : Code Task}
    (hcode : s.codes task = some code) (hnum : after.num = code.num)
    (hcodes : next.codes = Function.update s.codes task (some after)) : Layered depth next := by
  intro other current hother
  rw [hcodes] at hother
  by_cases heq : other = task
  · subst heq
    rw [Function.update_self] at hother
    rw [← Option.some.inj hother, hnum]
    exact h other code hcode
  · rw [Function.update_of_ne heq] at hother
    exact h other current hother

/-- A node that creates a task for a child is above the last layer. -/
theorem move (h : Layered depth s) (hprotocol : InProtocol (lastLayer depth) s)
    (hmove : (skynet Task (lastLayer depth)).Move s next) : Layered depth next := by
  obtain ⟨nodes, created, hprotocol⟩ := hprotocol
  cases hmove with
  | idle => exact h
  | advance hawake hcode hadvance => exact h.update hcode (Code.num_of_advance hadvance) rfl
  | mustSleep hawake hcode hmustSleep => exact h.update hcode (Code.num_of_mustSleep hmustSleep) rfl
  | request hawake hcode hrequest hwoken => exact h.update hcode (Code.num_of_request hrequest) rfl
  | answer hawake hcode hanswer => exact h.update hcode (Code.num_of_answer hanswer) rfl
  | @create task fresh code start after hawake hcode hfresh hforked =>
    obtain ⟨num, pc⟩ := code
    cases pc with
    | creating i =>
      obtain ⟨rfl, rfl⟩ := Prod.mk.inj (Option.some.inj hforked)
      have hgood : num < lastLayer depth ∧ i < branchingFactor :=
        hprotocol.good num task _ ((hprotocol.codes task num _).mp hcode)
      obtain ⟨layer, -, hlayer⟩ := h task _ hcode
      intro other current hother
      by_cases heq : other = fresh
      · subst heq
        simp only [Function.update_self] at hother
        rw [← Option.some.inj hother]
        exact ⟨layer + 1, hlayer.lt_of_lt hgood.1, hlayer.child hgood.2⟩
      · simp only [Function.update_of_ne heq] at hother
        by_cases htask : other = task
        · subst htask
          rw [Function.update_self] at hother
          rw [← Option.some.inj hother]
          exact (h other _ hcode : ∃ layer ≤ depth - 1, InLayer layer num)
        · rw [Function.update_of_ne htask] at hother
          exact h other current hother
    | _ => exact absurd hforked (by simp [skynet, Code.forked])
  | @finalize task code hawake hcode hstatus =>
    intro other current hother
    by_cases heq : other = task
    · subst heq
      simp at hother
    · simp only [Function.update_of_ne heq] at hother
      exact h other current hother

end Layered

theorem layered_of_run [DecidableEq Task] {n : ℕ} [NeZero n] {depth : ℕ}
    {labels : List (ProgramLabel n Task Unit Unit)}
    {s : ProgramState n Task Unit Unit (Code Task) (Promises Task)}
    (hrun : (bench n Task depth).Run (fun _ _ ↦ True) labels s) : Layered depth s.tasks := by
  induction hrun with
  | @start s h =>
    obtain ⟨⟨root, contents, -, hcodes, -⟩, -⟩ := h
    intro task code hcode
    have hroot : Function.update (fun _ ↦ none) root (some ⟨1, .start⟩) task = some code :=
      hcodes ▸ hcode
    by_cases heq : task = root
    · subst heq
      rw [Function.update_self] at hroot
      rw [← Option.some.inj hroot]
      exact ⟨0, Nat.zero_le _, inLayer_root⟩
    · rw [Function.update_of_ne heq] at hroot
      exact absurd hroot (by simp)
  | step hrun _ hstep ih =>
    obtain ⟨hprotocol, live, hlive, hcoherent⟩ := inProtocol_of_run hrun
    exact ih.move hprotocol (ProgramStep.move hstep hlive hcoherent)

/-! ### The runs -/

/-- A start of `bench(n_workers, depth)`. -/
def start (n : ℕ) [NeZero n] : ProgramState n ℕ Unit Unit (Code ℕ) (Promises ℕ) where
  scheduler := { memory := scheffSchedule scheffInit 0, workers := fun _ ↦ .pop }
  codes := Function.update (fun _ ↦ none) 0 (some ⟨1, .start⟩)
  shared := fun _ ↦ initPromise ⟨false, .emptyPromise, 0, 0⟩ 1

theorem initial_start (n : ℕ) [NeZero n] (depth : ℕ) :
    (bench n ℕ depth).initial (start n) := by
  refine ⟨⟨0, fun _ ↦ initPromise ⟨false, .emptyPromise, 0, 0⟩ 1, rfl, rfl, ?_⟩,
    .schedule .init rfl, fun _ ↦ rfl, fun task ↦ ?_, fun task code hcode ↦ ?_⟩
  · exact (Function.update_eq_self 1 _).symm
  · by_cases heq : task = 0
    · subst heq
      rfl
    · simp [start, scheffSchedule, scheffInit, Memory.write, Memory.push, heq]
  · by_cases heq : task = 0
    · subst heq
      rw [← Option.some.inj hcode]
      rfl
    · simp [start, heq] at hcode

/-- Assumes: the state that the steps of some workers lead to has a property. A run reaches it. -/
theorem exists_run_of_moves (n : ℕ) [NeZero n] (depth : ℕ) (moves : List (Fin n × ℕ))
    (found : ProgramState n ℕ Unit Unit (Code ℕ) (Promises ℕ) → Bool)
    (hfound : ((skynet ℕ (lastLayer depth)).follow moves (start n)).any found = true) :
    ∃ labels s, (bench n ℕ depth).Run (fun _ _ ↦ True) labels s ∧ found s = true := by
  cases hfollow : (skynet ℕ (lastLayer depth)).follow moves (start n) with
  | none =>
    rw [hfollow] at hfound
    cases hfound
  | some s =>
    rw [hfollow] at hfound
    obtain ⟨labels, hrun⟩ := exists_run_of_follow (.start (initial_start n depth)) hfollow
    exact ⟨labels, s, hrun, hfound⟩

section Runs

variable [DecidableEq Task] {n : ℕ} [NeZero n] {depth : ℕ}
  {labels : List (ProgramLabel n Task Unit Unit)}
  {s : ProgramState n Task Unit Unit (Code Task) (Promises Task)}

omit [DecidableEq Task] in
/-- When all tasks have ended the promise of the root has its result. -/
theorem Protocol.result {depth : ℕ} {s : TaskState Task (Code Task) (Promises Task)}
    {nodes : Nodes Task} {created : Set ℕ} (h : Protocol (lastLayer depth) s nodes created)
    (hcodes : ∀ task, s.codes task = none) :
    (s.shared 1).state = .fulfilled ∧ (s.shared 1).locked = false ∧
      2 * (s.shared 1).result = (lastLayer depth : ℤ) * (lastLayer depth - 1) := by
  have hnone : nodes 1 = none := by
    cases hnode : nodes 1 with
    | none => rfl
    | some node =>
      obtain ⟨task, pc⟩ := node
      have hcode := (h.codes task 1 pc).mpr hnode
      exact absurd ((hcodes task).symm.trans hcode) (by simp)
  have habove := h.above 1 (.inl rfl)
  rw [Above, if_pos rfl, Nodes.fulfiller, hnone] at habove
  obtain ⟨hlocked, hstate, hresult⟩ := habove
  refine ⟨hstate, hlocked, ?_⟩
  have hroot := two_mul_nodeResult_root depth
  rwa [← hresult] at hroot

/-- The number that a task has summed up or is to store. -/
def Pc.sum : Pc Task → ℤ
  | .awaitLoop _ sum => sum
  | .await _ sum _ => sum
  | .mustSleep _ sum _ => sum
  | .readResult _ sum => sum
  | .fulfill result _ => result
  | _ => 0

omit [DecidableEq Task] in
/-- What a task sums up is part of the result of its node, or of none. -/
theorem Protocol.sum_mem {lastLayer : ℕ} {s : TaskState Task (Code Task) (Promises Task)}
    {nodes : Nodes Task} {created : Set ℕ} {num : ℕ} {task : Task} {pc : Pc Task}
    (h : Protocol lastLayer s nodes created) (hnode : nodes num = some (task, pc))
    (hchildren : ∀ i < branchingFactor, num < lastLayer → 0 ≤ nodeResult lastLayer (child num i))
    (hresult : 0 ≤ nodeResult lastLayer num) : 0 ≤ pc.sum ∧ pc.sum ≤ nodeResult lastLayer num := by
  have hgood := h.good num task pc hnode
  have hpartial : ∀ {i : ℕ} {sum : ℤ}, num < lastLayer → i ≤ branchingFactor →
      sum = ∑ j ∈ Finset.range i, nodeResult lastLayer (child num j) →
        0 ≤ sum ∧ sum ≤ nodeResult lastLayer num := by
    rintro i _ hlt hi rfl
    have hnonneg : ∀ j ∈ Finset.range branchingFactor, 0 ≤ nodeResult lastLayer (child num j) :=
      fun j hj ↦ hchildren j (Finset.mem_range.mp hj) hlt
    have hsubset : Finset.range i ⊆ Finset.range branchingFactor := Finset.range_subset_range.mpr hi
    rw [nodeResult_of_lt (h.isNode num task pc hnode).pos hlt]
    exact ⟨Finset.sum_nonneg fun j hj ↦ hnonneg j (hsubset hj),
      Finset.sum_le_sum_of_subset_of_nonneg hsubset fun j hj _ ↦ hnonneg j hj⟩
  cases pc with
  | awaitLoop i sum => exact hpartial hgood.1 hgood.2.1 hgood.2.2
  | await i sum step => exact hpartial hgood.1 hgood.2.1.le hgood.2.2
  | mustSleep i sum step => exact hpartial hgood.1 hgood.2.1.le hgood.2.2
  | readResult i sum => exact hpartial hgood.1 hgood.2.1.le hgood.2.2
  | fulfill result step =>
    have heq : result = nodeResult lastLayer num := hgood
    exact ⟨heq ▸ hresult, heq.le⟩
  | _ => exact ⟨le_rfl, hresult⟩

/-- **No overflow.** In every run whose depth is not greater than 10, the numbers of the nodes, and
of the children that they fork, and the sums are in the range of `int64_t`. -/
theorem skynet_bounds (hdepth : depth ≤ 10)
    (hrun : (bench n Task depth).Run (fun _ _ ↦ True) labels s) {task : Task} {num : ℕ}
    {pc : Pc Task} (hcode : s.codes task = some ⟨num, pc⟩) :
    num < 2 ^ 63 ∧ (∀ i < branchingFactor, num < lastLayer depth → child num i < 2 ^ 63) ∧
      0 ≤ pc.sum ∧ pc.sum < 2 ^ 63 := by
  obtain ⟨⟨nodes, created, hprotocol⟩, -⟩ := inProtocol_of_run hrun
  obtain ⟨layer, hle, hlayer⟩ := layered_of_run hrun task _ hcode
  have hlast : lastLayer depth ≤ 10 ^ 9 := by
    rw [lastLayer_eq_pow]
    exact Nat.pow_le_pow_right (by decide) (by omega)
  have hnumber : ∀ {layer num : ℕ}, layer ≤ depth - 1 → InLayer layer num → num < 2 ^ 63 := by
    intro layer num hle hlayer
    have hpow : branchingFactor ^ layer ≤ 10 ^ 9 := Nat.pow_le_pow_right (by decide) (by omega)
    have hlt := hlayer.2
    omega
  have hchild : ∀ i < branchingFactor, num < lastLayer depth →
      layer + 1 ≤ depth - 1 ∧ InLayer (layer + 1) (child num i) :=
    fun i hi hlt ↦ ⟨hlayer.lt_of_lt hlt, hlayer.child hi⟩
  obtain ⟨hnonneg, hupper⟩ := nodeResult_mem hlayer hle
  obtain ⟨hsum, hsumLe⟩ := hprotocol.sum_mem ((hprotocol.codes _ _ _).mp hcode)
    (fun i hi hlt ↦ (nodeResult_mem (hchild i hi hlt).2 (hchild i hi hlt).1).1) hnonneg
  refine ⟨hnumber hle hlayer, fun i hi hlt ↦ hnumber (hchild i hi hlt).1 (hchild i hi hlt).2, hsum,
    ?_⟩
  have hsquare : (lastLayer depth : ℤ) ^ 2 ≤ (10 ^ 9) ^ 2 :=
    pow_le_pow_left₀ (Int.natCast_nonneg _) (by exact_mod_cast hlast) 2
  linarith

omit [DecidableEq Task] [NeZero n] in
/-- The root forks two children. The second one starts, and is to store its result. -/
theorem exists_summing : ∃ labels s, (bench 11 ℕ 2).Run (fun _ _ ↦ True) labels s ∧
    s.codes 0 = some ⟨1, .forkLoop 2⟩ ∧ s.codes 2 = some ⟨11, .fulfill 1 .acquire⟩ := by
  obtain ⟨labels, s, hrun, hfound⟩ := exists_run_of_moves 11 2
    (List.replicate 12 (0, 1) ++ List.replicate 12 (10, 2) ++ List.replicate 6 (10, 3))
    (fun s ↦ s.codes 0 = some ⟨1, .forkLoop 2⟩ ∧ s.codes 2 = some ⟨11, .fulfill 1 .acquire⟩)
    (by decide +kernel)
  exact ⟨labels, s, hrun, of_decide_eq_true hfound⟩

theorem skynet_bounds_summing : ∃ labels s, (bench 11 ℕ 2).Run (fun _ _ ↦ True) labels s ∧
    s.codes 0 = some ⟨1, .forkLoop 2⟩ ∧ s.codes 2 = some ⟨11, .fulfill 1 .acquire⟩ ∧
      (∀ i < branchingFactor, child 1 i < 2 ^ 63) ∧ 11 < 2 ^ 63 ∧ (1 : ℤ) < 2 ^ 63 := by
  obtain ⟨labels, s, hrun, hroot, hchild⟩ := exists_summing
  obtain ⟨-, hchildren, -⟩ := skynet_bounds (by decide) hrun hroot
  obtain ⟨hnum, -, -, hsum⟩ := skynet_bounds (by decide) hrun hchild
  exact ⟨labels, s, hrun, hroot, hchild, fun i hi ↦ hchildren i hi (by decide), hnum, hsum⟩

/-- The waker that a task has taken out of its promise. -/
def Pc.taken : Pc Task → Option Task
  | .fulfill _ (.storeState (.waker waker)) => some waker
  | .fulfill _ (.storeResult (.waker waker)) => some waker
  | .fulfill _ (.release (.waker waker)) => some waker
  | .fulfill _ (.wake waker) => some waker
  | _ => none

omit [DecidableEq Task] in
/-- The waker of the task that waits is in the promise, or the other task has it. -/
theorem Facing.waker {result : ℤ} {waker : Task} {promise : SkynetPromise Task} {pc : Pc Task}
    (h : Facing result (.waker waker) promise pc.fulfiller) (hover : ¬ pc.fulfiller.Over) :
    promise.state = .waker waker ∨ pc.taken = some waker := by
  cases pc with
  | fulfill result step =>
    cases step with
    | acquire => exact .inl h.2
    | loadState => exact .inl h.2
    | storeState previousState =>
      obtain rfl : previousState = .waker waker := h.2.2
      exact .inr rfl
    | storeResult previousState =>
      obtain rfl : previousState = .waker waker := h.2.2
      exact .inr rfl
    | release previousState =>
      obtain rfl : previousState = .waker waker := h.2.2
      exact .inr rfl
    | wake other =>
      obtain rfl : waker = other := PromiseState.waker.inj h.2.2
      exact .inr rfl
  | ret => exact absurd trivial hover
  | finished => exact absurd trivial hover
  | _ => exact .inl h.2

omit [DecidableEq Task] in
/-- A task that sleeps waits for a child that has not ended, and its waker is in the promise of the
child or has been taken out by it. -/
theorem Protocol.exists_child {lastLayer : ℕ} {s : TaskState Task (Code Task) (Promises Task)}
    {nodes : Nodes Task} {created : Set ℕ} (h : Protocol lastLayer s nodes created) {task : Task}
    (htask : task ∈ s.wakers) : ∃ num i sum other pc,
      s.codes task = some ⟨num, .readResult i sum⟩ ∧ i < branchingFactor ∧
      s.codes other = some ⟨child num i, pc⟩ ∧ pc ≠ .finished ∧
      ((s.shared (child num i)).state = .waker task ∨ pc.taken = some task) := by
  obtain ⟨num, i, sum, hnode⟩ := h.asleep task htask
  have hi : i < branchingFactor := (h.good num task _ hnode).2.1
  have hedge := h.edge hnode hi
  rw [Pc.waiter_readResult] at hedge
  obtain ⟨-, hover, hfacing⟩ := hedge.resolve_right fun hawake ↦ hawake.1 htask
  cases hchild : nodes (child num i) with
  | none =>
    rw [Nodes.fulfiller, hchild] at hover
    exact absurd trivial hover
  | some node =>
    obtain ⟨other, pc⟩ := node
    rw [Protocol.fulfiller_eq hchild] at hover hfacing
    refine ⟨num, i, sum, other, pc, (h.codes _ _ _).mpr hnode, hi, (h.codes _ _ _).mpr hchild, ?_,
      hfacing.waker hover⟩
    rintro rfl
    exact hover trivial

omit [DecidableEq Task] in
/-- Not all tasks sleep: that of the greatest node has no child that it could wait for. -/
theorem Protocol.exists_awake {lastLayer : ℕ} {s : TaskState Task (Code Task) (Promises Task)}
    {nodes : Nodes Task} {created : Set ℕ} (h : Protocol lastLayer s nodes created)
    {live : Finset Task} (hlive : ∀ task, task ∈ live ↔ (s.codes task).isSome) {task : Task}
    (htask : (s.codes task).isSome) : ∃ task, (s.codes task).isSome ∧ task ∉ s.wakers := by
  by_contra hall
  obtain ⟨last, hlast, hmax⟩ := Finset.exists_max_image live
    (fun task ↦ (s.codes task).elim 0 Code.num) ⟨task, (hlive task).mpr htask⟩
  obtain ⟨num, i, sum, other, pc, hcode, -, hother, -⟩ :=
    h.exists_child (not_not.mp fun hawake ↦ hall ⟨last, (hlive last).mp hlast, hawake⟩)
  have hle := hmax other ((hlive other).mpr (by rw [hother]; rfl))
  simp only [hcode, hother, Option.elim_some] at hle
  have hpos := (h.isNode num last _ ((h.codes _ _ _).mp hcode)).pos
  unfold child branchingFactor at hle
  omega

/-- **No wake-up is lost.** In every state of every run: a task that sleeps waits for a child that
has not ended, and its waker is in the promise of the child or has been taken out by it; a task that
wakes another wakes one that sleeps, and that waits for it; and as long as there is a task, not all
of them sleep. -/
theorem skynet_wakers (hrun : (bench n Task depth).Run (fun _ _ ↦ True) labels s) :
    (∀ task ∈ s.scheduler.memory.wakers, ∃ num i sum other pc,
      s.codes task = some ⟨num, .readResult i sum⟩ ∧ i < branchingFactor ∧
      s.codes other = some ⟨child num i, pc⟩ ∧ pc ≠ .finished ∧
      ((s.shared (child num i)).state = .waker task ∨ pc.taken = some task)) ∧
    (∀ task num result waker, s.codes task = some ⟨num, .fulfill result (.wake waker)⟩ →
      waker ∈ s.scheduler.memory.wakers ∧ ∃ parent i sum,
        s.codes waker = some ⟨parent, .readResult i sum⟩ ∧ num = child parent i) ∧
    ((∃ task, (s.codes task).isSome) →
      ∃ task, (s.codes task).isSome ∧ task ∉ s.scheduler.memory.wakers) := by
  obtain ⟨⟨nodes, created, hprotocol⟩, live, hlive, hcoherent⟩ := inProtocol_of_run hrun
  refine ⟨fun task htask ↦ hprotocol.exists_child htask, fun task num result waker hcode ↦ ?_,
    fun ⟨task, htask⟩ ↦ hprotocol.exists_awake (hcoherent.mem_live_iff hlive) htask⟩
  have hnode := (hprotocol.codes _ _ _).mp hcode
  obtain ⟨-, current, hparent, hedge⟩ := hprotocol.sleeping hnode
  obtain ⟨hresumed, hasleep, -⟩ := Edge.wake hedge
  obtain ⟨sum, rfl⟩ := Pc.exists_of_resumed hresumed
  exact ⟨hasleep, num / branchingFactor, num % branchingFactor, sum,
    (hprotocol.codes _ _ _).mpr hparent, (child_div_mod num).symm⟩

/-- Ten workers fork the children of the root, another one lets the root sleep on the first child,
and the first worker lets that child end. -/
def sleepingMoves : List (Fin 11 × ℕ) :=
  ((List.range 10).flatMap fun i ↦ List.replicate 12 (Fin.ofNat 11 (11 - i), i + 1)) ++
    List.replicate 16 (1, 11) ++ List.replicate 11 (0, 11)

omit [DecidableEq Task] [NeZero n] in
theorem exists_sleeping : ∃ labels s, (bench 11 ℕ 2).Run (fun _ _ ↦ True) labels s ∧
    0 ∈ s.scheduler.memory.wakers ∧ s.codes 1 = some ⟨10, .fulfill 0 (.wake 0)⟩ := by
  obtain ⟨labels, s, hrun, hfound⟩ := exists_run_of_moves 11 2 sleepingMoves
    (fun s ↦ 0 ∈ s.scheduler.memory.wakers ∧ s.codes 1 = some ⟨10, .fulfill 0 (.wake 0)⟩)
    (by decide +kernel)
  exact ⟨labels, s, hrun, of_decide_eq_true hfound⟩

theorem skynet_wakers_sleeping : ∃ labels s, (bench 11 ℕ 2).Run (fun _ _ ↦ True) labels s ∧
    (0 ∈ s.scheduler.memory.wakers ∧ ∃ num i sum other pc,
      s.codes 0 = some ⟨num, .readResult i sum⟩ ∧ s.codes other = some ⟨child num i, pc⟩ ∧
        ((s.shared (child num i)).state = .waker 0 ∨ pc.taken = some 0)) ∧
    (s.codes 1 = some ⟨10, .fulfill 0 (.wake 0)⟩ ∧ ∃ parent i sum,
      s.codes 0 = some ⟨parent, .readResult i sum⟩ ∧ 10 = child parent i) ∧
    ∃ task, (s.codes task).isSome ∧ task ∉ s.scheduler.memory.wakers := by
  obtain ⟨labels, s, hrun, hasleep, hwaking⟩ := exists_sleeping
  obtain ⟨hsleeping, hwoken, hawake⟩ := skynet_wakers hrun
  obtain ⟨num, i, sum, other, pc, hcode, -, hother, -, htaken⟩ := hsleeping 0 hasleep
  obtain ⟨-, hparent⟩ := hwoken 1 10 0 0 hwaking
  exact ⟨labels, s, hrun, ⟨hasleep, num, i, sum, other, pc, hcode, hother, htaken⟩,
    ⟨hwaking, hparent⟩, hawake ⟨1, by rw [hwaking]; rfl⟩⟩

/-- The task that waits for a promise has its lock. -/
def Waiter.Locks : Waiter Task → Prop
  | .inside => True
  | .seen _ => True
  | .storing => True
  | .decided _ => True
  | _ => False

/-- The task that fulfills a promise has its lock. -/
def Fulfiller.Locks : Fulfiller Task → Prop
  | .loading => True
  | .storing _ => True
  | .writing _ => True
  | .releasing _ => True
  | _ => False

omit [DecidableEq Task] in
/-- The lock is that of one of the two. -/
theorem Edge.locks {result : ℤ} {task : Task} {asleep : Prop} {promise : SkynetPromise Task}
    {waiter : Waiter Task} {fulfiller : Fulfiller Task}
    (h : Edge result task asleep promise waiter fulfiller) (hover : ¬ fulfiller.Over) :
    (promise.locked = true ↔ waiter.Locks ∨ fulfiller.Locks) ∧
      ¬ (waiter.Locks ∧ fulfiller.Locks) ∧ waiter ≠ .unready ∧ waiter ≠ .ready ∧
        waiter ≠ .past := by
  have hfacing : ∀ {recorded : PromiseState Task}, Facing result recorded promise fulfiller →
      (promise.locked = true ↔ fulfiller.Locks) := by
    intro recorded hfacing
    cases fulfiller with
    | absent => exact absurd trivial hover
    | done => exact absurd trivial hover
    | owing => simp [hfacing.1, Fulfiller.Locks]
    | waking waker => simp [hfacing.1, Fulfiller.Locks]
    | _ => simp [hfacing.1, Fulfiller.Locks]
  have howing : fulfiller = .owing → ¬ fulfiller.Locks := by
    rintro rfl
    exact id
  cases waiter with
  | unready => exact absurd (h ▸ trivial : fulfiller.Over) hover
  | ready => exact absurd (h.1 ▸ trivial : fulfiller.Over) hover
  | past => exact absurd h hover
  | outside => simpa [Waiter.Locks] using hfacing h
  | resumed =>
    have hcase := (h.resolve_right fun hawake ↦ hover hawake.2.1).2.2
    simpa [Waiter.Locks] using hfacing hcase
  | inside =>
    have hcase := (h.2.resolve_right fun hdone ↦ hover hdone.1).1
    simp [Waiter.Locks, h.1, howing hcase]
  | seen state =>
    have hcase := (h.2.2.resolve_right fun hdone ↦ hover hdone.1).1
    simp [Waiter.Locks, h.1, howing hcase]
  | storing => simp [Waiter.Locks, h.1, howing h.2.1]
  | decided state =>
    have hcase := (h.2.resolve_right fun hdone ↦ hover hdone.2.1).2.1
    simp [Waiter.Locks, h.1, howing hcase]

/-- **The promise outlives its use.** A promise is in the frame of `skynet` for the parent. In every
state of every run, a task that still uses its promise has a parent, which has created it and has
not read its result; the lock of the promise is that of one of the two, if of any. -/
theorem skynet_lifetime (hrun : (bench n Task depth).Run (fun _ _ ↦ True) labels s) {task : Task}
    {num : ℕ} {pc : Pc Task} (hcode : s.codes task = some ⟨num, pc⟩) (hroot : num ≠ 1)
    (hover : ¬ pc.fulfiller.Over) :
    ∃ parent current i, i < branchingFactor ∧ num = child (num / branchingFactor) i ∧
      s.codes parent = some ⟨num / branchingFactor, current⟩ ∧
      current.waiter i ≠ .unready ∧ current.waiter i ≠ .ready ∧ current.waiter i ≠ .past ∧
      ((s.shared num).locked = true ↔ (current.waiter i).Locks ∨ pc.fulfiller.Locks) ∧
      ¬ ((current.waiter i).Locks ∧ pc.fulfiller.Locks) := by
  obtain ⟨⟨nodes, created, hprotocol⟩, -⟩ := inProtocol_of_run hrun
  obtain ⟨parent, current, hparent, hedge⟩ :=
    hprotocol.parent ((hprotocol.codes _ _ _).mp hcode) hroot hover
  obtain ⟨hlocked, hexclusive, hunready, hready, hpast⟩ := hedge.locks hover
  exact ⟨parent, current, num % branchingFactor, Nat.mod_lt _ (by decide), (child_div_mod num).symm,
    (hprotocol.codes _ _ _).mpr hparent, hunready, hready, hpast, hlocked, hexclusive⟩

omit [DecidableEq Task] [NeZero n] in
/-- The root forks its first child. -/
theorem exists_forked : ∃ labels s, (bench 8 ℕ 7).Run (fun _ _ ↦ True) labels s ∧
    s.codes 1 = some ⟨10, .start⟩ := by
  obtain ⟨labels, s, hrun, hfound⟩ := exists_run_of_moves 8 7 (List.replicate 10 (0, 1))
    (fun s ↦ s.codes 1 = some ⟨10, .start⟩) (by decide +kernel)
  exact ⟨labels, s, hrun, of_decide_eq_true hfound⟩

theorem skynet_lifetime_forked : ∃ labels s, (bench 8 ℕ 7).Run (fun _ _ ↦ True) labels s ∧
    s.codes 1 = some ⟨10, .start⟩ ∧ ∃ parent current, s.codes parent = some ⟨1, current⟩ := by
  obtain ⟨labels, s, hrun, hcode⟩ := exists_forked
  obtain ⟨parent, current, -, -, -, hparent, -⟩ := skynet_lifetime hrun hcode (by decide) id
  exact ⟨labels, s, hrun, hcode, parent, current, hparent⟩

/-- In every state of every run, each worker that has not left its loop has a step, where `malloc`
finds memory. So a task that wakes another only does so where the scheduler has its waker. -/
theorem exists_step_of_run [Infinite Task]
    (hrun : (bench n Task depth).Run (fun _ _ ↦ True) labels s) {self : Fin n}
    (hexited : s.scheduler.workers self ≠ .exited) :
    ∃ event next, (bench n Task depth).step s ⟨self, event⟩ next := by
  obtain ⟨⟨nodes, created, hprotocol⟩, live, hlive, hcoherent⟩ := inProtocol_of_run hrun
  have hfresh : ∃ fresh, s.scheduler.memory.tasks fresh = none := by
    obtain ⟨fresh, hfresh⟩ := Infinite.exists_notMem_finset live
    rw [hlive.allocated] at hfresh
    exact ⟨fresh, Option.not_isSome_iff_eq_none.mp hfresh⟩
  refine exists_step hlive hcoherent hfresh ?_ ?_ ?_ hexited
  · rintro task ⟨num, pc⟩ hcode hawake hstatus
    have hnode := (hprotocol.codes task num pc).mp hcode
    have hrequest : ∀ {request after}, Code.request ⟨num, pc⟩ = some (request, after) →
        (∃ next, Code.advance (lastLayer depth) ⟨num, pc⟩ s.shared = some next) ∨
          ∃ request after, Code.request ⟨num, pc⟩ = some (request, after) ∧
            (request.woken : Multiset Task) ≤ s.scheduler.memory.wakers :=
      fun hrequest ↦ .inr ⟨_, _, hrequest, (hprotocol.request hnode hawake hrequest).1⟩
    cases pc with
    | start =>
      refine .inl ?_
      simp only [skynet, Code.advance]
      split_ifs <;> exact ⟨_, rfl⟩
    | forkLoop i =>
      refine .inl ?_
      simp only [skynet, Code.advance]
      split_ifs <;> exact ⟨_, rfl⟩
    | awaitLoop i sum =>
      refine .inl ?_
      simp only [skynet, Code.advance]
      split_ifs <;> exact ⟨_, rfl⟩
    | fork i => exact hrequest rfl
    | ret => exact hrequest rfl
    | readResult i sum => exact .inl ⟨_, rfl⟩
    | await i sum step =>
      cases step with
      | acquire =>
        refine .inl ?_
        simp only [skynet, Code.advance, AwaitStep.advance]
        split_ifs <;> exact ⟨_, rfl⟩
      | loadState => exact .inl ⟨_, rfl⟩
      | release state => cases state <;> exact .inl ⟨_, rfl⟩
      | sleep => exact hrequest rfl
    | fulfill result step =>
      cases step with
      | acquire =>
        refine .inl ?_
        simp only [skynet, Code.advance, FulfillStep.advance]
        split_ifs <;> exact ⟨_, rfl⟩
      | release previousState => cases previousState <;> exact .inl ⟨_, rfl⟩
      | wake waker => exact hrequest rfl
      | _ => exact .inl ⟨_, rfl⟩
    | _ => exact absurd hstatus (by simp [skynet, Pc.status])
  · rintro ⟨num, pc⟩ hstatus
    cases pc with
    | creating i => exact ⟨_, rfl⟩
    | _ => exact absurd hstatus (by simp [skynet, Pc.status])
  · rintro task ⟨num, pc⟩ hstatus
    cases pc with
    | mustSleep i sum step =>
      cases step with
      | acquire =>
        refine .inl ?_
        simp only [skynet, Code.mustSleep, MustSleepStep.advance]
        split_ifs <;> exact ⟨_, rfl⟩
      | loadState =>
        refine .inl ?_
        simp only [skynet, Code.mustSleep, MustSleepStep.advance]
        split <;> exact ⟨_, rfl⟩
      | storeWaker => exact .inl ⟨_, rfl⟩
      | release state => exact .inr ⟨_, rfl⟩
    | _ => exact absurd hstatus (by simp [skynet, Pc.status])

end Runs

end Libseff.Skynet
