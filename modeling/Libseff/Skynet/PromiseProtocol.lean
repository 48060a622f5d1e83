import Libseff.Skynet.Promise
import Mathlib.Algebra.BigOperators.Intervals

/-!
# The protocol of the promises

The task of a node and the task of its parent meet at the promise of the node. How the parent stands
to it (`Waiter`) and how far the child has got with it (`Fulfiller`) determine what the promise
holds (`Edge`): who has the lock, whether the waker of the parent is recorded, and whether the
result is there. So each step of one of them is looked at with the other standing still.

The tasks of all nodes are where the protocol of each promise has them (`Protocol`). A task is
asleep only at `readResult`, with its waker recorded in the promise or taken out of it by the task
that is about to wake it.
-/

set_option autoImplicit false
set_option relaxedAutoImplicit false

namespace Libseff.Skynet

open Scheduler

variable {Task : Type*}

/-! ### Sums over the tree -/

/-- The sum over the nodes below one, down to the given number of layers: what each node in the last
layer has, and what each node above it has of its own. -/
def treeSum {M : Type*} [AddCommMonoid M] (lastLayer : ℕ) (leaf : ℕ → M) (own : M) : ℕ → ℕ → M
  | 0, num => leaf num
  | layers + 1, num =>
    if lastLayer ≤ num then leaf num
    else own + ∑ i ∈ Finset.range branchingFactor,
      treeSum lastLayer leaf own layers (child num i)

section TreeSum

variable {M : Type*} [AddCommMonoid M] {lastLayer layers num : ℕ} {leaf : ℕ → M} {own : M}

theorem treeSum_succ (hlayers : lastLayer ≤ num * branchingFactor ^ layers) :
    treeSum lastLayer leaf own (layers + 1) num = treeSum lastLayer leaf own layers num := by
  induction layers generalizing num with
  | zero =>
    rw [pow_zero, mul_one] at hlayers
    simp only [treeSum, if_pos hlayers]
  | succ layers ih =>
    rw [treeSum, treeSum]
    split_ifs with hleaf
    · rfl
    · congr 1
      refine Finset.sum_congr rfl fun i _ ↦ ih ?_
      calc lastLayer ≤ num * branchingFactor ^ (layers + 1) := hlayers
        _ = num * branchingFactor * branchingFactor ^ layers := by ring
        _ ≤ child num i * branchingFactor ^ layers :=
          Nat.mul_le_mul_right _ (Nat.le_add_right _ _)

theorem treeSum_of_le (hleaf : lastLayer ≤ num) :
    treeSum lastLayer leaf own layers num = leaf num := by
  cases layers with
  | zero => rfl
  | succ layers => rw [treeSum, if_pos hleaf]

/-- The sum at a node that is not in the last layer. -/
theorem treeSum_of_lt (hnum : 0 < num) (hlt : num < lastLayer) :
    treeSum lastLayer leaf own lastLayer num = own + ∑ i ∈ Finset.range branchingFactor,
      treeSum lastLayer leaf own lastLayer (child num i) := by
  obtain ⟨layers, rfl⟩ : ∃ layers, lastLayer = layers + 1 := ⟨lastLayer - 1, by omega⟩
  rw [treeSum, if_neg (by omega)]
  congr 1
  refine Finset.sum_congr rfl fun i _ ↦ (treeSum_succ ?_).symm
  have hpow : layers < branchingFactor ^ layers := Nat.lt_pow_self (by decide)
  calc layers + 1 ≤ 1 * branchingFactor ^ layers := by omega
    _ ≤ child num i * branchingFactor ^ layers :=
      Nat.mul_le_mul_right _ (by unfold child branchingFactor; omega)

end TreeSum

/-- The sum of the results below a node, down to the given number of layers. -/
def sumBelow (lastLayer : ℕ) : ℕ → ℕ → ℤ :=
  treeSum lastLayer (fun num ↦ (num : ℤ) - lastLayer) 0

/-- The result of a node: its place in the last layer, or the sum of the results of its children. -/
def nodeResult (lastLayer num : ℕ) : ℤ := sumBelow lastLayer lastLayer num

theorem nodeResult_of_le {lastLayer num : ℕ} (hleaf : lastLayer ≤ num) :
    nodeResult lastLayer num = (num : ℤ) - lastLayer := treeSum_of_le hleaf

/-- The result of a node that is not in the last layer. -/
theorem nodeResult_of_lt {lastLayer num : ℕ} (hnum : 0 < num) (hlt : num < lastLayer) :
    nodeResult lastLayer num =
      ∑ i ∈ Finset.range branchingFactor, nodeResult lastLayer (child num i) :=
  (treeSum_of_lt hnum hlt).trans (zero_add _)

/-! ### The two sides of a promise -/

/-- How a task stands to the promise of one of its children. It has not been initialised, or the
child has not been created; the task may wait for it; it holds the lock, and has not read the state,
or has, or is about to record its waker; it is past the lock, and asleep or about to read the
result; it has read the result. -/
inductive Waiter (Task : Type*)
  | unready
  | ready
  | outside
  | inside
  | seen (state : PromiseState Task)
  | storing
  | decided (state : PromiseState Task)
  | resumed
  | past

/-- How far a task has got with its own promise. -/
inductive Fulfiller (Task : Type*)
  | absent
  | owing
  | loading
  | storing (previousState : PromiseState Task)
  | writing (previousState : PromiseState Task)
  | releasing (previousState : PromiseState Task)
  | waking (waker : Task)
  | done

/-- The task no longer uses its promise. -/
def Fulfiller.Over : Fulfiller Task → Prop
  | .absent => True
  | .done => True
  | _ => False

def AwaitStep.waiter : AwaitStep Task → Waiter Task
  | .acquire => .outside
  | .loadState => .inside
  | .release state => .seen state
  | .sleep => .outside

def MustSleepStep.waiter : MustSleepStep Task → Waiter Task
  | .acquire => .outside
  | .loadState => .inside
  | .storeWaker => .storing
  | .release state => .decided state

def FulfillStep.fulfiller : FulfillStep Task → Fulfiller Task
  | .acquire => .owing
  | .loadState => .loading
  | .storeState previousState => .storing previousState
  | .storeResult previousState => .writing previousState
  | .release previousState => .releasing previousState
  | .wake waker => .waking waker

/-- How a task stands to the promise of its `i`-th child. -/
def Pc.waiter (i : ℕ) : Pc Task → Waiter Task
  | .start => .unready
  | .forkLoop j => if i < j then .outside else .unready
  | .fork j => if i < j then .outside else if i = j then .ready else .unready
  | .creating j => if i < j then .outside else if i = j then .ready else .unready
  | .awaitLoop j _ => if i < j then .past else .outside
  | .await j _ step => if i < j then .past else if i = j then step.waiter else .outside
  | .mustSleep j _ step => if i < j then .past else if i = j then step.waiter else .outside
  | .readResult j _ => if i < j then .past else if i = j then .resumed else .outside
  | .fulfill _ _ => .past
  | .ret => .past
  | .finished => .past

@[simp]
theorem Pc.waiter_await (i : ℕ) (sum : ℤ) (step : AwaitStep Task) :
    (Pc.await i sum step).waiter i = step.waiter := by simp [Pc.waiter]

@[simp]
theorem Pc.waiter_mustSleep (i : ℕ) (sum : ℤ) (step : MustSleepStep Task) :
    (Pc.mustSleep i sum step).waiter i = step.waiter := by simp [Pc.waiter]

@[simp]
theorem Pc.waiter_readResult (i : ℕ) (sum : ℤ) :
    (Pc.readResult i sum : Pc Task).waiter i = .resumed := by simp [Pc.waiter]

/-- How far a task has got with its own promise. -/
def Pc.fulfiller : Pc Task → Fulfiller Task
  | .fulfill _ step => step.fulfiller
  | .ret => .done
  | .finished => .done
  | _ => .owing

/-- The result is in the promise. -/
def SkynetPromise.Kept (promise : SkynetPromise Task) (result : ℤ) : Prop :=
  promise.state = .fulfilled ∧ promise.result = result

/-- What a promise holds while the waiting task does not have the lock, and `recorded` is what the
fulfilling task finds there. -/
def Facing (result : ℤ) (recorded : PromiseState Task) (promise : SkynetPromise Task) :
    Fulfiller Task → Prop
  | .owing => promise.locked = false ∧ promise.state = recorded
  | .loading => promise.locked = true ∧ promise.state = recorded
  | .storing previousState =>
    promise.locked = true ∧ promise.state = recorded ∧ previousState = recorded
  | .writing previousState =>
    promise.locked = true ∧ promise.state = .fulfilled ∧ previousState = recorded
  | .releasing previousState =>
    promise.locked = true ∧ promise.Kept result ∧ previousState = recorded
  | .waking waker => promise.locked = false ∧ promise.Kept result ∧ recorded = .waker waker
  | .absent => promise.locked = false ∧ promise.Kept result
  | .done => promise.locked = false ∧ promise.Kept result

/-- What a promise holds, where `task` is the one that waits for it. -/
def Edge (result : ℤ) (task : Task) (asleep : Prop) (promise : SkynetPromise Task) :
    Waiter Task → Fulfiller Task → Prop
  | .unready, fulfiller => fulfiller = .absent
  | .ready, fulfiller =>
    fulfiller = .absent ∧ promise.locked = false ∧ promise.state = .emptyPromise
  | .outside, fulfiller => Facing result .emptyPromise promise fulfiller
  | .inside, fulfiller => promise.locked = true ∧
    (fulfiller = .owing ∧ promise.state = .emptyPromise ∨ fulfiller.Over ∧ promise.Kept result)
  | .seen state, fulfiller => promise.locked = true ∧ state = promise.state ∧
    (fulfiller = .owing ∧ promise.state = .emptyPromise ∨ fulfiller.Over ∧ promise.Kept result)
  | .storing, fulfiller =>
    promise.locked = true ∧ fulfiller = .owing ∧ promise.state = .emptyPromise
  | .decided state, fulfiller => promise.locked = true ∧
    (state = .emptyPromise ∧ fulfiller = .owing ∧ promise.state = .waker task ∨
      state = .fulfilled ∧ fulfiller.Over ∧ promise.Kept result)
  | .resumed, fulfiller =>
    asleep ∧ ¬ fulfiller.Over ∧ Facing result (.waker task) promise fulfiller ∨
      ¬ asleep ∧ fulfiller.Over ∧ promise.locked = false ∧ promise.Kept result
  | .past, fulfiller => fulfiller.Over

section Sides

variable {result : ℤ} {task : Task} {asleep : Prop} {promise : SkynetPromise Task}
  {waiter : Waiter Task}

theorem Facing.of_over {recorded : PromiseState Task} {fulfiller : Fulfiller Task}
    (h : Facing result recorded promise fulfiller) (hover : fulfiller.Over) :
    promise.locked = false ∧ promise.Kept result := by
  cases fulfiller with
  | absent => exact h
  | done => exact h
  | _ => exact absurd hover id

/-- Only a task that is past the lock may be asleep. -/
theorem Edge.asleep_congr {fulfiller : Fulfiller Task} {asleep' : Prop}
    (h : Edge result task asleep promise waiter fulfiller)
    (hasleep : waiter = .resumed → (asleep ↔ asleep')) :
    Edge result task asleep' promise waiter fulfiller := by
  cases waiter with
  | resumed =>
    have hiff := hasleep rfl
    unfold Edge at h ⊢
    rwa [← hiff]
  | _ => exact h

/-- Fulfilling, where the waiting task does not have the lock. -/
theorem Facing.fulfill {recorded : PromiseState Task} {step : FulfillStep Task}
    {next : Pc Task × SkynetPromise Task} (h : Facing result recorded promise step.fulfiller)
    (hadvance : step.advance promise result = some next) :
    Facing result recorded next.2 next.1.fulfiller ∧
      (next.1.fulfiller.Over → recorded = .emptyPromise ∨ recorded = .fulfilled) := by
  cases step with
  | acquire =>
    obtain ⟨hlocked, hstate⟩ := h
    simp only [FulfillStep.advance, hlocked, Bool.false_eq_true, if_false] at hadvance
    rw [← Option.some.inj hadvance]
    exact ⟨⟨rfl, hstate⟩, False.elim⟩
  | loadState =>
    obtain ⟨hlocked, hstate⟩ := h
    rw [← Option.some.inj hadvance]
    exact ⟨⟨hlocked, hstate, hstate⟩, False.elim⟩
  | storeState previousState =>
    obtain ⟨hlocked, -, hprevious⟩ := h
    rw [← Option.some.inj hadvance]
    exact ⟨⟨hlocked, rfl, hprevious⟩, False.elim⟩
  | storeResult previousState =>
    obtain ⟨hlocked, hstate, hprevious⟩ := h
    rw [← Option.some.inj hadvance]
    exact ⟨⟨hlocked, ⟨hstate, rfl⟩, hprevious⟩, False.elim⟩
  | release previousState =>
    obtain ⟨-, hkept, hprevious⟩ := h
    subst hprevious
    cases previousState with
    | waker waker =>
      rw [← Option.some.inj hadvance]
      exact ⟨⟨rfl, hkept, rfl⟩, False.elim⟩
    | emptyPromise =>
      rw [← Option.some.inj hadvance]
      exact ⟨⟨rfl, hkept⟩, fun _ ↦ .inl rfl⟩
    | fulfilled =>
      rw [← Option.some.inj hadvance]
      exact ⟨⟨rfl, hkept⟩, fun _ ↦ .inr rfl⟩
  | wake waker => exact absurd hadvance (by simp [FulfillStep.advance])

/-- A step of the task that fulfills a promise. -/
theorem Edge.fulfill {step : FulfillStep Task} {next : Pc Task × SkynetPromise Task}
    (h : Edge result task asleep promise waiter step.fulfiller)
    (hadvance : step.advance promise result = some next) :
    Edge result task asleep next.2 waiter next.1.fulfiller := by
  -- Where the waiting task has the lock, the other one tries to take it.
  have hspin : promise.locked = true → step.fulfiller = .owing →
      next.2 = promise ∧ next.1.fulfiller = step.fulfiller := by
    intro hlocked howing
    cases step with
    | acquire =>
      simp only [FulfillStep.advance, hlocked, if_true] at hadvance
      rw [← Option.some.inj hadvance]
      exact ⟨rfl, rfl⟩
    | _ => exact absurd howing (by simp [FulfillStep.fulfiller])
  have hnot : ¬ step.fulfiller.Over := by cases step <;> exact id
  have habsent : step.fulfiller ≠ .absent := by cases step <;> simp [FulfillStep.fulfiller]
  cases waiter with
  | unready => exact absurd h habsent
  | ready => exact absurd h.1 habsent
  | outside => exact (Facing.fulfill h hadvance).1
  | inside =>
    have howing := (h.2.resolve_right fun hover ↦ hnot hover.1).1
    obtain ⟨hpromise, hfulfiller⟩ := hspin h.1 howing
    rwa [hpromise, hfulfiller]
  | seen state =>
    have howing := (h.2.2.resolve_right fun hover ↦ hnot hover.1).1
    obtain ⟨hpromise, hfulfiller⟩ := hspin h.1 howing
    rwa [hpromise, hfulfiller]
  | storing =>
    obtain ⟨hpromise, hfulfiller⟩ := hspin h.1 h.2.1
    rwa [hpromise, hfulfiller]
  | decided state =>
    have howing := (h.2.resolve_right fun hover ↦ hnot hover.2.1).2.1
    obtain ⟨hpromise, hfulfiller⟩ := hspin h.1 howing
    rwa [hpromise, hfulfiller]
  | resumed =>
    obtain ⟨hasleep, -, hfacing⟩ := h.resolve_right fun hover ↦ hnot hover.2.1
    obtain ⟨hnext, hover⟩ := Facing.fulfill hfacing hadvance
    exact .inl ⟨hasleep, fun h ↦ by simpa using hover h, hnext⟩
  | past => exact absurd h hnot

/-- The task that is about to wake another wakes the one that waits for its promise, which sleeps.
-/
theorem Edge.wake {waker : Task} (h : Edge result task asleep promise waiter (.waking waker)) :
    waiter = .resumed ∧ asleep ∧ task = waker ∧ ∀ asleep', ¬ asleep' →
      Edge result task asleep' promise waiter .done := by
  cases waiter with
  | unready => exact absurd h (by simp [Edge])
  | ready => exact absurd h.1 (by simp)
  | outside => exact absurd h.2.2 (by simp)
  | inside => exact absurd h.2 (by simp [Fulfiller.Over])
  | seen state => exact absurd h.2.2 (by simp [Fulfiller.Over])
  | storing => exact absurd h.2.1 (by simp)
  | decided state => exact absurd h.2 (by simp [Fulfiller.Over])
  | past => exact absurd h id
  | resumed =>
    obtain ⟨hasleep, -, hlocked, hkept, hrecorded⟩ := h.resolve_right fun hover ↦ hover.2.1
    exact ⟨rfl, hasleep, PromiseState.waker.inj hrecorded,
      fun _ hawake ↦ .inr ⟨hawake, trivial, hlocked, hkept⟩⟩

/-- The waiting task takes the lock. -/
theorem Edge.acquire {fulfiller : Fulfiller Task}
    (h : Edge result task asleep promise .outside fulfiller) (hlocked : ¬ promise.locked = true) :
    Edge result task asleep { promise with locked := true } .inside fulfiller := by
  refine ⟨rfl, ?_⟩
  have hfacing : Facing result .emptyPromise promise fulfiller := h
  cases fulfiller with
  | owing => exact .inl ⟨rfl, hfacing.2⟩
  | absent => exact .inr ⟨trivial, hfacing.2⟩
  | done => exact .inr ⟨trivial, hfacing.2⟩
  | waking waker => exact absurd hfacing.2.2 (by simp)
  | _ => exact absurd hfacing.1 hlocked

/-- A step of the task that waits for a promise. -/
theorem Edge.await {i : ℕ} {sum : ℤ} {step : AwaitStep Task} {fulfiller : Fulfiller Task}
    {next : Pc Task × SkynetPromise Task}
    (h : Edge result task asleep promise step.waiter fulfiller)
    (hawake : ¬ asleep) (hadvance : step.advance promise i sum = some next) :
    Edge result task asleep next.2 (next.1.waiter i) fulfiller := by
  cases step with
  | acquire =>
    simp only [AwaitStep.advance] at hadvance
    split_ifs at hadvance with hlocked
    · rw [← Option.some.inj hadvance]
      simp only [Pc.waiter_await]
      exact h
    · rw [← Option.some.inj hadvance]
      simp only [Pc.waiter_await]
      exact Edge.acquire h hlocked
  | loadState =>
    rw [← Option.some.inj hadvance]
    have hseen : Edge result task asleep promise (.seen promise.state) fulfiller :=
      ⟨h.1, rfl, h.2⟩
    simp only [Pc.waiter_await]
    exact hseen
  | release state =>
    obtain ⟨-, hstate, hcases⟩ := h
    rcases hcases with ⟨rfl, hempty⟩ | ⟨hover, hkept⟩
    · rw [hempty] at hstate
      subst hstate
      rw [← Option.some.inj hadvance]
      have houtside : Edge result task asleep { promise with locked := false } .outside .owing :=
        ⟨rfl, hempty⟩
      simp only [Pc.waiter_await]
      exact houtside
    · rw [hkept.1] at hstate
      subst hstate
      rw [← Option.some.inj hadvance]
      have hresumed : Edge result task asleep { promise with locked := false } .resumed fulfiller :=
        .inr ⟨hawake, hover, rfl, hkept⟩
      simp only [Pc.waiter_readResult]
      exact hresumed
  | sleep => exact absurd hadvance (by simp [AwaitStep.advance])

/-- A step of `must_sleep`, but for the last. -/
theorem Edge.mustSleep {i : ℕ} {sum : ℤ} {step : MustSleepStep Task} {fulfiller : Fulfiller Task}
    {next : Pc Task × SkynetPromise Task}
    (h : Edge result task asleep promise step.waiter fulfiller)
    (hadvance : step.advance task promise i sum = some next) :
    Edge result task asleep next.2 (next.1.waiter i) fulfiller := by
  cases step with
  | acquire =>
    simp only [MustSleepStep.advance] at hadvance
    split_ifs at hadvance with hlocked
    · rw [← Option.some.inj hadvance]
      simp only [Pc.waiter_mustSleep]
      exact h
    · rw [← Option.some.inj hadvance]
      simp only [Pc.waiter_mustSleep]
      exact Edge.acquire h hlocked
  | loadState =>
    obtain ⟨hlocked, ⟨rfl, hempty⟩ | ⟨hover, hkept⟩⟩ := h
    · simp only [MustSleepStep.advance, hempty] at hadvance
      rw [← Option.some.inj hadvance]
      have hstoring : Edge result task asleep promise .storing .owing := ⟨hlocked, rfl, hempty⟩
      simp only [Pc.waiter_mustSleep]
      exact hstoring
    · simp only [MustSleepStep.advance, hkept.1] at hadvance
      rw [← Option.some.inj hadvance]
      have hdecided : Edge result task asleep promise (.decided .fulfilled) fulfiller :=
        ⟨hlocked, .inr ⟨rfl, hover, hkept⟩⟩
      simp only [Pc.waiter_mustSleep]
      exact hdecided
  | storeWaker =>
    obtain ⟨hlocked, rfl, -⟩ := h
    rw [← Option.some.inj hadvance]
    have hdecided : Edge result task asleep { promise with state := .waker task }
        (.decided .emptyPromise) .owing := ⟨hlocked, .inl ⟨rfl, rfl, rfl⟩⟩
    simp only [Pc.waiter_mustSleep]
    exact hdecided
  | release state => exact absurd hadvance (by simp [MustSleepStep.advance])

/-- The end of `must_sleep`: the task sleeps if it has recorded its waker. -/
theorem Edge.answer {state : PromiseState Task} {fulfiller : Fulfiller Task}
    (h : Edge result task asleep promise (.decided state) fulfiller) :
    Edge result task (state = .emptyPromise) { promise with locked := false } .resumed
      fulfiller := by
  obtain ⟨-, ⟨rfl, rfl, hstate⟩ | ⟨rfl, hover, hkept⟩⟩ := h
  · exact .inl ⟨rfl, id, rfl, hstate⟩
  · exact .inr ⟨by simp, hover, rfl, hkept⟩

/-- The task reads the result. -/
theorem Edge.readResult {fulfiller : Fulfiller Task}
    (h : Edge result task asleep promise .resumed fulfiller) (hawake : ¬ asleep) :
    promise.result = result ∧ fulfiller.Over := by
  obtain ⟨-, hover, -, hkept⟩ := h.resolve_left fun hasleep ↦ hawake hasleep.1
  exact ⟨hkept.2, hover⟩

/-- The task that has fulfilled a promise is freed. -/
theorem Edge.free (h : Edge result task asleep promise waiter .done) :
    Edge result task asleep promise waiter .absent := by
  cases waiter with
  | unready => exact absurd h (by simp [Edge])
  | ready => exact absurd h.1 (by simp)
  | storing => exact absurd h.2.1 (by simp)
  | outside => exact h
  | past => exact h
  | inside => exact ⟨h.1, .inr ⟨trivial, (h.2.resolve_left fun howing ↦ by simp at howing).2⟩⟩
  | seen state =>
    exact ⟨h.1, h.2.1, .inr ⟨trivial, (h.2.2.resolve_left fun howing ↦ by simp at howing).2⟩⟩
  | decided state =>
    obtain ⟨hstate, -, hkept⟩ := h.2.resolve_left fun howing ↦ by simp at howing
    exact ⟨h.1, .inr ⟨hstate, trivial, hkept⟩⟩
  | resumed =>
    obtain ⟨hawake, -, hrest⟩ := h.resolve_left fun hasleep ↦ hasleep.2.1 trivial
    exact .inr ⟨hawake, trivial, hrest⟩

end Sides

end Libseff.Skynet
