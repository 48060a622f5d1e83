import Libseff.Skynet.PromiseProtocol

/-!
# The protocol of Skynet

The task of each node is where the protocol of its promise, and of the promises of its children, has
it (`Protocol`). Every step of the scheduler keeps that (`InProtocol.move`), so it holds in every
interleaving of any number of workers (`inProtocol_of_run`).
-/

set_option autoImplicit false
set_option relaxedAutoImplicit false

namespace Libseff.Skynet

open Scheduler

variable {Task : Type*}

/-! ### The tree -/

/-- The numbers of the nodes: the root, and the children of nodes. -/
def IsNode (num : ℕ) : Prop := num = 1 ∨ branchingFactor ≤ num

theorem IsNode.pos {num : ℕ} (h : IsNode num) : 0 < num := by
  rcases h with rfl | hle
  · exact Nat.one_pos
  · exact lt_of_lt_of_le (by decide) hle

theorem IsNode.child {num : ℕ} (h : IsNode num) (i : ℕ) : IsNode (child num i) := by
  have hpos := h.pos
  refine .inr ?_
  unfold Skynet.child branchingFactor
  omega

theorem child_div {num i : ℕ} (hi : i < branchingFactor) : child num i / branchingFactor = num := by
  unfold child branchingFactor at *
  omega

theorem child_mod {num i : ℕ} (hi : i < branchingFactor) : child num i % branchingFactor = i := by
  unfold child branchingFactor at *
  omega

theorem child_div_mod (num : ℕ) : child (num / branchingFactor) (num % branchingFactor) = num := by
  unfold child branchingFactor
  omega

theorem div_ne {num : ℕ} (h : IsNode num) : num / branchingFactor ≠ num := by
  have hpos := h.pos
  unfold branchingFactor
  omega

theorem child_ne {num i : ℕ} (h : IsNode num) : child num i ≠ num ∧ child num i ≠ 1 := by
  have hpos := h.pos
  unfold child branchingFactor
  omega

/-! ### The invariant -/

/-- Where the task of each node is. -/
abbrev Nodes (Task : Type*) := ℕ → Option (Task × Pc Task)

/-- How far the task of a node has got with its promise. -/
def Nodes.fulfiller (nodes : Nodes Task) (num : ℕ) : Fulfiller Task :=
  (nodes num).elim .absent fun node ↦ node.2.fulfiller

/-- What the promise of a node holds, as seen by the task of its parent, or by `bench` for that of
the root. -/
def Above (lastLayer : ℕ) (nodes : Nodes Task) (wakers : Multiset Task) (num : ℕ)
    (promise : SkynetPromise Task) (fulfiller : Fulfiller Task) : Prop :=
  if num = 1 then Facing (nodeResult lastLayer 1) .emptyPromise promise fulfiller
  else
    match nodes (num / branchingFactor) with
    | none => fulfiller.Over
    | some (task, pc) => Edge (nodeResult lastLayer num) task (task ∈ wakers) promise
        (pc.waiter (num % branchingFactor)) fulfiller

/-- What a task knows in the loops, and of the result that it is about to store. -/
def Pc.Good (lastLayer num : ℕ) : Pc Task → Prop
  | .forkLoop i => num < lastLayer ∧ i ≤ branchingFactor
  | .fork i => num < lastLayer ∧ i < branchingFactor
  | .creating i => num < lastLayer ∧ i < branchingFactor
  | .awaitLoop i sum => num < lastLayer ∧ i ≤ branchingFactor ∧
    sum = ∑ j ∈ Finset.range i, nodeResult lastLayer (child num j)
  | .await i sum _ => num < lastLayer ∧ i < branchingFactor ∧
    sum = ∑ j ∈ Finset.range i, nodeResult lastLayer (child num j)
  | .mustSleep i sum _ => num < lastLayer ∧ i < branchingFactor ∧
    sum = ∑ j ∈ Finset.range i, nodeResult lastLayer (child num j)
  | .readResult i sum => num < lastLayer ∧ i < branchingFactor ∧
    sum = ∑ j ∈ Finset.range i, nodeResult lastLayer (child num j)
  | .fulfill result _ => result = nodeResult lastLayer num
  | _ => True

/-- A task that is past the lock of a promise is about to read the result. -/
theorem Pc.exists_of_resumed {pc : Pc Task} {i : ℕ} (h : pc.waiter i = .resumed) :
    ∃ sum, pc = .readResult i sum := by
  cases pc with
  | readResult current sum =>
    simp only [Pc.waiter] at h
    split_ifs at h with hlt heq
    exact ⟨sum, by rw [heq]⟩
  | await current sum step =>
    simp only [Pc.waiter] at h
    split_ifs at h
    cases step <;> exact absurd h (by simp [AwaitStep.waiter])
  | mustSleep current sum step =>
    simp only [Pc.waiter] at h
    split_ifs at h
    cases step <;> exact absurd h (by simp [MustSleepStep.waiter])
  | start => exact absurd h (by simp [Pc.waiter])
  | fulfill result step => exact absurd h (by simp [Pc.waiter])
  | ret => exact absurd h (by simp [Pc.waiter])
  | finished => exact absurd h (by simp [Pc.waiter])
  | _ =>
    simp only [Pc.waiter] at h
    split_ifs at h

/-- A task reads one result at a time. -/
theorem Pc.eq_of_resumed {pc : Pc Task} {i j : ℕ} (hi : pc.waiter i = .resumed)
    (hj : pc.waiter j = .resumed) : i = j := by
  obtain ⟨sum, rfl⟩ := Pc.exists_of_resumed hi
  obtain ⟨sum', heq⟩ := Pc.exists_of_resumed hj
  exact (Pc.readResult.inj heq).1

/-- The child has not been created yet. -/
def Waiter.Unborn : Waiter Task → Prop
  | .unready => True
  | .ready => True
  | _ => False

/-- The tasks are where the protocol has them, and the tasks of some nodes have been created. -/
structure Protocol (lastLayer : ℕ) (s : TaskState Task (Code Task) (Promises Task))
    (nodes : Nodes Task) (created : Set ℕ) : Prop where
  codes : ∀ task num pc, s.codes task = some ⟨num, pc⟩ ↔ nodes num = some (task, pc)
  isNode : ∀ num task pc, nodes num = some (task, pc) → IsNode num
  good : ∀ num task pc, nodes num = some (task, pc) → pc.Good lastLayer num
  above : ∀ num, IsNode num →
    Above lastLayer nodes s.wakers num (s.shared num) (nodes.fulfiller num)
  asleep : ∀ task ∈ s.wakers, ∃ num i sum, nodes num = some (task, .readResult i sum)
  nodup : s.wakers.Nodup
  created_of_node : ∀ num node, nodes num = some node → num ∈ created
  created_parent : ∀ num ∈ created, num ≠ 1 → num / branchingFactor ∈ created
  unborn : ∀ num task pc i, nodes num = some (task, pc) → i < branchingFactor →
    (pc.waiter i).Unborn → child num i ∉ created

/-- The tasks are where the protocol has them. -/
def InProtocol (lastLayer : ℕ) (s : TaskState Task (Code Task) (Promises Task)) : Prop :=
  ∃ nodes created, Protocol lastLayer s nodes created

namespace Protocol

variable {lastLayer : ℕ} {s : TaskState Task (Code Task) (Promises Task)} {nodes : Nodes Task}
  {created : Set ℕ} {num : ℕ} {task : Task} {pc pc' : Pc Task} {promises : Promises Task}
  {wakers : Multiset Task}

theorem fulfiller_eq (hnode : nodes num = some (task, pc)) :
    nodes.fulfiller num = pc.fulfiller := by
  simp [Nodes.fulfiller, hnode]

/-- A task runs one node. -/
theorem eq_of_task (h : Protocol lastLayer s nodes created) {other : ℕ} {current : Pc Task}
    (hnode : nodes num = some (task, pc)) (hother : nodes other = some (task, current)) :
    other = num ∧ current = pc := by
  have heq := ((h.codes task num pc).mpr hnode).symm.trans ((h.codes task other current).mpr hother)
  obtain ⟨rfl, rfl⟩ := Code.mk.inj (Option.some.inj heq)
  exact ⟨rfl, rfl⟩

/-- What the promise of a child holds. -/
theorem edge (h : Protocol lastLayer s nodes created) (hnode : nodes num = some (task, pc)) {i : ℕ}
    (hi : i < branchingFactor) :
    Edge (nodeResult lastLayer (child num i)) task (task ∈ s.wakers) (s.shared (child num i))
      (pc.waiter i) (nodes.fulfiller (child num i)) := by
  have hisNode := h.isNode num task pc hnode
  have habove := h.above (child num i) (hisNode.child i)
  rw [Above, if_neg (child_ne hisNode).2, child_div hi, child_mod hi, hnode] at habove
  exact habove

variable [DecidableEq Task]

theorem codes_update (h : Protocol lastLayer s nodes created) (hnode : nodes num = some (task, pc))
    (other : Task) (otherNum : ℕ) (otherPc : Pc Task) :
    Function.update s.codes task (some ⟨num, pc'⟩) other = some ⟨otherNum, otherPc⟩ ↔
      Function.update nodes num (some (task, pc')) otherNum = some (other, otherPc) := by
  by_cases htask : other = task
  · subst htask
    rw [Function.update_self]
    by_cases hnum : otherNum = num
    · subst hnum
      rw [Function.update_self]
      simp
    · rw [Function.update_of_ne hnum]
      refine ⟨fun heq ↦ absurd ?_ hnum, fun hother ↦ absurd (h.eq_of_task hnode hother).1 hnum⟩
      exact (Code.mk.inj (Option.some.inj heq)).1.symm
  · rw [Function.update_of_ne htask, h.codes]
    by_cases hnum : otherNum = num
    · subst hnum
      rw [Function.update_self, hnode]
      simp [Ne.symm htask]
    · rw [Function.update_of_ne hnum]

omit [DecidableEq Task] in
/-- After the step of a node the promises above all nodes hold what they should, where its own and
those of its children do. -/
theorem above_update (h : Protocol lastLayer s nodes created)
    (hnode : nodes num = some (task, pc))
    (hpromises : ∀ other, other ≠ num → (∀ i < branchingFactor, other ≠ child num i) →
      promises other = s.shared other)
    (hup : Above lastLayer nodes wakers num (promises num) pc'.fulfiller)
    (hdown : ∀ i < branchingFactor, Edge (nodeResult lastLayer (child num i)) task (task ∈ wakers)
      (promises (child num i)) (pc'.waiter i) (nodes.fulfiller (child num i)))
    (hflags : ∀ other parent current, other ≠ num → other / branchingFactor ≠ num →
      nodes (other / branchingFactor) = some (parent, current) →
      current.waiter (other % branchingFactor) = .resumed →
      (parent ∈ s.wakers ↔ parent ∈ wakers))
    {other : ℕ} (hother : IsNode other) :
    Above lastLayer (Function.update nodes num (some (task, pc'))) wakers other (promises other)
      (Nodes.fulfiller (Function.update nodes num (some (task, pc'))) other) := by
  have hisNode := h.isNode num task pc hnode
  by_cases heq : other = num
  · subst heq
    rw [fulfiller_eq (Function.update_self ..)]
    unfold Above at hup ⊢
    rwa [Function.update_of_ne (div_ne hisNode)]
  have hfulfiller : Nodes.fulfiller (Function.update nodes num (some (task, pc'))) other =
      nodes.fulfiller other := by
    simp [Nodes.fulfiller, Function.update_of_ne heq]
  rw [hfulfiller]
  by_cases hparent : other / branchingFactor = num
  · have hchild : other = child num (other % branchingFactor) := by
      rw [← hparent, child_div_mod]
    have hne : other ≠ 1 := by
      rw [hchild]
      exact (child_ne hisNode).2
    rw [Above, if_neg hne, hparent, Function.update_self]
    have hedge := hdown _ (Nat.mod_lt other (by decide : 0 < branchingFactor))
    rwa [← hchild] at hedge
  · have hsame : promises other = s.shared other :=
      hpromises other heq fun i hi hchild ↦ hparent (hchild ▸ child_div hi)
    have habove := h.above other hother
    rw [hsame]
    unfold Above at habove ⊢
    rw [Function.update_of_ne hparent]
    split_ifs with hroot
    · rwa [if_pos hroot] at habove
    · rw [if_neg hroot] at habove
      cases hnodes : nodes (other / branchingFactor) with
      | none => rwa [hnodes] at habove
      | some parent =>
        rw [hnodes] at habove
        exact habove.asleep_congr (hflags other parent.1 parent.2 heq hparent hnodes)

/-- The task of a node takes a step, after which its promise and those of its children hold what
they should. -/
theorem update (h : Protocol lastLayer s nodes created) (hnode : nodes num = some (task, pc))
    (hgood : pc'.Good lastLayer num)
    (hpromises : ∀ other, other ≠ num → (∀ i < branchingFactor, other ≠ child num i) →
      promises other = s.shared other)
    (hup : Above lastLayer nodes wakers num (promises num) pc'.fulfiller)
    (hdown : ∀ i < branchingFactor, Edge (nodeResult lastLayer (child num i)) task (task ∈ wakers)
      (promises (child num i)) (pc'.waiter i) (nodes.fulfiller (child num i)))
    (hflags : ∀ other parent current, other ≠ num → other / branchingFactor ≠ num →
      nodes (other / branchingFactor) = some (parent, current) →
      current.waiter (other % branchingFactor) = .resumed →
      (parent ∈ s.wakers ↔ parent ∈ wakers))
    (hasleep : ∀ other ∈ wakers, ∃ sleeping i sum,
      Function.update nodes num (some (task, pc')) sleeping = some (other, .readResult i sum))
    (hnodup : wakers.Nodup)
    (hunborn : ∀ i < branchingFactor, (pc'.waiter i).Unborn → (pc.waiter i).Unborn) :
    Protocol lastLayer
      { codes := Function.update s.codes task (some ⟨num, pc'⟩)
        shared := promises
        wakers := wakers }
      (Function.update nodes num (some (task, pc'))) created := by
  refine
    { codes := h.codes_update hnode
      isNode := fun other current otherPc hother ↦ ?_
      good := fun other current otherPc hother ↦ ?_
      above := fun _ ↦ h.above_update hnode hpromises hup hdown hflags
      asleep := hasleep
      nodup := hnodup
      created_of_node := fun other node hother ↦ ?_
      created_parent := h.created_parent
      unborn := fun other current otherPc i hother hi hwaiter ↦ ?_ }
  · by_cases heq : other = num
    · rw [heq]
      exact h.isNode num task pc hnode
    · rw [Function.update_of_ne heq] at hother
      exact h.isNode other current otherPc hother
  · by_cases heq : other = num
    · subst heq
      rw [Function.update_self] at hother
      obtain ⟨rfl, rfl⟩ := Prod.mk.inj (Option.some.inj hother)
      exact hgood
    · rw [Function.update_of_ne heq] at hother
      exact h.good other current otherPc hother
  · by_cases heq : other = num
    · rw [heq]
      exact h.created_of_node num _ hnode
    · rw [Function.update_of_ne heq] at hother
      exact h.created_of_node other node hother
  · by_cases heq : other = num
    · subst heq
      rw [Function.update_self] at hother
      obtain ⟨rfl, rfl⟩ := Prod.mk.inj (Option.some.inj hother)
      exact h.unborn other task pc i hnode hi (hunborn i hi hwaiter)
    · rw [Function.update_of_ne heq] at hother
      exact h.unborn other current otherPc i hother hi hwaiter

/-- Assumes: the task is awake. It takes a step that hands out no waker. -/
theorem updateAwake (h : Protocol lastLayer s nodes created) (hnode : nodes num = some (task, pc))
    (hawake : task ∉ s.wakers) (hgood : pc'.Good lastLayer num)
    (hpromises : ∀ other, other ≠ num → (∀ i < branchingFactor, other ≠ child num i) →
      promises other = s.shared other)
    (hup : Above lastLayer nodes s.wakers num (promises num) pc'.fulfiller)
    (hdown : ∀ i < branchingFactor, Edge (nodeResult lastLayer (child num i)) task False
      (promises (child num i)) (pc'.waiter i) (nodes.fulfiller (child num i)))
    (hunborn : ∀ i < branchingFactor, (pc'.waiter i).Unborn → (pc.waiter i).Unborn) :
    InProtocol lastLayer
      { s with codes := Function.update s.codes task (some ⟨num, pc'⟩), shared := promises } := by
  refine ⟨_, created, h.update hnode hgood hpromises hup
    (fun i hi ↦ (hdown i hi).asleep_congr fun _ ↦ (iff_false_intro hawake).symm)
    (fun _ _ _ _ _ _ _ ↦ Iff.rfl) (fun other hother ↦ ?_) h.nodup hunborn⟩
  obtain ⟨sleeping, i, sum, hsleeping⟩ := h.asleep other hother
  refine ⟨sleeping, i, sum, ?_⟩
  rwa [Function.update_of_ne]
  rintro rfl
  rw [hnode] at hsleeping
  exact hawake ((Prod.mk.inj (Option.some.inj hsleeping)).1 ▸ hother)

omit [DecidableEq Task] in
/-- What the promise of a child holds, for a task that is awake. -/
theorem edgeAwake (h : Protocol lastLayer s nodes created) (hnode : nodes num = some (task, pc))
    (hawake : task ∉ s.wakers) {i : ℕ} (hi : i < branchingFactor) :
    Edge (nodeResult lastLayer (child num i)) task False (s.shared (child num i))
      (pc.waiter i) (nodes.fulfiller (child num i)) :=
  (h.edge hnode hi).asleep_congr fun _ ↦ iff_false_intro hawake

/-- A step that concerns no promise. -/
theorem updateQuiet (h : Protocol lastLayer s nodes created) (hnode : nodes num = some (task, pc))
    (hawake : task ∉ s.wakers) (hgood : pc'.Good lastLayer num)
    (hfulfiller : pc'.fulfiller = pc.fulfiller)
    (hwaiter : ∀ i < branchingFactor, pc'.waiter i = pc.waiter i) :
    InProtocol lastLayer
      { s with codes := Function.update s.codes task (some ⟨num, pc'⟩) } := by
  refine h.updateAwake hnode hawake hgood (fun _ _ _ ↦ rfl) ?_ (fun i hi ↦ ?_)
    fun i hi hborn ↦ hwaiter i hi ▸ hborn
  · rw [hfulfiller, ← fulfiller_eq hnode]
    exact h.above num (h.isNode num task pc hnode)
  · rw [hwaiter i hi]
    exact h.edgeAwake hnode hawake hi

/-- A step that concerns the promise of the task. -/
theorem updateUp (h : Protocol lastLayer s nodes created) (hnode : nodes num = some (task, pc))
    (hawake : task ∉ s.wakers) (hgood : pc'.Good lastLayer num) {promise : SkynetPromise Task}
    (hfacing : ∀ result recorded, result = nodeResult lastLayer num →
      Facing result recorded (s.shared num) pc.fulfiller →
        Facing result recorded promise pc'.fulfiller)
    (hedge : ∀ result parent asleep waiter, result = nodeResult lastLayer num →
      Edge result parent asleep (s.shared num) waiter pc.fulfiller →
        Edge result parent asleep promise waiter pc'.fulfiller)
    (hover : pc.fulfiller.Over → pc'.fulfiller.Over)
    (hwaiter : ∀ i < branchingFactor, pc'.waiter i = pc.waiter i) :
    InProtocol lastLayer
      { s with
        codes := Function.update s.codes task (some ⟨num, pc'⟩)
        shared := s.shared.write num promise } := by
  have hisNode := h.isNode num task pc hnode
  refine h.updateAwake hnode hawake hgood (fun other hne _ ↦ Function.update_of_ne hne ..) ?_
    (fun i hi ↦ ?_) fun i hi hborn ↦ hwaiter i hi ▸ hborn
  · have habove := h.above num hisNode
    rw [fulfiller_eq hnode] at habove
    unfold Above Promises.write at *
    rw [Function.update_self]
    split_ifs at habove ⊢ with hroot
    · exact hfacing _ _ (by rw [hroot]) habove
    · cases hparent : nodes (num / branchingFactor) with
      | none =>
        rw [hparent] at habove
        exact hover habove
      | some parent =>
        rw [hparent] at habove
        exact hedge _ _ _ _ rfl habove
  · rw [hwaiter i hi, Promises.write, Function.update_of_ne (child_ne hisNode).1]
    exact h.edgeAwake hnode hawake hi

/-- A step that concerns the promise of a child. -/
theorem updateDown (h : Protocol lastLayer s nodes created) (hnode : nodes num = some (task, pc))
    (hawake : task ∉ s.wakers) (hgood : pc'.Good lastLayer num) {i : ℕ} (hi : i < branchingFactor)
    {promise : SkynetPromise Task} (hfulfiller : pc'.fulfiller = pc.fulfiller)
    (hedge : ∀ result fulfiller, Edge result task False (s.shared (child num i)) (pc.waiter i)
      fulfiller → Edge result task False promise (pc'.waiter i) fulfiller)
    (hunborn : (pc'.waiter i).Unborn → (pc.waiter i).Unborn)
    (hwaiter : ∀ j < branchingFactor, j ≠ i → pc'.waiter j = pc.waiter j) :
    InProtocol lastLayer
      { s with
        codes := Function.update s.codes task (some ⟨num, pc'⟩)
        shared := s.shared.write (child num i) promise } := by
  have hisNode := h.isNode num task pc hnode
  refine h.updateAwake hnode hawake hgood (fun other _ hne ↦ Function.update_of_ne (hne i hi) ..)
    ?_ (fun j hj ↦ ?_) fun j hj hborn ↦ ?_
  · rw [hfulfiller, ← fulfiller_eq hnode, Promises.write,
      Function.update_of_ne (child_ne hisNode).1.symm]
    exact h.above num hisNode
  · unfold Promises.write
    by_cases heq : j = i
    · subst heq
      rw [Function.update_self]
      exact hedge _ _ (h.edgeAwake hnode hawake hj)
    · rw [hwaiter j hj heq, Function.update_of_ne]
      · exact h.edgeAwake hnode hawake hj
      · intro hchild
        rw [← child_mod hj, hchild, child_mod hi] at heq
        exact heq rfl
  · by_cases heq : j = i
    · subst heq
      exact hunborn hborn
    · exact hwaiter j hj heq ▸ hborn

/-! ### The steps of a task -/

/-- A step of the task that fulfills its promise. -/
theorem fulfill (h : Protocol lastLayer s nodes created) {result : ℤ} {step : FulfillStep Task}
    (hnode : nodes num = some (task, .fulfill result step)) (hawake : task ∉ s.wakers)
    {next : Pc Task × SkynetPromise Task}
    (hadvance : step.advance (s.shared num) result = some next) :
    InProtocol lastLayer
      { s with
        codes := Function.update s.codes task (some ⟨num, next.1⟩)
        shared := s.shared.write num next.2 } := by
  have hgood : result = nodeResult lastLayer num := h.good num task _ hnode
  have hshape : next.1.Good lastLayer num ∧ ∀ i, next.1.waiter i = .past := by
    cases step with
    | acquire =>
      simp only [FulfillStep.advance] at hadvance
      split_ifs at hadvance <;> rw [← Option.some.inj hadvance] <;> exact ⟨hgood, fun _ ↦ rfl⟩
    | release previousState =>
      cases previousState with
      | waker waker =>
        rw [← Option.some.inj hadvance]
        exact ⟨hgood, fun _ ↦ rfl⟩
      | _ =>
        rw [← Option.some.inj hadvance]
        exact ⟨trivial, fun _ ↦ rfl⟩
    | wake waker => exact absurd hadvance (by simp [FulfillStep.advance])
    | _ =>
      rw [← Option.some.inj hadvance]
      exact ⟨hgood, fun _ ↦ rfl⟩
  refine h.updateUp hnode hawake hshape.1 ?_ ?_ ?_ fun i _ ↦ hshape.2 i
  · rintro _ recorded rfl hfacing
    exact (Facing.fulfill hfacing (hgood ▸ hadvance)).1
  · rintro _ parent asleep waiter rfl hedge
    exact Edge.fulfill hedge (hgood ▸ hadvance)
  · intro hover
    cases step <;> exact absurd hover id

/-- A step of the task that waits for a promise. -/
theorem await (h : Protocol lastLayer s nodes created) {i : ℕ} {sum : ℤ} {step : AwaitStep Task}
    (hnode : nodes num = some (task, .await i sum step)) (hawake : task ∉ s.wakers)
    {next : Pc Task × SkynetPromise Task}
    (hadvance : step.advance (s.shared (child num i)) i sum = some next) :
    InProtocol lastLayer
      { s with
        codes := Function.update s.codes task (some ⟨num, next.1⟩)
        shared := s.shared.write (child num i) next.2 } := by
  have hgood := h.good num task _ hnode
  have hshape : (∃ step', next.1 = .await i sum step') ∨ next.1 = .readResult i sum := by
    cases step with
    | acquire =>
      simp only [AwaitStep.advance] at hadvance
      split_ifs at hadvance <;> rw [← Option.some.inj hadvance] <;> exact .inl ⟨_, rfl⟩
    | loadState =>
      rw [← Option.some.inj hadvance]
      exact .inl ⟨_, rfl⟩
    | release state =>
      cases state with
      | fulfilled =>
        rw [← Option.some.inj hadvance]
        exact .inr rfl
      | _ =>
        rw [← Option.some.inj hadvance]
        exact .inl ⟨_, rfl⟩
    | sleep => exact absurd hadvance (by simp [AwaitStep.advance])
  refine h.updateDown hnode hawake ?_ hgood.2.1 ?_ ?_ ?_ ?_
  · rcases hshape with ⟨step', hnext⟩ | hnext <;> rw [hnext] <;> exact hgood
  · rcases hshape with ⟨step', hnext⟩ | hnext <;> rw [hnext] <;> rfl
  · intro result fulfiller hedge
    rw [Pc.waiter_await] at hedge
    exact hedge.await id hadvance
  · intro hborn
    rcases hshape with ⟨step', hnext⟩ | hnext
    · rw [hnext, Pc.waiter_await] at hborn
      cases step' <;> exact absurd hborn id
    · rw [hnext, Pc.waiter_readResult] at hborn
      exact absurd hborn id
  · intro j _ hne
    rcases hshape with ⟨step', hnext⟩ | hnext <;> rw [hnext] <;> simp [Pc.waiter, hne]

/-- A step of `must_sleep`, but for the last. -/
theorem mustSleep (h : Protocol lastLayer s nodes created) {i : ℕ} {sum : ℤ}
    {step : MustSleepStep Task} (hnode : nodes num = some (task, .mustSleep i sum step))
    (hawake : task ∉ s.wakers)
    {next : Pc Task × SkynetPromise Task}
    (hadvance : step.advance task (s.shared (child num i)) i sum = some next) :
    InProtocol lastLayer
      { s with
        codes := Function.update s.codes task (some ⟨num, next.1⟩)
        shared := s.shared.write (child num i) next.2 } := by
  have hgood := h.good num task _ hnode
  have hshape : ∃ step', next.1 = .mustSleep i sum step' := by
    cases step with
    | acquire =>
      simp only [MustSleepStep.advance] at hadvance
      split_ifs at hadvance <;> rw [← Option.some.inj hadvance] <;> exact ⟨_, rfl⟩
    | loadState =>
      simp only [MustSleepStep.advance] at hadvance
      split at hadvance <;> rw [← Option.some.inj hadvance] <;> exact ⟨_, rfl⟩
    | storeWaker =>
      rw [← Option.some.inj hadvance]
      exact ⟨_, rfl⟩
    | release state => exact absurd hadvance (by simp [MustSleepStep.advance])
  obtain ⟨step', hnext⟩ := hshape
  refine h.updateDown hnode hawake ?_ hgood.2.1 ?_ ?_ ?_ ?_
  · rw [hnext]
    exact hgood
  · rw [hnext]
    rfl
  · intro result fulfiller hedge
    rw [Pc.waiter_mustSleep] at hedge
    exact hedge.mustSleep hadvance
  · rw [hnext, Pc.waiter_mustSleep]
    intro hborn
    cases step' <;> exact absurd hborn id
  · intro j _ hne
    rw [hnext]
    simp [Pc.waiter, hne]

/-- A task reads the result of a child. -/
theorem readResult (h : Protocol lastLayer s nodes created) {i : ℕ} {sum : ℤ}
    (hnode : nodes num = some (task, .readResult i sum)) (hawake : task ∉ s.wakers) :
    InProtocol lastLayer
      { s with
        codes := Function.update s.codes task
          (some ⟨num, .awaitLoop (i + 1) (sum + (s.shared (child num i)).result)⟩) } := by
  have hgood := h.good num task _ hnode
  have hedge := h.edgeAwake hnode hawake hgood.2.1
  rw [Pc.waiter_readResult] at hedge
  obtain ⟨hresult, hover⟩ := hedge.readResult id
  have hsum : (Pc.awaitLoop (i + 1) (sum + (s.shared (child num i)).result) : Pc Task).Good
      lastLayer num := by
    refine ⟨hgood.1, hgood.2.1, ?_⟩
    rw [Finset.sum_range_succ, hresult, ← hgood.2.2]
  have hborn : ∀ j < branchingFactor, ((Pc.awaitLoop (i + 1)
      (sum + (s.shared (child num i)).result) : Pc Task).waiter j).Unborn →
        ((Pc.readResult i sum : Pc Task).waiter j).Unborn := by
    intro j _ hborn
    simp only [Pc.waiter] at hborn
    split_ifs at hborn <;> exact absurd hborn id
  refine h.updateAwake hnode hawake hsum (fun _ _ _ ↦ rfl) ?_ (fun j hj ↦ ?_) hborn
  · have habove := h.above num (h.isNode num task _ hnode)
    rwa [fulfiller_eq hnode] at habove
  · by_cases heq : j = i
    · subst heq
      have hpast : (Pc.awaitLoop (j + 1) (sum + (s.shared (child num j)).result) :
          Pc Task).waiter j = .past := by simp [Pc.waiter]
      rw [hpast]
      exact hover
    · have hsame : (Pc.awaitLoop (i + 1) (sum + (s.shared (child num i)).result) :
          Pc Task).waiter j = (Pc.readResult i sum).waiter j := by
        have hiff : j < i + 1 ↔ j < i := by omega
        simp only [Pc.waiter, if_neg heq, hiff]
      rw [hsame]
      exact h.edgeAwake hnode hawake hj

/-- A step of a task on its own. -/
theorem advance (h : Protocol lastLayer s nodes created) (hnode : nodes num = some (task, pc))
    (hawake : task ∉ s.wakers) {after : Code Task}
    (hadvance : Code.advance lastLayer ⟨num, pc⟩ s.shared = some (after, promises)) :
    InProtocol lastLayer
      { s with codes := Function.update s.codes task (some after), shared := promises } := by
  have hgood := h.good num task pc hnode
  have hisNode := h.isNode num task pc hnode
  cases pc with
  | start =>
    simp only [Code.advance] at hadvance
    split_ifs at hadvance with hleaf <;> obtain ⟨rfl, rfl⟩ := Prod.mk.inj (Option.some.inj hadvance)
    · refine h.updateAwake hnode hawake (nodeResult_of_le hleaf).symm (fun _ _ _ ↦ rfl) ?_
        (fun i hi ↦ ?_) fun _ _ hborn ↦ absurd hborn id
      · have habove := h.above num hisNode
        rwa [fulfiller_eq hnode] at habove
      · have habsent : nodes.fulfiller (child num i) = .absent := h.edge hnode hi
        rw [habsent]
        exact trivial
    · exact h.updateQuiet hnode hawake ⟨not_le.mp hleaf, Nat.zero_le _⟩ rfl fun i _ ↦ by
        simp [Pc.waiter]
  | forkLoop i =>
    simp only [Code.advance] at hadvance
    split_ifs at hadvance with hi <;> obtain ⟨rfl, rfl⟩ := Prod.mk.inj (Option.some.inj hadvance)
    · have hfork : (Pc.fork i : Pc Task).Good lastLayer num := ⟨hgood.1, hi⟩
      refine h.updateDown hnode hawake hfork hi rfl ?_ ?_ ?_
      · intro result fulfiller hedge
        have habsent : fulfiller = .absent := by simpa [Pc.waiter, Edge] using hedge
        simp [Pc.waiter, Edge, initPromise, habsent]
      · intro _
        simp [Pc.waiter, Waiter.Unborn]
      · intro j _ hne
        simp [Pc.waiter, hne]
    · have hloop : (Pc.awaitLoop 0 0 : Pc Task).Good lastLayer num :=
        ⟨hgood.1, Nat.zero_le _, by simp⟩
      refine h.updateQuiet hnode hawake hloop rfl fun j hj ↦ ?_
      simp [Pc.waiter, lt_of_lt_of_le hj (not_lt.mp hi)]
  | awaitLoop i sum =>
    simp only [Code.advance] at hadvance
    split_ifs at hadvance with hi <;> obtain ⟨rfl, rfl⟩ := Prod.mk.inj (Option.some.inj hadvance)
    · refine h.updateQuiet hnode hawake ⟨hgood.1, hi, hgood.2.2⟩ rfl fun j _ ↦ ?_
      simp only [Pc.waiter, AwaitStep.waiter]
      split_ifs <;> rfl
    · obtain rfl : i = branchingFactor := le_antisymm hgood.2.1 (not_lt.mp hi)
      refine h.updateQuiet hnode hawake ?_ rfl fun j hj ↦ ?_
      · exact hgood.2.2.trans (nodeResult_of_lt hisNode.pos hgood.1).symm
      · simp [Pc.waiter, hj]
  | await i sum step =>
    obtain ⟨next, hnext, heq⟩ := Option.map_eq_some_iff.mp hadvance
    obtain ⟨rfl, rfl⟩ := Prod.mk.inj heq
    exact h.await hnode hawake hnext
  | readResult i sum =>
    obtain ⟨rfl, rfl⟩ := Prod.mk.inj (Option.some.inj hadvance)
    exact h.readResult hnode hawake
  | fulfill result step =>
    obtain ⟨next, hnext, heq⟩ := Option.map_eq_some_iff.mp hadvance
    obtain ⟨rfl, rfl⟩ := Prod.mk.inj heq
    exact h.fulfill hnode hawake hnext
  | _ => exact absurd hadvance (by simp [Code.advance])

omit [DecidableEq Task] in
/-- What the promise of a task holds that still uses it: that of a child of a task. -/
theorem parent (h : Protocol lastLayer s nodes created) (hnode : nodes num = some (task, pc))
    (hroot : num ≠ 1) (hover : ¬ pc.fulfiller.Over) :
    ∃ parent current, nodes (num / branchingFactor) = some (parent, current) ∧
      Edge (nodeResult lastLayer num) parent (parent ∈ s.wakers) (s.shared num)
        (current.waiter (num % branchingFactor)) pc.fulfiller := by
  have habove := h.above num (h.isNode num task _ hnode)
  rw [fulfiller_eq hnode, Above, if_neg hroot] at habove
  cases hparent : nodes (num / branchingFactor) with
  | none =>
    rw [hparent] at habove
    exact absurd habove hover
  | some node =>
    rw [hparent] at habove
    exact ⟨node.1, node.2, rfl, habove⟩

omit [DecidableEq Task] in
/-- The task that is about to be woken is that of the parent. -/
theorem sleeping (h : Protocol lastLayer s nodes created) {result : ℤ} {waker : Task}
    (hnode : nodes num = some (task, .fulfill result (.wake waker))) :
    num ≠ 1 ∧ ∃ current, nodes (num / branchingFactor) = some (waker, current) ∧
      Edge (nodeResult lastLayer num) waker (waker ∈ s.wakers) (s.shared num)
        (current.waiter (num % branchingFactor)) (.waking waker) := by
  -- The root is awaited by no task, so the promise is that of a child of the task that is woken.
  have hroot : num ≠ 1 := by
    rintro rfl
    have habove := h.above 1 (.inl rfl)
    rw [fulfiller_eq hnode, Above, if_pos rfl] at habove
    exact absurd habove.2.2 (by simp)
  obtain ⟨parent, current, hparent, hedge⟩ := h.parent hnode hroot id
  obtain ⟨-, -, rfl, -⟩ := Edge.wake hedge
  exact ⟨hroot, current, hparent, hedge⟩

/-- The task that fulfills a promise wakes the one that sleeps on it. -/
theorem wake (h : Protocol lastLayer s nodes created) {result : ℤ} {waker : Task}
    (hnode : nodes num = some (task, .fulfill result (.wake waker))) (hawake : task ∉ s.wakers) :
    waker ∈ s.wakers ∧ InProtocol lastLayer
      { s with
        codes := Function.update s.codes task (some ⟨num, .finished⟩)
        wakers := s.wakers - ([waker] : List Task) } := by
  obtain ⟨hroot, current, hparent, hedge⟩ := h.sleeping hnode
  obtain ⟨hresumed, hasleep, -, hdone⟩ := Edge.wake hedge
  have hwakers : s.wakers - (([waker] : List Task) : Multiset Task) = s.wakers.erase waker :=
    Multiset.sub_singleton ..
  have hnotMem : waker ∉ s.wakers - (([waker] : List Task) : Multiset Task) := by
    rw [hwakers]
    exact h.nodup.notMem_erase
  have hmem : ∀ {other : Task}, other ≠ waker →
      (other ∈ s.wakers ↔ other ∈ s.wakers - (([waker] : List Task) : Multiset Task)) := by
    intro other hne
    rw [hwakers, Multiset.mem_erase_of_ne hne]
  have hfinished : (Pc.finished : Pc Task).Good lastLayer num := trivial
  refine ⟨hasleep, _, created, h.update hnode hfinished (fun _ _ _ ↦ rfl) ?_ (fun i hi ↦ ?_) ?_ ?_
    ?_ fun _ _ hborn ↦ absurd hborn id⟩
  · rw [Above, if_neg hroot, hparent]
    exact hdone _ hnotMem
  · have hself : task ∉ s.wakers - (([waker] : List Task) : Multiset Task) :=
      fun hin ↦ hawake (Multiset.mem_of_le (Multiset.sub_le_self _ _) hin)
    exact (h.edgeAwake hnode hawake hi).asleep_congr fun _ ↦ (iff_false_intro hself).symm
  · intro other current pc hne _ hcurrent hwaiter
    refine hmem fun heq ↦ hne ?_
    obtain ⟨hsame, hpc⟩ := h.eq_of_task hparent (heq ▸ hcurrent)
    rw [hpc] at hwaiter
    have hunique : other % branchingFactor = num % branchingFactor :=
      Pc.eq_of_resumed hwaiter hresumed
    rw [← child_div_mod other, ← child_div_mod num, hsame, hunique]
  · intro other hother
    have hin := Multiset.mem_of_le (Multiset.sub_le_self _ _) hother
    obtain ⟨sleeping, i, sum, hsleeping⟩ := h.asleep other hin
    refine ⟨sleeping, i, sum, ?_⟩
    rwa [Function.update_of_ne]
    rintro rfl
    rw [hnode] at hsleeping
    exact absurd (Prod.mk.inj (Option.some.inj hsleeping)).2 (by simp)
  · rw [hwakers]
    exact h.nodup.erase _

/-- A task performs a request. The wakers that it uses have been handed out. -/
theorem request (h : Protocol lastLayer s nodes created) (hnode : nodes num = some (task, pc))
    (hawake : task ∉ s.wakers) {after : Code Task} {request : Request Task Unit Unit}
    (hrequest : Code.request ⟨num, pc⟩ = some (request, after)) :
    (request.woken : Multiset Task) ≤ s.wakers ∧ InProtocol lastLayer
      { s with
        codes := Function.update s.codes task (some after)
        wakers := s.wakers - request.woken } := by
  have hgood := h.good num task pc hnode
  have hquiet : ∀ {pc' : Pc Task}, (InProtocol lastLayer
      { s with codes := Function.update s.codes task (some ⟨num, pc'⟩) }) →
      (([] : List Task) : Multiset Task) ≤ s.wakers ∧ InProtocol lastLayer
      { s with
        codes := Function.update s.codes task (some ⟨num, pc'⟩)
        wakers := s.wakers - ([] : List Task) } := by
    intro pc' hnext
    refine ⟨Multiset.zero_le _, ?_⟩
    rw [Multiset.coe_nil, Multiset.sub_zero]
    exact hnext
  cases pc with
  | fork i =>
    obtain ⟨rfl, rfl⟩ := Prod.mk.inj (Option.some.inj hrequest)
    exact hquiet (h.updateQuiet hnode hawake hgood rfl fun _ _ ↦ rfl)
  | await i sum step =>
    cases step with
    | sleep =>
      obtain ⟨rfl, rfl⟩ := Prod.mk.inj (Option.some.inj hrequest)
      exact hquiet (h.updateQuiet hnode hawake hgood rfl fun _ _ ↦ rfl)
    | _ => exact absurd hrequest (by simp [Code.request])
  | fulfill result step =>
    cases step with
    | wake waker =>
      obtain ⟨rfl, rfl⟩ := Prod.mk.inj (Option.some.inj hrequest)
      obtain ⟨hmem, hnext⟩ := h.wake hnode hawake
      exact ⟨Multiset.singleton_le.mpr hmem, hnext⟩
    | _ => exact absurd hrequest (by simp [Code.request])
  | ret =>
    obtain ⟨rfl, rfl⟩ := Prod.mk.inj (Option.some.inj hrequest)
    exact hquiet (h.updateQuiet hnode hawake trivial rfl fun _ _ ↦ rfl)
  | _ => exact absurd hrequest (by simp [Code.request])

/-- The end of `must_sleep`, where the waker is handed out if the promise was empty. -/
theorem release (h : Protocol lastLayer s nodes created) {i : ℕ} {sum : ℤ}
    {state : PromiseState Task} (hnode : nodes num = some (task, .mustSleep i sum (.release state)))
    (hawake : task ∉ s.wakers)
    (hwakers : ∀ other, other ∈ wakers ↔ other = task ∧ state = .emptyPromise ∨ other ∈ s.wakers)
    (hnodup : wakers.Nodup) :
    InProtocol lastLayer
      { codes := Function.update s.codes task (some ⟨num, .readResult i sum⟩)
        shared := s.shared.write (child num i) { s.shared (child num i) with locked := false }
        wakers := wakers } := by
  have hgood := h.good num task _ hnode
  have hisNode := h.isNode num task _ hnode
  have hedge := h.edge hnode hgood.2.1
  rw [Pc.waiter_mustSleep] at hedge
  have htask : task ∈ wakers ↔ state = .emptyPromise := by simp [hwakers, hawake]
  have hother : ∀ {other : Task}, other ≠ task → (other ∈ s.wakers ↔ other ∈ wakers) := by
    intro other hne
    simp [hwakers, hne]
  have hread : (Pc.readResult i sum : Pc Task).Good lastLayer num := hgood
  refine ⟨_, created, h.update hnode hread
    (fun other _ hne ↦ Function.update_of_ne (hne i hgood.2.1) ..) ?_ (fun j hj ↦ ?_)
    (fun other parent current _ hne hcurrent _ ↦ ?_) (fun other hmem ↦ ?_) hnodup
    fun j _ hborn ↦ ?_⟩
  · have habove := h.above num hisNode
    rw [fulfiller_eq hnode] at habove
    unfold Above Promises.write at *
    rw [Function.update_of_ne (child_ne hisNode).1.symm]
    split_ifs at habove ⊢ with hroot
    · exact habove
    · cases hparent : nodes (num / branchingFactor) with
      | none =>
        rw [hparent] at habove
        exact habove
      | some parent =>
        rw [hparent] at habove
        refine habove.asleep_congr fun _ ↦ hother ?_
        rintro rfl
        exact div_ne hisNode (h.eq_of_task hnode hparent).1
  · unfold Promises.write
    by_cases heq : j = i
    · subst heq
      rw [Function.update_self, Pc.waiter_readResult]
      exact (Edge.answer hedge).asleep_congr fun _ ↦ htask.symm
    · have hsame : (Pc.readResult i sum : Pc Task).waiter j =
          (Pc.mustSleep i sum (.release state)).waiter j := by simp [Pc.waiter, heq]
      rw [hsame, Function.update_of_ne]
      · refine (h.edge hnode hj).asleep_congr fun hresumed ↦ ?_
        simp only [Pc.waiter, if_neg heq] at hresumed
        split_ifs at hresumed
      · intro hchild
        rw [← child_mod hj, hchild, child_mod hgood.2.1] at heq
        exact heq rfl
  · refine hother ?_
    rintro rfl
    exact hne (h.eq_of_task hnode hcurrent).1
  · by_cases heq : other = task
    · exact ⟨num, i, sum, by rw [Function.update_self, heq]⟩
    · obtain ⟨sleeping, j, sum', hsleeping⟩ := h.asleep other ((hother heq).mpr hmem)
      refine ⟨sleeping, j, sum', ?_⟩
      rwa [Function.update_of_ne]
      rintro rfl
      rw [hnode] at hsleeping
      exact heq (Prod.mk.inj (Option.some.inj hsleeping)).1.symm
  · simp only [Pc.waiter] at hborn
    split_ifs at hborn <;> exact absurd hborn id

/-- The end of `must_sleep`. -/
theorem answer (h : Protocol lastLayer s nodes created) (hnode : nodes num = some (task, pc))
    (hawake : task ∉ s.wakers) {after : Code Task} {asleep : Bool}
    (hanswer : Code.answer ⟨num, pc⟩ s.shared = some (asleep, after, promises)) :
    InProtocol lastLayer
      { codes := Function.update s.codes task (some after)
        shared := promises
        wakers := if asleep then task ::ₘ s.wakers else s.wakers } := by
  have hgood := h.good num task pc hnode
  have hisNode := h.isNode num task pc hnode
  cases pc with
  | mustSleep i sum step =>
    cases step with
    | release state =>
      obtain ⟨rfl, heq⟩ := Prod.mk.inj (Option.some.inj hanswer)
      obtain ⟨rfl, rfl⟩ := Prod.mk.inj heq
      cases state with
      | emptyPromise =>
        exact h.release hnode hawake (fun other ↦ by simp)
          (Multiset.nodup_cons.mpr ⟨hawake, h.nodup⟩)
      | _ => exact h.release hnode hawake (fun other ↦ by simp) h.nodup
    | _ => exact absurd hanswer (by simp [Code.answer])
  | _ => exact absurd hanswer (by simp [Code.answer])

omit [DecidableEq Task] in
theorem eq_none_of_absent (habsent : nodes.fulfiller num = .absent) : nodes num = none := by
  cases hnode : nodes num with
  | none => rfl
  | some node =>
    obtain ⟨task, pc⟩ := node
    rw [fulfiller_eq hnode] at habsent
    cases pc with
    | fulfill result step => cases step <;> exact absurd habsent (by simp [Pc.fulfiller,
        FulfillStep.fulfiller])
    | _ => exact absurd habsent (by simp [Pc.fulfiller])

theorem codes_insert {codes : Task → Option (Code Task)} {fresh : Task}
    (hcodes : ∀ task num pc, codes task = some ⟨num, pc⟩ ↔ nodes num = some (task, pc))
    (hfresh : codes fresh = none) (hnone : nodes num = none) (other : Task) (otherNum : ℕ)
    (otherPc : Pc Task) :
    Function.update codes fresh (some ⟨num, pc⟩) other = some ⟨otherNum, otherPc⟩ ↔
      Function.update nodes num (some (fresh, pc)) otherNum = some (other, otherPc) := by
  by_cases htask : other = fresh
  · subst htask
    rw [Function.update_self]
    by_cases hnum : otherNum = num
    · subst hnum
      rw [Function.update_self]
      simp
    · rw [Function.update_of_ne hnum, ← hcodes, hfresh]
      simp [Ne.symm hnum]
  · rw [Function.update_of_ne htask, hcodes]
    by_cases hnum : otherNum = num
    · subst hnum
      rw [Function.update_self, hnone]
      simp [Ne.symm htask]
    · rw [Function.update_of_ne hnum]

/-! ### The creation of a task -/

/-- The nodes after a task has been created for a child. -/
def forkedNodes (nodes : Nodes Task) (num : ℕ) (task : Task) (i : ℕ) (fresh : Task) : Nodes Task :=
  Function.update (Function.update nodes num (some (task, .forkLoop (i + 1)))) (child num i)
    (some (fresh, .start))

section Creating

variable {i : ℕ} {fresh : Task} {other : ℕ}

omit [DecidableEq Task]

theorem forkedNodes_self (hisNode : IsNode num) :
    forkedNodes nodes num task i fresh num = some (task, .forkLoop (i + 1)) := by
  rw [forkedNodes, Function.update_of_ne (child_ne hisNode).1.symm, Function.update_self]

theorem forkedNodes_child :
    forkedNodes nodes num task i fresh (child num i) = some (fresh, .start) :=
  Function.update_self ..

theorem forkedNodes_of_ne (hne : other ≠ num) (hchild : other ≠ child num i) :
    forkedNodes nodes num task i fresh other = nodes other := by
  rw [forkedNodes, Function.update_of_ne hchild, Function.update_of_ne hne]

theorem fulfiller_forkedNodes (hne : other ≠ num) (hchild : other ≠ child num i) :
    Nodes.fulfiller (forkedNodes nodes num task i fresh) other = nodes.fulfiller other := by
  rw [Nodes.fulfiller, forkedNodes_of_ne hne hchild]
  rfl

theorem forkedNodes_cases (hisNode : IsNode num) {node : Task × Pc Task}
    (hother : forkedNodes nodes num task i fresh other = some node) :
    other = num ∧ node = (task, .forkLoop (i + 1)) ∨
      other = child num i ∧ node = (fresh, .start) ∨
        other ≠ num ∧ other ≠ child num i ∧ nodes other = some node := by
  by_cases heq : other = num
  · subst heq
    exact .inl ⟨rfl, Option.some.inj (hother.symm.trans (forkedNodes_self hisNode))⟩
  · by_cases hchild : other = child num i
    · subst hchild
      exact .inr (.inl ⟨rfl, Option.some.inj (hother.symm.trans forkedNodes_child)⟩)
    · rw [forkedNodes_of_ne heq hchild] at hother
      exact .inr (.inr ⟨heq, hchild, hother⟩)

theorem waiter_forkLoop {j : ℕ} (hne : j ≠ i) :
    (Pc.forkLoop (i + 1) : Pc Task).waiter j = (Pc.creating i).waiter j := by
  have hiff : j < i + 1 ↔ j < i := by omega
  simp [Pc.waiter, hne, hiff]

/-- A child that is to be created has no task, and its promise is initialised. -/
theorem ready (h : Protocol lastLayer s nodes created)
    (hnode : nodes num = some (task, .creating i)) :
    nodes (child num i) = none ∧ child num i ∉ created ∧
      (s.shared (child num i)).locked = false ∧
        (s.shared (child num i)).state = .emptyPromise := by
  have hi : i < branchingFactor := (h.good num task _ hnode).2
  have hready : (Pc.creating i : Pc Task).waiter i = .ready := by simp [Pc.waiter]
  have hedge := h.edge hnode hi
  rw [hready] at hedge
  obtain ⟨habsent, hunlocked, hempty⟩ := hedge
  exact ⟨eq_none_of_absent habsent,
    h.unborn num task _ i hnode hi (by rw [hready]; exact trivial), hunlocked, hempty⟩

/-- The new task is to fulfill the promise that its parent has initialised. -/
theorem above_forkedNodes_child (h : Protocol lastLayer s nodes created)
    (hnode : nodes num = some (task, .creating i)) :
    Above lastLayer (forkedNodes nodes num task i fresh) s.wakers (child num i)
      (s.shared (child num i))
      (Nodes.fulfiller (forkedNodes nodes num task i fresh) (child num i)) := by
  have hi : i < branchingFactor := (h.good num task _ hnode).2
  have hisNode := h.isNode num task _ hnode
  obtain ⟨-, -, hunlocked, hempty⟩ := h.ready hnode
  have houtside : (Pc.forkLoop (i + 1) : Pc Task).waiter i = .outside := by simp [Pc.waiter]
  rw [Above, if_neg (child_ne hisNode).2, child_div hi, forkedNodes_self hisNode,
    fulfiller_eq forkedNodes_child, child_mod hi]
  change Edge _ _ _ _ ((Pc.forkLoop (i + 1) : Pc Task).waiter i) .owing
  rw [houtside]
  exact ⟨hunlocked, hempty⟩

/-- The promise of the parent stays as it was. -/
theorem above_forkedNodes_self (h : Protocol lastLayer s nodes created)
    (hnode : nodes num = some (task, .creating i)) :
    Above lastLayer (forkedNodes nodes num task i fresh) s.wakers num (s.shared num)
      (Nodes.fulfiller (forkedNodes nodes num task i fresh) num) := by
  have hisNode := h.isNode num task _ hnode
  have habove := h.above num hisNode
  have hne : num / branchingFactor ≠ child num i := by
    have hpos := hisNode.pos
    unfold child branchingFactor
    omega
  rw [fulfiller_eq hnode] at habove
  rw [fulfiller_eq (forkedNodes_self hisNode)]
  unfold Above at habove ⊢
  rwa [forkedNodes_of_ne (div_ne hisNode) hne]

/-- The promises of the other children stay as they were. -/
theorem above_forkedNodes_sibling (h : Protocol lastLayer s nodes created)
    (hnode : nodes num = some (task, .creating i)) {j : ℕ} (hj : j < branchingFactor)
    (hne : j ≠ i) :
    Above lastLayer (forkedNodes nodes num task i fresh) s.wakers (child num j)
      (s.shared (child num j)) (nodes.fulfiller (child num j)) := by
  have hisNode := h.isNode num task _ hnode
  have hedge := h.edge hnode hj
  rw [← waiter_forkLoop hne] at hedge
  rw [Above, if_neg (child_ne hisNode).2, child_div hj, forkedNodes_self hisNode, child_mod hj]
  exact hedge

/-- The children of the new task have not been created. -/
theorem above_forkedNodes_grandchild (h : Protocol lastLayer s nodes created)
    (hnode : nodes num = some (task, .creating i))
    (hgrandchild : other / branchingFactor = child num i) :
    Above lastLayer (forkedNodes nodes num task i fresh) s.wakers other (s.shared other)
      (nodes.fulfiller other) := by
  have hroot : other ≠ 1 := by
    rintro rfl
    have hpos := (h.isNode num task _ hnode).pos
    unfold child branchingFactor at hgrandchild
    omega
  have hnone : nodes other = none := by
    cases hbefore : nodes other with
    | none => rfl
    | some node =>
      have hin := h.created_parent other (h.created_of_node _ _ hbefore) hroot
      exact absurd (hgrandchild ▸ hin) (h.ready hnode).2.1
  rw [Above, if_neg hroot, hgrandchild, forkedNodes_child, Nodes.fulfiller, hnone]
  exact rfl

/-- After the creation of a task all promises hold what they should. -/
theorem above_forkedNodes (h : Protocol lastLayer s nodes created)
    (hnode : nodes num = some (task, .creating i)) (hother : IsNode other) :
    Above lastLayer (forkedNodes nodes num task i fresh) s.wakers other (s.shared other)
      (Nodes.fulfiller (forkedNodes nodes num task i fresh) other) := by
  by_cases hchild : other = child num i
  · subst hchild
    exact h.above_forkedNodes_child hnode
  by_cases hnum : other = num
  · subst hnum
    exact h.above_forkedNodes_self hnode
  rw [fulfiller_forkedNodes hnum hchild]
  by_cases hparent : other / branchingFactor = num
  · have hsame : child num (other % branchingFactor) = other := by rw [← hparent, child_div_mod]
    have habove : Above lastLayer (forkedNodes nodes num task i fresh) _ _ _ _ :=
      h.above_forkedNodes_sibling hnode (Nat.mod_lt other (by decide))
        fun heq ↦ hchild (heq ▸ hsame.symm)
    rwa [hsame] at habove
  by_cases hgrandchild : other / branchingFactor = child num i
  · exact h.above_forkedNodes_grandchild hnode hgrandchild
  · have habove := h.above other hother
    unfold Above at habove ⊢
    rwa [forkedNodes_of_ne hparent hgrandchild]

/-- After the creation of a task, what has not been created is not among the tasks. -/
theorem unborn_forkedNodes (h : Protocol lastLayer s nodes created)
    (hnode : nodes num = some (task, .creating i)) {current : Task} {j : ℕ}
    (hother : forkedNodes nodes num task i fresh other = some (current, pc))
    (hj : j < branchingFactor) (hunborn : (pc.waiter j).Unborn) :
    child other j ∉ insert (child num i) created := by
  have hi : i < branchingFactor := (h.good num task _ hnode).2
  have hisNode := h.isNode num task _ hnode
  have hmem : ∀ {number : ℕ}, number ∉ created → number ≠ child num i →
      number ∉ insert (child num i) created := by
    rintro number hnot hne (heq | hin)
    · exact hne heq
    · exact hnot hin
  rcases forkedNodes_cases hisNode hother with ⟨rfl, heq⟩ | ⟨rfl, -⟩ | ⟨hne, -, hbefore⟩
  · obtain ⟨-, rfl⟩ := Prod.mk.inj heq
    have hji : j ≠ i := by
      rintro rfl
      simp [Pc.waiter, Waiter.Unborn] at hunborn
    rw [waiter_forkLoop hji] at hunborn
    refine hmem (h.unborn _ _ _ j hnode hj hunborn) fun hsame ↦ hji ?_
    rw [← child_mod hj, hsame, child_mod hi]
  · refine hmem (fun hin ↦ (h.ready hnode).2.1 ?_) (child_ne (hisNode.child i)).1
    have hparent := h.created_parent _ hin (child_ne (hisNode.child i)).2
    rwa [child_div hj] at hparent
  · refine hmem (h.unborn _ _ _ j hbefore hj hunborn) fun hsame ↦ hne ?_
    rw [← (child_div hj : child other j / branchingFactor = other), hsame, child_div hi]

end Creating

/-- A task is created for a child. -/
theorem create (h : Protocol lastLayer s nodes created) {i : ℕ}
    (hnode : nodes num = some (task, .creating i)) (hawake : task ∉ s.wakers) {fresh : Task}
    (hfresh : s.codes fresh = none) :
    InProtocol lastLayer
      { s with
        codes := Function.update (Function.update s.codes task (some ⟨num, .forkLoop (i + 1)⟩))
          fresh (some ⟨child num i, .start⟩) } := by
  have hgood : num < lastLayer ∧ i < branchingFactor := h.good num task _ hnode
  have hisNode := h.isNode num task _ hnode
  obtain ⟨hnone, -⟩ := h.ready hnode
  have hfreshNe : fresh ≠ task := by
    rintro rfl
    exact absurd (hfresh.symm.trans ((h.codes _ num _).mpr hnode)) (by simp)
  refine ⟨forkedNodes nodes num task i fresh, insert (child num i) created,
    { codes := ?_
      isNode := fun other current pc hother ↦ ?_
      good := fun other current pc hother ↦ ?_
      above := fun other ↦ h.above_forkedNodes hnode
      asleep := fun other hother ↦ ?_
      nodup := h.nodup
      created_of_node := fun other node hother ↦ ?_
      created_parent := fun other hother hne ↦ ?_
      unborn := fun other current pc j ↦ h.unborn_forkedNodes hnode }⟩
  · refine codes_insert (h.codes_update hnode) ?_ ?_
    · rw [Function.update_of_ne hfreshNe, hfresh]
    · rw [Function.update_of_ne (child_ne hisNode).1, hnone]
  · rcases forkedNodes_cases hisNode hother with ⟨rfl, -⟩ | ⟨rfl, -⟩ | ⟨-, -, hbefore⟩
    · exact hisNode
    · exact hisNode.child i
    · exact h.isNode _ _ _ hbefore
  · rcases forkedNodes_cases hisNode hother with ⟨rfl, heq⟩ | ⟨rfl, heq⟩ | ⟨-, -, hbefore⟩
    · obtain ⟨rfl, rfl⟩ := Prod.mk.inj heq
      exact hgood
    · obtain ⟨rfl, rfl⟩ := Prod.mk.inj heq
      exact trivial
    · exact h.good _ _ _ hbefore
  · obtain ⟨sleeping, j, sum, hsleeping⟩ := h.asleep other hother
    refine ⟨sleeping, j, sum, ?_⟩
    rw [forkedNodes_of_ne]
    · exact hsleeping
    · rintro rfl
      rw [hnode] at hsleeping
      exact hawake ((Prod.mk.inj (Option.some.inj hsleeping)).1 ▸ hother)
    · rintro rfl
      exact absurd (hnone.symm.trans hsleeping) (by simp)
  · rcases forkedNodes_cases hisNode hother with ⟨rfl, -⟩ | ⟨rfl, -⟩ | ⟨-, -, hbefore⟩
    · exact .inr (h.created_of_node _ _ hnode)
    · exact .inl rfl
    · exact .inr (h.created_of_node _ _ hbefore)
  · rcases hother with rfl | hbefore
    · rw [child_div hgood.2]
      exact .inr (h.created_of_node _ _ hnode)
    · exact .inr (h.created_parent other hbefore hne)

/-- A task is freed. -/
theorem finalize (h : Protocol lastLayer s nodes created)
    (hnode : nodes num = some (task, .finished)) (hawake : task ∉ s.wakers) :
    InProtocol lastLayer { s with codes := Function.update s.codes task none } := by
  have hisNode := h.isNode num task _ hnode
  have hcases : ∀ {other node}, Function.update nodes num none other = some node →
      other ≠ num ∧ nodes other = some node := by
    intro other node hother
    by_cases heq : other = num
    · subst heq
      rw [Function.update_self] at hother
      exact absurd hother (by simp)
    · rw [Function.update_of_ne heq] at hother
      exact ⟨heq, hother⟩
  refine ⟨Function.update nodes num none, created, ?_⟩
  refine
    { codes := fun other otherNum pc ↦ ?_
      isNode := fun other current pc hother ↦ h.isNode _ _ _ (hcases hother).2
      good := fun other current pc hother ↦ h.good _ _ _ (hcases hother).2
      above := fun other hother ↦ ?_
      asleep := fun other hother ↦ ?_
      nodup := h.nodup
      created_of_node := fun other node hother ↦ h.created_of_node _ _ (hcases hother).2
      created_parent := h.created_parent
      unborn := fun other current pc j hother ↦ h.unborn _ _ _ j (hcases hother).2 }
  · change Function.update s.codes task none other = _ ↔ _
    by_cases htask : other = task
    · subst htask
      rw [Function.update_self]
      refine ⟨fun heq ↦ absurd heq (by simp), fun heq ↦ ?_⟩
      exact absurd (h.eq_of_task hnode (hcases heq).2).1 (hcases heq).1
    · rw [Function.update_of_ne htask, h.codes]
      by_cases hnum : otherNum = num
      · subst hnum
        rw [Function.update_self, hnode]
        simp [Ne.symm htask]
      · rw [Function.update_of_ne hnum]
  · change Above lastLayer _ s.wakers other (s.shared other) _
    have habove := h.above other hother
    by_cases hnum : other = num
    · subst hnum
      rw [fulfiller_eq hnode] at habove
      rw [Nodes.fulfiller, Function.update_self]
      unfold Above at habove ⊢
      rw [Function.update_of_ne (div_ne hother)]
      split_ifs at habove ⊢ with hroot
      · exact habove
      · cases hparent : nodes (other / branchingFactor) with
        | none => exact trivial
        | some parent =>
          rw [hparent] at habove
          exact Edge.free habove
    have hfulfiller : Nodes.fulfiller (Function.update nodes num none) other =
        nodes.fulfiller other := by rw [Nodes.fulfiller, Function.update_of_ne hnum]; rfl
    rw [hfulfiller]
    by_cases hparent : other / branchingFactor = num
    · have hsame : other = child num (other % branchingFactor) := by rw [← hparent, child_div_mod]
      have hroot : other ≠ 1 := by
        rw [hsame]
        exact (child_ne hisNode).2
      rw [Above, if_neg hroot, hparent, Function.update_self]
      rw [Above, if_neg hroot, hparent, hnode] at habove
      exact habove
    · unfold Above at habove ⊢
      rwa [Function.update_of_ne hparent]
  · obtain ⟨sleeping, j, sum, hsleeping⟩ := h.asleep other hother
    refine ⟨sleeping, j, sum, ?_⟩
    rwa [Function.update_of_ne]
    rintro rfl
    rw [hnode] at hsleeping
    exact absurd (Prod.mk.inj (Option.some.inj hsleeping)).2 (by simp)

end Protocol

/-- What a step of the scheduler is for the tasks keeps the protocol. -/
theorem InProtocol.move [DecidableEq Task] {lastLayer : ℕ}
    {s next : TaskState Task (Code Task) (Promises Task)} (h : InProtocol lastLayer s)
    (hmove : (skynet Task lastLayer).Move s next) : InProtocol lastLayer next := by
  obtain ⟨nodes, created, hprotocol⟩ := h
  have hnode : ∀ {task : Task} {num : ℕ} {pc : Pc Task}, s.codes task = some ⟨num, pc⟩ →
      nodes num = some (task, pc) := fun hcode ↦ (hprotocol.codes _ _ _).mp hcode
  cases hmove with
  | idle => exact ⟨nodes, created, hprotocol⟩
  | @advance task code after promises hawake hcode hadvance =>
    exact hprotocol.advance (hnode hcode) hawake hadvance
  | @mustSleep task code after promises hawake hcode hmustSleep =>
    obtain ⟨num, pc⟩ := code
    cases pc with
    | mustSleep i sum step =>
      obtain ⟨current, hcurrent, heq⟩ := Option.map_eq_some_iff.mp hmustSleep
      obtain ⟨rfl, rfl⟩ := Prod.mk.inj heq
      exact hprotocol.mustSleep (hnode hcode) hawake hcurrent
    | _ => exact absurd hmustSleep (by simp [skynet, Code.mustSleep])
  | @request task code after request hawake hcode hrequest hwoken =>
    exact (hprotocol.request (hnode hcode) hawake hrequest).2
  | @answer task code after promises asleep hawake hcode hanswer =>
    exact hprotocol.answer (hnode hcode) hawake hanswer
  | @create task fresh code start after hawake hcode hfresh hforked =>
    obtain ⟨num, pc⟩ := code
    cases pc with
    | creating i =>
      obtain ⟨rfl, rfl⟩ := Prod.mk.inj (Option.some.inj hforked)
      exact hprotocol.create (hnode hcode) hawake hfresh
    | _ => exact absurd hforked (by simp [skynet, Code.forked])
  | @finalize task code hawake hcode hstatus =>
    obtain ⟨num, pc⟩ := code
    cases pc with
    | finished => exact hprotocol.finalize (hnode hcode) hawake
    | _ => exact absurd hstatus (by simp [skynet, Pc.status])

/-- The root, and no other task. -/
theorem InProtocol.initial [DecidableEq Task] {lastLayer : ℕ} {root : Task}
    {contents : Promises Task} :
    InProtocol lastLayer
      { codes := Function.update (fun _ ↦ none) root (some ⟨1, .start⟩)
        shared := Promises.write contents 1 (initPromise (contents 1) 1)
        wakers := 0 } := by
  have hcases : ∀ {num : ℕ} {node : Task × Pc Task},
      Function.update (fun _ ↦ none : Nodes Task) 1 (some (root, .start)) num = some node →
        num = 1 ∧ node = (root, .start) := by
    intro num node hnode
    by_cases hnum : num = 1
    · subst hnum
      rw [Function.update_self] at hnode
      exact ⟨rfl, (Option.some.inj hnode).symm⟩
    · rw [Function.update_of_ne hnum] at hnode
      exact absurd hnode (by simp)
  refine ⟨Function.update (fun _ ↦ none) 1 (some (root, .start)), {1}, ?_⟩
  refine
    { codes := fun task num pc ↦ ?_
      isNode := fun num task pc hnode ↦ .inl (hcases hnode).1
      good := fun num task pc hnode ↦ ?_
      above := fun num hnum ↦ ?_
      asleep := fun task htask ↦ absurd htask (Multiset.notMem_zero task)
      nodup := Multiset.nodup_zero
      created_of_node := fun num node hnode ↦ (hcases hnode).1
      created_parent := fun num hnum hne ↦ absurd hnum hne
      unborn := fun num task pc i hnode hi _ ↦ ?_ }
  · have hempty : ∀ (task : Task) (num : ℕ) (pc : Pc Task),
        (none : Option (Code Task)) = some ⟨num, pc⟩ ↔
          (none : Option (Task × Pc Task)) = some (task, pc) := by simp
    exact Protocol.codes_insert hempty rfl rfl task num pc
  · obtain ⟨-, heq⟩ := hcases hnode
    obtain ⟨-, rfl⟩ := Prod.mk.inj heq
    exact trivial
  · unfold Above
    split_ifs with hroot
    · subst hroot
      simp [Nodes.fulfiller, Pc.fulfiller, Facing, Promises.write, initPromise]
    · have habsent : Nodes.fulfiller (Function.update (fun _ ↦ none) 1 (some (root, .start))) num =
          .absent := by
        rw [Nodes.fulfiller, Function.update_of_ne hroot]
        rfl
      rw [habsent]
      by_cases hparent : num / branchingFactor = 1
      · rw [hparent, Function.update_self]
        exact rfl
      · rw [Function.update_of_ne hparent]
        exact trivial
  · obtain ⟨rfl, -⟩ := hcases hnode
    exact (child_ne (.inl rfl)).2

/-- In every run the tasks are where the protocol has them, and the programs are where the scheduler
says. -/
theorem inProtocol_of_run [DecidableEq Task] {n : ℕ} [NeZero n] {depth : ℕ}
    {labels : List (ProgramLabel n Task Unit Unit)}
    {s : ProgramState n Task Unit Unit (Code Task) (Promises Task)}
    (hrun : (bench n Task depth).Run (fun _ _ ↦ True) labels s) :
    InProtocol (lastLayer depth) s.tasks ∧ ∃ live, Conserves s.scheduler live ∧
      Coherent (skynet Task (lastLayer depth)) s := by
  have hinitial : ∀ s : ProgramState n Task Unit Unit (Code Task) (Promises Task),
      (bench n Task depth).initial s → InProtocol (lastLayer depth) s.tasks := by
    rintro ⟨scheduler, codes, shared⟩ ⟨⟨root, contents, hmemory, rfl, rfl⟩, -⟩
    have hwakers : scheduler.memory.wakers = 0 := by
      rw [hmemory]
      rfl
    unfold ProgramState.tasks
    rw [hwakers]
    exact .initial
  exact programRun_invariant hrun hinitial fun s live label next hprotocol hlive hcoherent hstep ↦
    hprotocol.move (hstep.move hlive hcoherent)

end Libseff.Skynet
