import Libseff.Foundation.Potentials
import Libseff.Scheduler.FairTermination
import Libseff.Skynet.SkynetResult

/-!
# Skynet comes to an end

What is left to do for a task, with all tasks below it, is bounded (`Code.work`). Every step of a
task lowers it, unless the task tries in vain to take a lock (`Code.work_of_advance`). Then another
task holds the lock, and a worker runs it (`exists_holder`). So `bench` returns in every run in
which no worker is left standing, with the result of the root (`skynet_terminates`).
-/

set_option autoImplicit false
set_option relaxedAutoImplicit false

namespace Libseff.Skynet

open Foundation Scheduler

variable {Task : Type*}

/-! ### What is left to do -/

/-- The steps of all tasks below a node. -/
def nodeWork (lastLayer num : ℕ) : ℕ := treeSum lastLayer (fun _ ↦ 8) 160 lastLayer num

/-- The steps of a task that is to fork its children from the given one on, and of the children. -/
def forkWork (lastLayer num i : ℕ) : ℕ :=
  ∑ j ∈ Finset.Ico i branchingFactor, (nodeWork lastLayer (child num j) + 3) + 129

/-- The steps of a task that is to wait for its children from the given one on. -/
def awaitWork (i : ℕ) : ℕ := (branchingFactor - i) * 12 + 8

def AwaitStep.work : AwaitStep Task → ℕ
  | .acquire => 10
  | .loadState => 9
  | .release _ => 8
  | .sleep => 7

def MustSleepStep.work : MustSleepStep Task → ℕ
  | .acquire => 6
  | .loadState => 5
  | .storeWaker => 4
  | .release _ => 3

def FulfillStep.work : FulfillStep Task → ℕ
  | .acquire => 7
  | .loadState => 6
  | .storeState _ => 5
  | .storeResult _ => 4
  | .release _ => 3
  | .wake _ => 2

/-- The steps of a task, and of the tasks below it that it has not forked yet. -/
def Code.work (lastLayer : ℕ) (code : Code Task) : ℕ :=
  match code.pc with
  | .start => nodeWork lastLayer code.num
  | .forkLoop i => forkWork lastLayer code.num i
  | .fork i => forkWork lastLayer code.num (i + 1) + nodeWork lastLayer (child code.num i) + 2
  | .creating i => forkWork lastLayer code.num (i + 1) + nodeWork lastLayer (child code.num i) + 1
  | .awaitLoop i _ => awaitWork i
  | .await i _ step => awaitWork (i + 1) + step.work
  | .mustSleep i _ step => awaitWork (i + 1) + step.work
  | .readResult i _ => awaitWork (i + 1) + 1
  | .fulfill _ step => step.work
  | .ret => 2
  | .finished => 1

theorem nodeWork_of_le {lastLayer num : ℕ} (hleaf : lastLayer ≤ num) :
    nodeWork lastLayer num = 8 := treeSum_of_le hleaf

theorem nodeWork_of_lt {lastLayer num : ℕ} (hnum : 0 < num) (hlt : num < lastLayer) :
    nodeWork lastLayer num = forkWork lastLayer num 0 + 1 := by
  have hsum : ∑ j ∈ Finset.range branchingFactor, (nodeWork lastLayer (child num j) + 3) =
      ∑ j ∈ Finset.range branchingFactor, nodeWork lastLayer (child num j) + 30 := by
    rw [Finset.sum_add_distrib]
    rfl
  rw [forkWork, ← Finset.range_eq_Ico, hsum, nodeWork, treeSum_of_lt hnum hlt]
  unfold nodeWork
  ring

theorem forkWork_of_lt {lastLayer num i : ℕ} (hi : i < branchingFactor) :
    forkWork lastLayer num i =
      forkWork lastLayer num (i + 1) + nodeWork lastLayer (child num i) + 3 := by
  rw [forkWork, forkWork, Finset.sum_eq_sum_Ico_succ_bot hi]
  ring

theorem awaitWork_of_lt {i : ℕ} (hi : i < branchingFactor) :
    awaitWork i = awaitWork (i + 1) + 12 := by
  unfold awaitWork
  omega

/-- A task tries in vain to take a lock. -/
inductive Code.Waits (promises : Promises Task) : Code Task → Prop
  | await {num i : ℕ} {sum : ℤ} (hlocked : (promises (child num i)).locked = true) :
      Waits promises ⟨num, .await i sum .acquire⟩
  | mustSleep {num i : ℕ} {sum : ℤ} (hlocked : (promises (child num i)).locked = true) :
      Waits promises ⟨num, .mustSleep i sum .acquire⟩
  | fulfill {num : ℕ} {result : ℤ} (hlocked : (promises num).locked = true) :
      Waits promises ⟨num, .fulfill result .acquire⟩

/-- A step of a task on its own lowers what is left, or changes nothing. -/
theorem Code.work_of_advance {lastLayer : ℕ} {code after : Code Task}
    {promises promises' : Promises Task} (hnum : 0 < code.num)
    (h : code.advance lastLayer promises = some (after, promises')) :
    code.Waits promises ∧ after = code ∧ promises' = promises ∨
      after.work lastLayer < code.work lastLayer := by
  obtain ⟨num, pc⟩ := code
  cases pc with
  | start =>
    refine .inr ?_
    simp only [Code.advance] at h
    split_ifs at h with hleaf <;> obtain ⟨rfl, -⟩ := Prod.mk.inj (Option.some.inj h)
    · simp [Code.work, nodeWork_of_le hleaf, FulfillStep.work]
    · simp [Code.work, nodeWork_of_lt hnum (not_le.mp hleaf)]
  | forkLoop i =>
    refine .inr ?_
    simp only [Code.advance] at h
    split_ifs at h with hi <;> obtain ⟨rfl, -⟩ := Prod.mk.inj (Option.some.inj h)
    · simp [Code.work, forkWork_of_lt hi]
    · have hawait : awaitWork 0 = 128 := rfl
      simp only [Code.work, forkWork, hawait]
      omega
  | awaitLoop i sum =>
    refine .inr ?_
    simp only [Code.advance] at h
    split_ifs at h with hi <;> obtain ⟨rfl, -⟩ := Prod.mk.inj (Option.some.inj h)
    · simp [Code.work, awaitWork_of_lt hi, AwaitStep.work]
    · simp only [Code.work, FulfillStep.work, awaitWork]
      omega
  | await i sum step =>
    obtain ⟨next, hnext, heq⟩ := Option.map_eq_some_iff.mp h
    obtain ⟨rfl, rfl⟩ := Prod.mk.inj heq
    cases step with
    | acquire =>
      simp only [AwaitStep.advance] at hnext
      split_ifs at hnext with hlocked <;> rw [← Option.some.inj hnext]
      · exact .inl ⟨.await hlocked, rfl, Function.update_eq_self ..⟩
      · exact .inr (by simp [Code.work, AwaitStep.work])
    | loadState =>
      rw [← Option.some.inj hnext]
      exact .inr (by simp [Code.work, AwaitStep.work])
    | release state =>
      cases state <;> rw [← Option.some.inj hnext] <;>
        exact .inr (by simp [Code.work, AwaitStep.work])
    | sleep => exact absurd hnext (by simp [AwaitStep.advance])
  | readResult i sum =>
    obtain ⟨rfl, -⟩ := Prod.mk.inj (Option.some.inj h)
    exact .inr (by simp [Code.work])
  | fulfill result step =>
    obtain ⟨next, hnext, heq⟩ := Option.map_eq_some_iff.mp h
    obtain ⟨rfl, rfl⟩ := Prod.mk.inj heq
    cases step with
    | acquire =>
      simp only [FulfillStep.advance] at hnext
      split_ifs at hnext with hlocked <;> rw [← Option.some.inj hnext]
      · exact .inl ⟨.fulfill hlocked, rfl, Function.update_eq_self ..⟩
      · exact .inr (by simp [Code.work, FulfillStep.work])
    | release previousState =>
      cases previousState <;> rw [← Option.some.inj hnext] <;>
        exact .inr (by simp [Code.work, FulfillStep.work])
    | wake waker => exact absurd hnext (by simp [FulfillStep.advance])
    | _ =>
      rw [← Option.some.inj hnext]
      exact .inr (by simp [Code.work, FulfillStep.work])
  | _ => exact absurd h (by simp [Code.advance])

/-- A step of `must_sleep` lowers what is left, or changes nothing. -/
theorem Code.work_of_mustSleep (lastLayer : ℕ) {task : Task} {code after : Code Task}
    {promises promises' : Promises Task}
    (h : code.mustSleep task promises = some (after, promises')) :
    code.Waits promises ∧ after = code ∧ promises' = promises ∨
      after.work lastLayer < code.work lastLayer := by
  obtain ⟨num, pc⟩ := code
  cases pc with
  | mustSleep i sum step =>
    obtain ⟨next, hnext, heq⟩ := Option.map_eq_some_iff.mp h
    obtain ⟨rfl, rfl⟩ := Prod.mk.inj heq
    cases step with
    | acquire =>
      simp only [MustSleepStep.advance] at hnext
      split_ifs at hnext with hlocked <;> rw [← Option.some.inj hnext]
      · exact .inl ⟨.mustSleep hlocked, rfl, Function.update_eq_self ..⟩
      · exact .inr (by simp [Code.work, MustSleepStep.work])
    | loadState =>
      simp only [MustSleepStep.advance] at hnext
      split at hnext <;> rw [← Option.some.inj hnext] <;>
        exact .inr (by simp [Code.work, MustSleepStep.work])
    | storeWaker =>
      rw [← Option.some.inj hnext]
      exact .inr (by simp [Code.work, MustSleepStep.work])
    | release state => exact absurd hnext (by simp [MustSleepStep.advance])
  | _ => exact absurd h (by simp [Code.mustSleep])

theorem Code.work_of_answer {lastLayer : ℕ} {code after : Code Task}
    {promises promises' : Promises Task} {asleep : Bool}
    (h : code.answer promises = some (asleep, after, promises')) :
    after.work lastLayer < code.work lastLayer := by
  obtain ⟨num, pc⟩ := code
  cases pc with
  | mustSleep i sum step =>
    cases step with
    | release state =>
      obtain ⟨-, heq⟩ := Prod.mk.inj (Option.some.inj h)
      obtain ⟨rfl, -⟩ := Prod.mk.inj heq
      simp [Code.work, MustSleepStep.work]
    | _ => exact absurd h (by simp [Code.answer])
  | _ => exact absurd h (by simp [Code.answer])

theorem Code.work_of_request (lastLayer : ℕ) {code after : Code Task}
    {request : Request Task Unit Unit} (h : code.request = some (request, after)) :
    after.work lastLayer < code.work lastLayer := by
  obtain ⟨num, pc⟩ := code
  cases pc with
  | fork i =>
    obtain ⟨rfl, rfl⟩ := Prod.mk.inj (Option.some.inj h)
    simp [Code.work]
  | ret =>
    obtain ⟨rfl, rfl⟩ := Prod.mk.inj (Option.some.inj h)
    simp [Code.work]
  | await i sum step =>
    cases step with
    | sleep =>
      obtain ⟨rfl, rfl⟩ := Prod.mk.inj (Option.some.inj h)
      simp [Code.work, AwaitStep.work, MustSleepStep.work]
    | _ => exact absurd h (by simp [Code.request])
  | fulfill result step =>
    cases step with
    | wake waker =>
      obtain ⟨rfl, rfl⟩ := Prod.mk.inj (Option.some.inj h)
      simp [Code.work, FulfillStep.work]
    | _ => exact absurd h (by simp [Code.request])
  | _ => exact absurd h (by simp [Code.request])

/-- A fork lowers what is left for both tasks together. -/
theorem Code.work_of_forked (lastLayer : ℕ) {code start after : Code Task}
    (h : code.forked = some (start, after)) :
    start.work lastLayer + after.work lastLayer < code.work lastLayer := by
  obtain ⟨num, pc⟩ := code
  cases pc with
  | creating i =>
    obtain ⟨rfl, rfl⟩ := Prod.mk.inj (Option.some.inj h)
    simp only [Code.work]
    omega
  | _ => exact absurd h (by simp [Code.forked])

/-- What is left to do for all tasks. -/
noncomputable def tasksWork (lastLayer : ℕ) (s : TaskState Task (Code Task) (Promises Task)) : ℕ :=
  potential (Code.work lastLayer) s.codes

section Work

variable [DecidableEq Task] {lastLayer : ℕ} {s next : TaskState Task (Code Task) (Promises Task)}
  {live : Finset Task} {task : Task}

theorem work_update (hlive : ∀ task, (s.codes task).isSome → task ∈ live) {code after : Code Task}
    (hcode : s.codes task = some code) (hlt : after.work lastLayer < code.work lastLayer)
    (hcodes : next.codes = Function.update s.codes task (some after)) :
    tasksWork lastLayer next < tasksWork lastLayer s := by
  have hupdate := potential_update (Code.work lastLayer) hlive task (some after)
  rw [← hcodes, hcode] at hupdate
  simp only [Option.elim_some] at hupdate
  unfold tasksWork
  omega

/-- Every move of the tasks lowers what is left to do, or changes nothing. -/
theorem Protocol.work_of_move {nodes : Nodes Task} {created : Set ℕ}
    (h : Protocol lastLayer s nodes created) (hlive : ∀ task, (s.codes task).isSome → task ∈ live)
    (hmove : (skynet Task lastLayer).Move s next) :
    next = s ∨ tasksWork lastLayer next < tasksWork lastLayer s := by
  have hsame : ∀ {task : Task} {code : Code Task}, s.codes task = some code →
      { s with codes := Function.update s.codes task (some code), shared := s.shared } = s := by
    intro task code hcode
    rw [← hcode, Function.update_eq_self]
  cases hmove with
  | idle => exact .inl rfl
  | @advance task code after promises hawake hcode hadvance =>
    have hpos := (h.isNode _ _ _ ((h.codes task code.num code.pc).mp hcode)).pos
    rcases Code.work_of_advance hpos hadvance with ⟨-, rfl, rfl⟩ | hlt
    · exact .inl (hsame hcode)
    · exact .inr (work_update hlive hcode hlt rfl)
  | @mustSleep task code after promises hawake hcode hmustSleep =>
    rcases Code.work_of_mustSleep lastLayer hmustSleep with ⟨-, rfl, rfl⟩ | hlt
    · exact .inl (hsame hcode)
    · exact .inr (work_update hlive hcode hlt rfl)
  | request hawake hcode hrequest =>
    exact .inr (work_update hlive hcode (Code.work_of_request lastLayer hrequest) rfl)
  | answer hawake hcode hanswer =>
    exact .inr (work_update hlive hcode (Code.work_of_answer hanswer) rfl)
  | @create task fresh code start after hawake hcode hfresh hforked =>
    refine .inr ?_
    have hlt := Code.work_of_forked lastLayer hforked
    have hne : fresh ≠ task := by
      rintro rfl
      exact absurd (hfresh.symm.trans hcode) (by simp)
    have hafter := potential_update (Code.work lastLayer) hlive task (some after)
    have hkeys : ∀ other, (Function.update s.codes task (some after) other).isSome →
        other ∈ live := by
      intro other hother
      by_cases heq : other = task
      · exact heq ▸ hlive task (by rw [hcode]; rfl)
      · rw [Function.update_of_ne heq] at hother
        exact hlive other hother
    have hstart := potential_update (Code.work lastLayer) hkeys fresh (some start)
    rw [Function.update_of_ne hne, hfresh] at hstart
    rw [hcode] at hafter
    simp only [Option.elim_some, Option.elim_none] at hafter hstart
    unfold tasksWork
    simp only
    omega
  | @finalize task code hawake hcode hstatus =>
    refine .inr ?_
    have hgone := potential_update (Code.work lastLayer) hlive task none
    obtain ⟨num, pc⟩ := code
    cases pc with
    | finished =>
      rw [hcode] at hgone
      simp only [Option.elim_some, Option.elim_none, Code.work] at hgone
      unfold tasksWork
      simp only
      omega
    | _ => exact absurd hstatus (by simp [skynet, Pc.status])

end Work

/-! ### The task that holds a lock -/

/-- The task holds the lock of a promise. -/
def Pc.Holds : Pc Task → Prop
  | .await _ _ .loadState => True
  | .await _ _ (.release _) => True
  | .mustSleep _ _ .loadState => True
  | .mustSleep _ _ .storeWaker => True
  | .mustSleep _ _ (.release _) => True
  | .fulfill _ .loadState => True
  | .fulfill _ (.storeState _) => True
  | .fulfill _ (.storeResult _) => True
  | .fulfill _ (.release _) => True
  | _ => False

theorem Pc.holds_of_fulfiller {pc : Pc Task} (h : pc.fulfiller.Locks) : pc.Holds := by
  cases pc with
  | fulfill result step => cases step <;> first | exact trivial | exact absurd h id
  | _ => exact absurd h id

theorem Pc.holds_of_waiter {pc : Pc Task} {i : ℕ} (h : (pc.waiter i).Locks) : pc.Holds := by
  cases pc with
  | await j sum step =>
    simp only [Pc.waiter] at h
    split_ifs at h
    · exact absurd h id
    · cases step <;> first | exact trivial | exact absurd h id
    · exact absurd h id
  | mustSleep j sum step =>
    simp only [Pc.waiter] at h
    split_ifs at h
    · exact absurd h id
    · cases step <;> first | exact trivial | exact absurd h id
    · exact absurd h id
  | start => exact absurd h id
  | fulfill result step => exact absurd h id
  | ret => exact absurd h id
  | finished => exact absurd h id
  | _ =>
    simp only [Pc.waiter] at h
    split_ifs at h <;> exact absurd h id

/-- The task that holds a lock does not wait for one. -/
theorem Code.Waits.not_holds {promises : Promises Task} {code : Code Task}
    (h : code.Waits promises) : ¬ code.pc.Holds := by
  cases h <;> exact id

/-- The lock that a task waits for is held by another task. -/
theorem Protocol.exists_holder {lastLayer : ℕ} {s : TaskState Task (Code Task) (Promises Task)}
    {nodes : Nodes Task} {created : Set ℕ} (h : Protocol lastLayer s nodes created) {task : Task}
    {code : Code Task} (hcode : s.codes task = some code) (hwaits : code.Waits s.shared) :
    ∃ other holder, s.codes other = some holder ∧ holder.pc.Holds := by
  -- The parent waits for the lock of a child.
  have hchild : ∀ {num i : ℕ} {pc : Pc Task}, nodes num = some (task, pc) → i < branchingFactor →
      pc.waiter i = .outside → (s.shared (child num i)).locked = true →
      ∃ other holder, s.codes other = some holder ∧ holder.pc.Holds := by
    intro num i pc hnode hi houtside hlocked
    have hedge := h.edge hnode hi
    rw [houtside] at hedge
    have hnotOver : ¬ (nodes.fulfiller (child num i)).Over := by
      intro hover
      rw [(Facing.of_over hedge hover).1] at hlocked
      exact absurd hlocked (by simp)
    have hlocks := ((hedge.locks hnotOver).1.mp hlocked).resolve_left id
    cases hother : nodes (child num i) with
    | none =>
      rw [Nodes.fulfiller, hother] at hlocks
      exact absurd hlocks id
    | some node =>
      obtain ⟨other, current⟩ := node
      rw [Protocol.fulfiller_eq hother] at hlocks
      exact ⟨other, ⟨child num i, current⟩, (h.codes _ _ _).mpr hother,
        Pc.holds_of_fulfiller hlocks⟩
  cases hwaits with
  | @await num i sum hlocked =>
    have hnode := (h.codes _ _ _).mp hcode
    exact hchild hnode (h.good _ _ _ hnode).2.1 (Pc.waiter_await ..) hlocked
  | @mustSleep num i sum hlocked =>
    have hnode := (h.codes _ _ _).mp hcode
    exact hchild hnode (h.good _ _ _ hnode).2.1 (Pc.waiter_mustSleep ..) hlocked
  | @fulfill num result hlocked =>
    have hnode := (h.codes _ _ _).mp hcode
    have hroot : num ≠ 1 := by
      rintro rfl
      have habove := h.above 1 (.inl rfl)
      rw [Protocol.fulfiller_eq hnode, Above, if_pos rfl] at habove
      rw [habove.1] at hlocked
      exact absurd hlocked (by simp)
    obtain ⟨parent, current, hparent, hedge⟩ := h.parent hnode hroot id
    have hlocks := ((Edge.locks hedge id).1.mp hlocked).resolve_right id
    exact ⟨parent, ⟨_, current⟩, (h.codes _ _ _).mpr hparent, Pc.holds_of_waiter hlocks⟩

section Runs

variable [DecidableEq Task] {n : ℕ} [NeZero n] {depth : ℕ}
  {labels : List (ProgramLabel n Task Unit Unit)}
  {s : ProgramState n Task Unit Unit (Code Task) (Promises Task)}

/-- A task that holds a lock is run by a worker. -/
theorem running_of_holds (hrun : (bench n Task depth).Run (fun _ _ ↦ True) labels s) {task : Task}
    {code : Code Task} (hcode : s.codes task = some code) (hholds : code.pc.Holds) :
    ∃ self, s.scheduler.workers self = .running task ∨
      s.scheduler.workers self = .mustSleep task := by
  refine Scheduler.running_of_holds (fun code : Code Task ↦ code.pc.Holds) ?_ ?_ ?_ ?_ hrun hcode
    hholds
  · rintro s task code ⟨root, contents, -, hcodes, -⟩ hcode
    rw [hcodes] at hcode
    by_cases heq : task = root
    · subst heq
      rw [Function.update_self] at hcode
      rw [← Option.some.inj hcode]
      exact id
    · rw [Function.update_of_ne heq] at hcode
      exact absurd hcode (by simp)
  · rintro ⟨num, pc⟩ after request hrequest
    cases pc with
    | fork i =>
      obtain ⟨-, rfl⟩ := Prod.mk.inj (Option.some.inj hrequest)
      exact id
    | ret =>
      obtain ⟨-, rfl⟩ := Prod.mk.inj (Option.some.inj hrequest)
      exact id
    | await i sum step =>
      cases step with
      | sleep =>
        obtain ⟨-, rfl⟩ := Prod.mk.inj (Option.some.inj hrequest)
        exact id
      | _ => exact absurd hrequest (by simp [skynet, Code.request])
    | fulfill result step =>
      cases step with
      | wake waker =>
        obtain ⟨-, rfl⟩ := Prod.mk.inj (Option.some.inj hrequest)
        exact id
      | _ => exact absurd hrequest (by simp [skynet, Code.request])
    | _ => exact absurd hrequest (by simp [skynet, Code.request])
  · rintro ⟨num, pc⟩ after promises promises' result hanswer
    cases pc with
    | mustSleep i sum step =>
      cases step with
      | release state =>
        obtain ⟨-, heq⟩ := Prod.mk.inj (Option.some.inj hanswer)
        obtain ⟨rfl, -⟩ := Prod.mk.inj heq
        exact id
      | _ => exact absurd hanswer (by simp [skynet, Code.answer])
    | _ => exact absurd hanswer (by simp [skynet, Code.answer])
  · rintro ⟨num, pc⟩ start after hforked
    cases pc with
    | creating i =>
      obtain ⟨rfl, rfl⟩ := Prod.mk.inj (Option.some.inj hforked)
      exact ⟨id, id⟩
    | _ => exact absurd hforked (by simp [skynet, Code.forked])

/-- The tasks of `bench` come to an end. -/
theorem ends (depth : ℕ) : (skynet Task (lastLayer depth)).Ends
    (Skynet.Scheduled (n := n)) (tasksWork (lastLayer depth)) where
  unpolled := by
    rintro ⟨num, pc⟩ after request hrequest pollCondition pollArg rfl
    cases pc with
    | await i sum step => cases step <;> simp [skynet, Code.request] at hrequest
    | fulfill result step => cases step <;> simp [skynet, Code.request] at hrequest
    | _ => simp [skynet, Code.request] at hrequest
  request_ne := by
    rintro code _ request hrequest rfl
    exact lt_irrefl _ (Code.work_of_request (lastLayer depth) hrequest)
  work_lt := by
    intro labels s next label hrun hstep
    obtain ⟨⟨nodes, created, hprotocol⟩, live, hlive, hcoherent⟩ := inProtocol_of_run hrun
    exact hprotocol.work_of_move (fun task ↦ (hcoherent.mem_live_iff hlive task).mpr)
      (hstep.move hlive hcoherent)
  spins := by
    intro labels s self hrun hspins
    obtain ⟨⟨nodes, created, hprotocol⟩, live, hlive, hcoherent⟩ := inProtocol_of_run hrun
    -- A task that spins waits for a lock.
    have hwaiting : ∀ {self : Fin n}, (skynet Task (lastLayer depth)).Spins s self →
        ∃ task code, s.codes task = some code ∧ code.Waits s.shared ∧
          (s.scheduler.workers self = .running task ∨
            s.scheduler.workers self = .mustSleep task) := by
      rintro self ⟨task, code, hcode, ⟨hworker, hadvance⟩ | ⟨hworker, hmustSleep⟩⟩
      · have hpos := (hprotocol.isNode _ _ _ ((hprotocol.codes task code.num code.pc).mp hcode)).pos
        rcases Code.work_of_advance hpos hadvance with ⟨hwaits, -⟩ | hlt
        · exact ⟨task, code, hcode, hwaits, .inl hworker⟩
        · exact absurd hlt (lt_irrefl _)
      · rcases Code.work_of_mustSleep (lastLayer depth) hmustSleep with
          ⟨hwaits, -⟩ | hlt
        · exact ⟨task, code, hcode, hwaits, .inr hworker⟩
        · exact absurd hlt (lt_irrefl _)
    obtain ⟨task, code, hcode, hwaits, -⟩ := hwaiting hspins
    obtain ⟨other, holder, hholder, hholds⟩ := hprotocol.exists_holder hcode hwaits
    obtain ⟨runner, hrunner⟩ := running_of_holds hrun hholder hholds
    refine ⟨runner, ?_, fun hrunnerSpins ↦ ?_⟩
    · rcases hrunner with hworker | hworker <;> rw [hworker] <;> exact trivial
    · obtain ⟨current, waiting, hcurrent, hcurrentWaits, hworker⟩ := hwaiting hrunnerSpins
      have hsame : current = other := by
        rcases hrunner with hrunner | hrunner <;> rcases hworker with hworker | hworker <;>
          simpa [hrunner] using hworker.symm
      subst hsame
      obtain rfl : holder = waiting := Option.some.inj (hholder.symm.trans hcurrent)
      exact hcurrentWaits.not_holds hholds
  awake := by
    rintro labels s hrun ⟨task, htask⟩
    obtain ⟨⟨nodes, created, hprotocol⟩, live, hlive, hcoherent⟩ := inProtocol_of_run hrun
    exact hprotocol.exists_awake (hcoherent.mem_live_iff hlive) htask

/-- From every start there are runs in which no worker is left standing. -/
theorem exists_fairRun_bench [Infinite Task] (hinitial : (bench n Task depth).initial s) :
    ∃ run : FairProgramRun (skynet Task (lastLayer depth)) Skynet.Scheduled,
      run.states 0 = s := by
  refine exists_fairRun hinitial (fun labels s self hrun hexited ↦ ?_)
    fun s label next self hstep hne hexited ↦ ?_
  · obtain ⟨event, next, hstep⟩ := exists_step_of_run hrun hexited
    exact ⟨⟨self, event⟩, next, rfl, hstep⟩
  · rwa [ProgramStep.workers_of_ne hstep hne]

/-- **Skynet returns its result.** From every start there are runs of `bench(n_workers, depth)` in
which no worker is left standing, where `malloc` finds memory. In each of them all workers leave
their loop, and then the promise of the root has the result. -/
theorem skynet_terminates [Infinite Task] (hinitial : (bench n Task depth).initial s) :
    (∃ run : FairProgramRun (skynet Task (lastLayer depth)) Skynet.Scheduled,
      run.states 0 = s) ∧
    ∀ run : FairProgramRun (skynet Task (lastLayer depth)) (Skynet.Scheduled (n := n)),
      ∃ final, ∀ moment ≥ final,
        (∀ self, (run.states moment).scheduler.workers self = .exited) ∧
        ((run.states moment).shared 1).state = .fulfilled ∧
        2 * ((run.states moment).shared 1).result =
          (lastLayer depth : ℤ) * (lastLayer depth - 1) := by
  refine ⟨exists_fairRun_bench hinitial, fun run ↦ ?_⟩
  obtain ⟨final, hexited⟩ := (ends depth).exited_of_fair run
  refine ⟨final, fun moment hmoment ↦ ⟨hexited moment hmoment, ?_⟩⟩
  obtain ⟨labels, hrun⟩ := run.exists_run moment
  obtain ⟨⟨nodes, created, hprotocol⟩, live, hlive, hcoherent⟩ := inProtocol_of_run hrun
  obtain ⟨hstate, -, hresult⟩ :=
    hprotocol.result (hcoherent.codes_eq_none hlive (hexited moment hmoment 0))
  exact ⟨hstate, hresult⟩

end Runs

theorem skynet_terminates_start :
    ∃ run : FairProgramRun (skynet ℕ (lastLayer 7)) (Skynet.Scheduled (n := 8)),
      run.states 0 = start 8 ∧ ∃ final,
        (∀ self, (run.states final).scheduler.workers self = .exited) ∧
        ((run.states final).shared 1).result = 499999500000 := by
  obtain ⟨⟨run, hstart⟩, hterminates⟩ := skynet_terminates (initial_start 8 7)
  obtain ⟨final, hfinal⟩ := hterminates run
  obtain ⟨hexited, -, hresult⟩ := hfinal final le_rfl
  have hlast : (lastLayer 7 : ℤ) * (lastLayer 7 - 1) = 2 * 499999500000 := rfl
  exact ⟨run, hstart, final, hexited, mul_left_cancel₀ two_ne_zero (hresult.trans hlast)⟩

/-- **The result of Skynet.** When a worker has left its loop, in any run with any number of
workers, every task has ended, and the promise of the root holds the sum of the numbers below that
of the nodes in the last layer. -/
theorem skynet_result [DecidableEq Task] {n : ℕ} [NeZero n] {depth : ℕ}
    {labels : List (ProgramLabel n Task Unit Unit)}
    {s : ProgramState n Task Unit Unit (Code Task) (Promises Task)}
    (hrun : (bench n Task depth).Run (fun _ _ ↦ True) labels s) {self : Fin n}
    (hexited : s.scheduler.workers self = .exited) :
    (∀ task, s.codes task = none) ∧ (s.shared 1).state = .fulfilled ∧
      (s.shared 1).locked = false ∧
      2 * (s.shared 1).result = (lastLayer depth : ℤ) * (lastLayer depth - 1) := by
  obtain ⟨⟨nodes, created, hprotocol⟩, live, hlive, hcoherent⟩ := inProtocol_of_run hrun
  have hcodes := hcoherent.codes_eq_none hlive hexited
  exact ⟨hcodes, hprotocol.result hcodes⟩

theorem skynet_result_start : ∃ labels s, (bench 8 ℕ 7).Run (fun _ _ ↦ True) labels s ∧
    s.scheduler.workers 0 = .exited ∧ (s.shared 1).result = 499999500000 := by
  obtain ⟨run, -⟩ := exists_fairRun_bench (initial_start 8 7)
  obtain ⟨final, hexited⟩ := (ends 7).exited_of_fair run
  obtain ⟨labels, hrun⟩ := run.exists_run final
  obtain ⟨-, -, -, hresult⟩ := skynet_result hrun (hexited final le_rfl 0)
  have hlast : (lastLayer 7 : ℤ) * (lastLayer 7 - 1) = 2 * 499999500000 := rfl
  exact ⟨labels, _, hrun, hexited final le_rfl 0,
    mul_left_cancel₀ two_ne_zero (hresult.trans hlast)⟩

end Libseff.Skynet
