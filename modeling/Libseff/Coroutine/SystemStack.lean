import Libseff.Coroutine.StateField

/-!
# The system stack of a thread

`__morestack` and the syscall wrappers switch to `_seff_system_stack`, which `seff_resume` writes
only when no coroutine runs. The coroutine at the bottom of a stack changes meanwhile: frames are
captured and put back on another thread, and other frames take their place. In every state the slot
of a thread that runs a coroutine nevertheless holds the stack pointer that the resume point of the
outermost coroutine of its parent chain saved. It is the one of the code that waits below all frames
of this thread, which resumed a coroutine from the top level and has not run since
(`SystemStackHolds`).

The stack pointer of each thread at its latest resumption from the top level is kept beside the
machine (`TopLevelHistory`).
-/

set_option autoImplicit false
set_option relaxedAutoImplicit false

namespace Libseff.Coroutine

open Foundation Foundation.ShallowHandlers

/-! ### Parent chains of linked frames -/

section Chains

variable {coroutines : Word → SeffCoroutine} {base : Context} {frames : List Frame}

/-- The coroutines on the parent chain of linked frames are those of the frames. -/
theorem onParentChain_iff (hlinked : Linked coroutines (0, base) frames)
    (hnonnull : 0 ∉ names frames) (k : Word) :
    OnParentChain coroutines (innermost (0, base) frames).1 k ↔ k ∈ names frames := by
  induction frames with
  | nil =>
    refine ⟨fun h ↦ ?_, fun hmem ↦ absurd hmem List.not_mem_nil⟩
    cases h with
    | here hk => exact absurd rfl hk
    | parent hcurrent _ => exact absurd rfl hcurrent
  | cons frame rest ih =>
    have hne : frame.coroutine ≠ 0 := fun hzero ↦ hnonnull (by simp [hzero])
    have hrest := ih hlinked.2 fun hmem ↦ hnonnull (List.mem_cons_of_mem _ hmem)
    rw [← hlinked.1.parent] at hrest
    rw [innermost_cons, names_cons, List.mem_cons, ← hrest]
    refine ⟨fun h ↦ ?_, ?_⟩
    · cases h with
      | here hk => exact .inl rfl
      | parent hcurrent hparent => exact .inr hparent
    · rintro (rfl | hparent)
      · exact .here hne
      · exact .parent hne hparent

/-- Linked frames have one coroutine without parent, and its resume point holds the context below
the frames. -/
theorem exists_outermost (hlinked : Linked coroutines (0, base) frames)
    (hnonnull : 0 ∉ names frames) (hne : frames ≠ []) :
    ∃ k ∈ names frames, (coroutines k).parentCoroutine = 0 ∧
      (coroutines k).resumePoint.context = base ∧
      ∀ other ∈ names frames, (coroutines other).parentCoroutine = 0 → other = k := by
  induction frames with
  | nil => exact absurd rfl hne
  | cons frame rest ih =>
    cases rest with
    | nil =>
      exact ⟨frame.coroutine, by simp, hlinked.1.parent, hlinked.1.context, by simp⟩
    | cons below rest =>
      obtain ⟨k, hk, hparent, hcontext, hunique⟩ := ih hlinked.2
        (fun hmem ↦ hnonnull (List.mem_cons_of_mem _ hmem)) (by simp)
      refine ⟨k, List.mem_cons_of_mem _ hk, hparent, hcontext, fun other hother hnull ↦ ?_⟩
      rcases List.mem_cons.mp hother with rfl | hrest
      · -- the parent is the coroutine of the frame below, which is not null
        have hbelow := hlinked.1.parent
        rw [hnull, innermost_cons] at hbelow
        exact absurd (by simp [show below.coroutine = 0 from hbelow.symm]) hnonnull
      · exact hunique other hrest hnull

end Chains

/-! ### The slot of every thread -/

section Slots

variable {Id : Type*} [DecidableEq Id] {coroutinePrelude : Word} {ndebug : Bool}
  {m next : Machine Id} {c c' : Configuration Id} {latest latest' : Id → Word}

/-- The stack pointer of each thread at its latest `seff_resume` from the top level, after an
operation. -/
def Operation.topLevelResume (m : Machine Id) (latest : Id → Word) : Operation Id → Id → Word
  | .resume thread .. =>
    if (m.threads thread).currentCoroutine = 0 then
      Function.update latest thread (m.threads thread).rsp
    else latest
  | _ => latest

/-- The machine and the configuration it represents, with the stack pointer of each thread at its
latest resumption from the top level. -/
structure TopLevelHistory (Id : Type*) where
  machine : Machine Id
  configuration : Configuration Id
  latest : Id → Word

/-- The runs of the machine and the configuration side by side, with this history. -/
def topLevelSystem (coroutinePrelude : Word) (ndebug : Bool) :
    TransitionSystem (TopLevelHistory Id) (Operation Id) where
  initial state := Start state.machine state.configuration
  step state operation after :=
    (pairedSystem coroutinePrelude ndebug).step (state.machine, state.configuration) operation
        (after.machine, after.configuration) ∧
      after.latest = operation.topLevelResume state.machine state.latest

/-- Where a thread has frames, its system stack is the stack pointer of the code below them, and so
is its stack pointer at its latest resumption from the top level. -/
def SystemStackHolds (m : Machine Id) (c : Configuration Id) (latest : Id → Word) : Prop :=
  ∀ thread, c.frames (.active thread) ≠ [] →
    (m.threads thread).systemStack = (c.base thread).rsp ∧ latest thread = (c.base thread).rsp

namespace SystemStackHolds

omit [DecidableEq Id] in
/-- An operation that gives frames to no thread without, and leaves the slots and what is below the
frames. -/
theorem keep (h : SystemStackHolds m c latest)
    (hslot : ∀ thread, (next.threads thread).systemStack = (m.threads thread).systemStack)
    (hbase : ∀ thread, c.frames (.active thread) ≠ [] → c'.base thread = c.base thread)
    (hframes : ∀ thread, c.frames (.active thread) = [] → c'.frames (.active thread) = []) :
    SystemStackHolds next c' latest := by
  intro thread hstack
  have hold : c.frames (.active thread) ≠ [] := fun hnil ↦ hstack (hframes thread hnil)
  rw [hslot, hbase thread hold]
  exact h thread hold

theorem capture (h : SystemStackHolds m c latest) {thread : Id} {inner : List Frame} {own : Frame}
    {rest : List Frame} (hstack : c.frames (.active thread) = inner ++ own :: rest)
    (effect payload : Word) :
    SystemStackHolds (m.switch thread own.coroutine (seffYield effect payload))
      (c.capture thread inner own rest effect payload) latest := by
  refine h.keep (Machine.switch_thread _ fun _ _ ↦ rfl) (fun _ _ ↦ rfl) fun other hnil ↦ ?_
  by_cases hother : other = thread
  · subst hother
    simp [hstack] at hnil
  · simpa [Configuration.capture, hother] using hnil

theorem discard (h : SystemStackHolds m c latest) {thread : Id} {inner : List Frame} {own : Frame}
    {rest : List Frame} (hstack : c.frames (.active thread) = inner ++ own :: rest) (k : Word)
    (effect payload : Word) :
    SystemStackHolds (m.switch thread k (seffExit ndebug effect payload))
      (c.discard thread inner own rest effect payload) latest := by
  refine h.keep (Machine.switch_thread _ fun _ _ ↦ by simp) (fun _ _ ↦ rfl) fun other hnil ↦ ?_
  by_cases hother : other = thread
  · subst hother
    simp [hstack] at hnil
  · simpa [Configuration.discard, hother] using hnil

/-- A resumption sets the slot exactly where it puts the first frames on a stack. -/
theorem resume (h : SystemStackHolds m c latest) (hrepresents : Represents m c) {thread : Id}
    {k : Word} (arg handled : Word) (inner : List Frame) (own : Frame) :
    SystemStackHolds (m.switch thread k (seffResume arg handled))
      (c.resume thread k arg (effectSet handled) inner own)
      (Operation.topLevelResume m latest (.resume thread k arg handled)) := by
  intro other hstack
  by_cases hother : other = thread
  · subst hother
    by_cases hcurrent : (m.threads other).currentCoroutine = 0
    · have hnil := (hrepresents.frames_eq_nil_iff other).mpr hcurrent
      have hrunning := hrepresents.running other
      rw [hnil] at hrunning
      have hrsp : (m.threads other).rsp = (c.base other).rsp :=
        congrArg (fun point ↦ point.2.rsp) hrunning
      simpa [Machine.switch, Operation.topLevelResume, hcurrent, Configuration.resume] using hrsp
    · have hold := h other (mt (hrepresents.frames_eq_nil_iff other).mp hcurrent)
      simp only [Machine.switch, Operation.topLevelResume, Configuration.resume,
        Function.update_self, seffResume_thread_systemStack, if_neg hcurrent]
      exact hold
  · have hold := h other (by simpa [Configuration.resume, hother] using hstack)
    have hlatest : Operation.topLevelResume m latest (.resume thread k arg handled) other =
        latest other := by
      simp only [Operation.topLevelResume]
      split_ifs
      · exact Function.update_of_ne hother _ _
      · rfl
    rw [hlatest]
    simpa [Machine.switch, hother, Configuration.resume] using hold

/-- Every step of the machine and the configuration keeps the slots. -/
theorem step (h : SystemStackHolds m c latest) (hrepresents : Represents m c)
    {operation : Operation Id} (hmachine : m.Step coroutinePrelude ndebug operation next)
    (hstep : Step c (operation.action coroutinePrelude) c')
    (hpermitted : Permitted Resumable m c operation) :
    SystemStackHolds next c' (operation.topLevelResume m latest) := by
  cases operation with
  | compute thread context rax rdx =>
    cases hmachine
    cases hstep with
    | compute =>
      refine h.keep (fun other ↦ ?_) (fun other hstack ↦ ?_) fun other hnil ↦ ?_
      · by_cases hother : other = thread
        · subst hother
          simp [Machine.compute, Thread.setContext]
        · simp [Machine.compute, hother]
      · by_cases hother : other = thread
        · subst hother
          simp [Configuration.compute, hstack]
        · exact c.compute_base_of_ne hother context
      · by_cases hother : other = thread
        · subst hother
          rw [c.compute_frames_of_nil hnil, hnil]
        · rwa [c.compute_frames_of_ne (by simpa using hother)]
  | init k fn arg frameSize stack rsp =>
    cases hmachine
    cases hstep with
    | create =>
      exact h.keep (fun _ ↦ rfl) (fun _ _ ↦ rfl) fun other hnil ↦ by
        simpa [Configuration.create] using hnil
  | resume thread k arg handled =>
    cases hmachine
    cases hstep with
    | resume => exact h.resume hrepresents arg handled _ _
  | yield thread k effect payload =>
    cases hmachine
    cases hstep with
    | yield _ _ _ hstack => exact h.capture hstack effect payload
  | perform thread effect payload =>
    obtain ⟨handler, hlocates, -, rfl⟩ := hmachine
    cases hstep with
    | perform _ _ _ hstack hinner hown =>
      obtain rfl := (hrepresents.locates_iff hpermitted.1 hstack hinner hown handler).mp hlocates
      exact h.capture hstack effect payload
  | exit thread k effect payload =>
    cases hmachine
    cases hstep with
    | exit _ _ _ hstack => exact h.discard hstack _ effect payload
  | throw thread effect payload =>
    obtain ⟨handler, -, -, rfl⟩ := hmachine
    cases hstep with
    | throw _ _ _ hstack _ _ => exact h.discard hstack _ effect payload
  | ret thread result =>
    cases hmachine
    cases hstep with
    | finish _ _ _ hstack =>
      exact h.discard (show _ = [] ++ _ from hstack) _ returnEffectId result

end SystemStackHolds

omit [DecidableEq Id] in
/-- A suspended coroutine may be resumed. -/
theorem Represents.resumable (h : Represents m c) {k : Word} (hsuspended : c.Suspended k) :
    Resumable m c k := by
  obtain ⟨hactive, henclosed, hfinished, hdiscarded⟩ := h.wellFormed.not_of_suspended hsuspended
  have hcreated := h.wellFormed.present k ⟨_, h.wellFormed.mem_names_captured hsuspended⟩
  refine ⟨⟨hcreated, fun hstate ↦ ?_, hactive, henclosed⟩, hdiscarded⟩
  rw [h.paused k hcreated hfinished] at hstate
  cases hstate

/-- The machine represents the configuration, and the slots hold. -/
def TopLevelHistory.Holds (state : TopLevelHistory Id) : Prop :=
  Represents state.machine state.configuration ∧
    SystemStackHolds state.machine state.configuration state.latest

theorem holds_of_run {operations : List (Operation Id)} {state : TopLevelHistory Id}
    (hrun : (topLevelSystem coroutinePrelude ndebug).Run
      (fun state operation ↦ Permitted (fun _ c k ↦ c.Suspended k) state.machine
        state.configuration operation) operations state) : state.Holds := by
  refine hrun.invariant ?_ ?_
  · intro start hstart
    have hstart : Start start.machine start.configuration := hstart
    exact ⟨Represents.start hstart, fun thread hframes ↦ absurd (hstart.frames _) hframes⟩
  · rintro before operation after ⟨hrepresents, hslots⟩ hpermitted ⟨⟨hmachine, hstep⟩, hlatest⟩
    have hallowed : Permitted Resumable before.machine before.configuration operation := by
      cases operation with
      | resume => exact hrepresents.resumable hpermitted
      | _ => exact hpermitted
    exact ⟨hrepresents.step hallowed hmachine hstep,
      hlatest ▸ hslots.step hrepresents hmachine hstep hallowed⟩

/-- **The system stack of a thread.** In every run that resumes suspended coroutines, the parent
chain of the coroutine that a thread runs has one outermost coroutine, and `_seff_system_stack` of
the thread is the stack pointer saved in its resume point. It is the stack pointer of the thread at
its latest resumption from the top level, and the one of the code that waits there. -/
theorem systemStack_of_run {operations : List (Operation Id)} {state : TopLevelHistory Id}
    (hrun : (topLevelSystem coroutinePrelude ndebug).Run
      (fun state operation ↦ Permitted (fun _ c k ↦ c.Suspended k) state.machine
        state.configuration operation) operations state) (thread : Id)
    (hcurrent : (state.machine.threads thread).currentCoroutine ≠ 0) :
    ∃ outermost,
      (∀ k, OnParentChain state.machine.coroutines
            (state.machine.threads thread).currentCoroutine k ∧
          (state.machine.coroutines k).parentCoroutine = 0 ↔ k = outermost) ∧
      (state.machine.threads thread).systemStack =
        (state.machine.coroutines outermost).resumePoint.rsp ∧
      (state.machine.threads thread).systemStack = state.latest thread ∧
      (state.machine.threads thread).systemStack = (state.configuration.base thread).rsp := by
  obtain ⟨hrepresents, hslots⟩ := holds_of_run hrun
  have hframes := mt (hrepresents.frames_eq_nil_iff thread).mp hcurrent
  obtain ⟨hbase, hlatest⟩ := hslots thread hframes
  have hlinked := hrepresents.active thread
  have hnonnull := hrepresents.nonnull (.active thread)
  have hchain := onParentChain_iff hlinked hnonnull
  rw [← hrepresents.running thread] at hchain
  obtain ⟨k, hk, hparent, hcontext, hunique⟩ := exists_outermost hlinked hnonnull hframes
  refine ⟨k, fun other ↦ ⟨?_, ?_⟩, ?_, hbase.trans hlatest.symm, hbase⟩
  · rintro ⟨hother, hnull⟩
    exact hunique other ((hchain other).mp hother) hnull
  · rintro rfl
    exact ⟨(hchain other).mpr hk, hparent⟩
  · rw [hbase, ← hcontext]
    rfl

/-- A run goes on with a permitted operation that both take. -/
theorem topLevelRun_step {operations : List (Operation Id)} (operation : Operation Id)
    (hrun : (topLevelSystem coroutinePrelude ndebug).Run
      (fun state operation ↦ Permitted (fun _ c k ↦ c.Suspended k) state.machine
        state.configuration operation) operations ⟨m, c, latest⟩)
    (hpermitted : Permitted (fun _ c k ↦ c.Suspended k) m c operation)
    (hmachine : m.Step coroutinePrelude ndebug operation next)
    (hstep : Step c (operation.action coroutinePrelude) c') :
    (topLevelSystem coroutinePrelude ndebug).Run
      (fun state operation ↦ Permitted (fun _ c k ↦ c.Suspended k) state.machine
        state.configuration operation) (operations ++ [operation])
      ⟨next, c', operation.topLevelResume m latest⟩ :=
  hrun.step hpermitted ⟨⟨hmachine, hstep⟩, rfl⟩

end Slots

/-- The top level resumes a new coroutine. -/
def resumeNew : List (Operation Unit) := [.init 1 0 0 0 0 0, .resume () 1 0 0]

/-- The state after these operations, when the top level has its stack pointer at `rsp`. -/
theorem run_resumeNew (rsp : Word) : ∃ state : TopLevelHistory Unit,
    (topLevelSystem 0 false).Run (fun state operation ↦ Permitted (fun _ c k ↦ c.Suspended k)
      state.machine state.configuration operation) resumeNew state ∧
    (state.machine.threads ()).currentCoroutine = 1 ∧
    (state.machine.threads ()).systemStack = rsp := by
  let context : Context := ⟨rsp, 0, 0, 0, 0, 0, 0, 0, 0⟩
  let m₀ : Machine Unit := zeroMachine.compute () context 0 0
  let c₀ : Configuration Unit := { zeroConfiguration with base := fun _ ↦ context }
  let c₁ := c₀.create 1 (newFrame 1).context
  have hcaptured : c₁.frames (.captured 1) = [] ++ [newFrame 1] := by
    simp [c₁, Configuration.create, newFrame]
  have hstart : (topLevelSystem 0 false).Run (fun state operation ↦
      Permitted (fun _ c k ↦ c.Suspended k) state.machine state.configuration operation) []
        ⟨m₀, c₀, fun _ ↦ 0⟩ :=
    .start ⟨fun _ ↦ rfl, fun _ ↦ rfl, fun _ ↦ rfl, fun _ ↦ rfl, rfl⟩
  have hinit := topLevelRun_step (.init 1 0 0 0 0 0) hstart
    ⟨by decide, fun place ↦ by simp [c₀, zeroConfiguration]⟩ rfl
    (.create 1 _ fun place ↦ by simp [c₀, zeroConfiguration])
  have hsuspended : c₁.Suspended 1 := by
    rw [Configuration.Suspended, hcaptured]
    exact List.cons_ne_nil _ _
  have hresume := topLevelRun_step (.resume () 1 0 0) hinit hsuspended rfl
    (.resume () 1 0 _ hcaptured)
  exact ⟨_, hresume, rfl, rfl⟩

theorem systemStack_of_run_resumeNew : ∃ (state : TopLevelHistory Unit) (outermost : Word),
    (topLevelSystem 0 false).Run (fun state operation ↦ Permitted (fun _ c k ↦ c.Suspended k)
      state.machine state.configuration operation) resumeNew state ∧
    (state.machine.coroutines outermost).resumePoint.rsp = 0x7fff0000 := by
  obtain ⟨state, hrun, hcurrent, hstack⟩ := run_resumeNew 0x7fff0000
  obtain ⟨outermost, -, hsaved, -⟩ := systemStack_of_run hrun () (by rw [hcurrent]; decide)
  exact ⟨state, outermost, hrun, hsaved.symm.trans hstack⟩

end Libseff.Coroutine
