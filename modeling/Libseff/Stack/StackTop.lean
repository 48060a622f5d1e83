import Libseff.Coroutine.HandlerSimulation
import Libseff.Stack.SegmentSafety

/-!
# The stack limit across switches and stack growth

`STACK_TOP` is written by the switching routines, which save it in the resume point of one coroutine
on behalf of another, and by `__morestack`, which moves `frame_ptr` of the current coroutine and
computes the limit anew. The machine of threads and coroutines is run here with the heap of the
segments: besides the operations of `Machine`, the code of a coroutine enters `__morestack` and
returns from it.

Every context a frame holds has its stack limit in the 16 bytes up to the first data byte of the
current segment of its own coroutine (`InSegment`), and the context below every stack has the limit
zero. Switches only move frames, and a call or return changes the limit of the innermost frame
together with the `frame_ptr` of its coroutine. What is saved in the resume points follows, since
the machine represents the frames.
-/

set_option autoImplicit false
set_option relaxedAutoImplicit false

namespace Libseff.Stack

open Foundation Foundation.ShallowHandlers Coroutine

/-- The machine with the heap of the segments, the segments created for each coroutine, and the
segments on which its calls in progress entered `__morestack`. -/
structure SegmentedMachine (Id : Type*) where
  machine : Machine Id
  heap : Heap
  created : Word → List Word
  callers : Word → List Word

/-- What a thread does in one step. -/
inductive StackOperation (Id : Type*)
  | run (operation : Operation Id)
  | init (k fn arg frameSize block : Word)
  | grow (thread : Id) (frameSize paramSize block : Word) (oldStack : ℕ → BitVec 8)
  | shrink (thread : Id)

namespace SegmentedMachine

variable {Id : Type*} [DecidableEq Id]

/-- The current coroutine of a thread. -/
def current (s : SegmentedMachine Id) (thread : Id) : Word :=
  (s.machine.threads thread).currentCoroutine

/-- `__morestack` writes `STACK_TOP`, and the memory function it called the current coroutine. -/
def setLimit (s : SegmentedMachine Id) (thread : Id) (stackTop : Word) (written : SeffCoroutine) :
    Machine Id :=
  { s.machine with
    threads := Function.update s.machine.threads thread
      { s.machine.threads thread with stackTop := stackTop }
    coroutines := Function.update s.machine.coroutines (s.current thread) written }

/-- One operation. The registers that `__morestack` moves besides `STACK_TOP` belong to the code of
the coroutine, which computes them. -/
def Step (coroutinePrelude minSegmentSize : Word) (ndebug : Bool) (s : SegmentedMachine Id) :
    StackOperation Id → SegmentedMachine Id → Prop
  | .run operation, after =>
    ∃ machine, s.machine.Step coroutinePrelude ndebug operation machine ∧
      after = { s with machine := machine }
  | .init k fn arg frameSize block, after =>
    ∃ stack rsp heap, initStackFrame block (frameSize + 16) s.heap = some (stack, rsp, heap) ∧
      after =
        { machine := s.machine.init coroutinePrelude k fn arg frameSize stack rsp
          heap := heap
          created := Function.update s.created k [stack]
          callers := Function.update s.callers k [] }
  | .grow thread frameSize paramSize block oldStack, after =>
    ∃ frame, seffMemAllocateFrame minSegmentSize block frameSize paramSize oldStack s.heap
        (s.machine.coroutines (s.current thread)) = some frame ∧
      after =
        { machine := s.setLimit thread (frame.newStack - frame.frameSize) frame.current
          heap := frame.heap
          created := Function.update s.created (s.current thread)
            (if (frame.heap block).isSome then block :: s.created (s.current thread)
              else s.created (s.current thread))
          callers := Function.update s.callers (s.current thread)
            (s.callers (s.current thread) ++
              [(s.machine.coroutines (s.current thread)).framePtr]) }
  | .shrink thread, after =>
    ∃ stackTop written,
      seffMemReleaseFrame s.heap (s.machine.coroutines (s.current thread)) =
        some (stackTop, written) ∧
      after =
        { s with
          machine := s.setLimit thread stackTop written
          callers := Function.update s.callers (s.current thread)
            (s.callers (s.current thread)).dropLast }

end SegmentedMachine

section Runs

variable {Id : Type*} [DecidableEq Id] (coroutinePrelude minSegmentSize : Word) (ndebug : Bool)

/-- The action of the handler semantics that an operation implements. -/
def StackOperation.Implements (operation : StackOperation Id)
    (after : SegmentedMachine Id) (c c' : Configuration Id) : Prop :=
  match operation with
  | .run operation => ShallowHandlers.Step c (operation.action coroutinePrelude) c'
  | .init k _ _ _ _ =>
    ShallowHandlers.Step c (.create k (after.machine.coroutines k).resumePoint.context) c'
  | .grow thread .. | .shrink thread =>
    ShallowHandlers.Step c (.compute thread (after.machine.threads thread).context) c'

/-- The operations a program may do. Its own code leaves `STACK_TOP` alone, a coroutine is
initialised in memory that no frame uses, `__morestack` is entered by the code of a coroutine, and a
coroutine returns from it no more often than it entered. No size that is computed for `malloc`
wraps. -/
def MayDo (resumable : Machine Id → Configuration Id → Word → Prop) (s : SegmentedMachine Id)
    (c : Configuration Id) : StackOperation Id → Prop
  | .run (.init ..) => False
  | .run (.compute thread context ..) => context.stackTop = (s.machine.threads thread).stackTop
  | .run operation => Permitted resumable s.machine c operation
  | .init k _ _ frameSize block =>
    (k ≠ 0 ∧ ∀ place, k ∉ names (c.frames place)) ∧
      FreshBlock s.heap block (frameSize + 16 + segmentHeader) ∧
      frameSize.toNat + 16 + 160 < 2 ^ 64
  | .grow thread frameSize paramSize block _ => s.current thread ≠ 0 ∧
    FreshBlock s.heap block (newSize minSegmentSize frameSize paramSize + segmentHeader) ∧
    SizesFit minSegmentSize frameSize paramSize
  | .shrink thread => s.current thread ≠ 0 ∧ s.callers (s.current thread) ≠ []

/-- All threads are at the top level, as `seff_mem_thread_init` leaves them, and no coroutine
exists. -/
structure StartsAt (s : SegmentedMachine Id) (c : Configuration Id) : Prop where
  start : Start s.machine c
  stackTop : ∀ thread, (s.machine.threads thread).stackTop = 0
  created : ∀ k, s.created k = []

/-- The machine and the configuration it represents, run side by side. -/
def segmentedSystem :
    TransitionSystem (SegmentedMachine Id × Configuration Id) (StackOperation Id) where
  initial state := StartsAt state.1 state.2
  step state operation after :=
    state.1.Step coroutinePrelude minSegmentSize ndebug operation after.1 ∧
      operation.Implements coroutinePrelude after.1 state.2 after.2

end Runs

/-- A stack limit in the 16 bytes up to the first data byte of a segment, whose header is in the
address space. -/
structure InSegment (stackTop segment : Word) : Prop where
  header : segment.toNat + 160 < 2 ^ 64
  above : (segmentData segment).toNat < stackTop.toNat + 16
  below : stackTop.toNat ≤ (segmentData segment).toNat

/-- The limit that `seff_coroutine_init_sized` stores and the one after a return. -/
theorem InSegment.data {segment : Word} (h : segment.toNat + 160 < 2 ^ 64) :
    InSegment (segmentData segment) segment :=
  ⟨h, by omega, le_refl _⟩

theorem InSegment.ne_zero {stackTop segment : Word} (h : InSegment stackTop segment) :
    stackTop ≠ 0 := by
  rintro rfl
  have habove := h.above
  rw [segmentData_toNat h.header] at habove
  simp at habove
  omega

/-- The limit that `__morestack` computes from the stack pointer it got. -/
theorem InSegment.grown {segment : Word} (size paramSize : Word)
    (h : segment.toNat + 160 < 2 ^ 64) :
    InSegment (alignLoop 16 (segmentData segment + size - paramSize) - (size - paramSize))
      segment := by
  rw [grownLimit_eq]
  have hmod := toNat_mod_sixteen (segmentData segment + size - paramSize)
  have hdata := segmentData_toNat h
  have hsub : (segmentData segment - (segmentData segment + size - paramSize) % 16).toNat =
      (segmentData segment).toNat - ((segmentData segment + size - paramSize) % 16).toNat :=
    BitVec.toNat_sub_of_le (by rw [BitVec.le_def]; omega)
  exact ⟨h, by omega, by omega⟩

/-! ### What each operation preserves -/

section Preservation

variable {Id : Type*} [DecidableEq Id] {coroutinePrelude minSegmentSize : Word} {ndebug : Bool}

/-- Switches leave every `frame_ptr` as it is. -/
theorem framePtr_of_step {m next : Machine Id} {operation : Operation Id}
    (hmoves : (operation.action coroutinePrelude).Moves)
    (hstep : m.Step coroutinePrelude ndebug operation next) (k : Word) :
    (next.coroutines k).framePtr = (m.coroutines k).framePtr := by
  cases operation with
  | compute => exact hmoves.elim
  | init => exact hmoves.elim
  | resume thread target arg handled =>
    rw [show next = _ from hstep]
    exact Machine.switch_coroutine _ (fun _ _ ↦ rfl) k
  | yield thread target effect payload =>
    rw [show next = _ from hstep]
    exact Machine.switch_coroutine _ (fun _ _ ↦ rfl) k
  | perform thread effect payload =>
    obtain ⟨handler, -, -, rfl⟩ := hstep
    exact Machine.switch_coroutine _ (fun _ _ ↦ rfl) k
  | exit thread target effect payload =>
    rw [show next = _ from hstep]
    exact Machine.switch_coroutine _ (fun _ _ ↦ by simp) k
  | throw thread effect payload =>
    obtain ⟨handler, -, -, rfl⟩ := hstep
    exact Machine.switch_coroutine _ (fun _ _ ↦ by simp) k
  | ret thread result =>
    rw [show next = _ from hstep]
    exact Machine.switch_coroutine _ (fun _ _ ↦ by simp) k

omit [DecidableEq Id] in
/-- The frames do not depend on `frame_ptr`. -/
theorem Represents.setFramePtr {m : Machine Id} {c : Configuration Id} (h : Represents m c)
    (k segment : Word) :
    Represents { m with
      coroutines := Function.update m.coroutines k { m.coroutines k with framePtr := segment } }
      c := by
  obtain ⟨changed, hchanged⟩ : ∃ changed, changed =
      Function.update m.coroutines k { m.coroutines k with framePtr := segment } := ⟨_, rfl⟩
  have hsame : ∀ other, (changed other).parentCoroutine = (m.coroutines other).parentCoroutine ∧
      (changed other).resumePoint = (m.coroutines other).resumePoint ∧
      (changed other).handledEffects = (m.coroutines other).handledEffects ∧
      (changed other).state = (m.coroutines other).state := by
    intro other
    by_cases hother : other = k
    · subst hother
      simp [hchanged]
    · simp [hchanged, hother]
  have hlinked : ∀ below frames, Linked m.coroutines below frames →
      Linked changed below frames := fun below frames ↦
    linked_congr (fun other _ ↦ (hsame other).1) (fun other _ ↦ by rw [(hsame other).2.1])
      (fun other _ ↦ (hsame other).2.2.1)
  rw [← hchanged]
  refine ⟨h.wellFormed, h.nonnull, h.running, fun thread ↦ hlinked _ _ (h.active thread),
    fun other inner own hframes ↦ ?_, h.answer, fun other hcreated hfinished ↦ ?_,
    fun other hcreated hfinished ↦ ?_, h.entry⟩
  · obtain ⟨hpoint, hinner⟩ := h.captured other inner own hframes
    rw [(hsame other).2.1]
    exact ⟨hpoint, hlinked _ _ hinner⟩
  · rw [(hsame other).2.2.2]
    exact h.finished other hcreated hfinished
  · rw [(hsame other).2.2.2]
    exact h.paused other hcreated hfinished

/-- The code of a coroutine that entered or left a segment is represented with the new limit. -/
theorem represents_setLimit {s : SegmentedMachine Id} {c : Configuration Id}
    (h : Represents s.machine c) (thread : Id) (stackTop segment : Word) :
    Represents
      (s.setLimit thread stackTop
        { s.machine.coroutines (s.current thread) with framePtr := segment })
      (c.compute thread { (s.machine.threads thread).context with stackTop := stackTop }) :=
  (Represents.setFramePtr h (s.current thread) segment).compute thread
    { (s.machine.threads thread).context with stackTop := stackTop }
    (s.machine.threads thread).rax (s.machine.threads thread).rdx

/-- The limits of all contexts fit the segments of their coroutines. -/
structure Coherent (s : SegmentedMachine Id) (c : Configuration Id) : Prop where
  represents : Represents s.machine c
  segmented : Segmented s.heap (fun k ↦ (s.machine.coroutines k).framePtr) s.created s.callers
  frames : c.AllFrames fun k context ↦
    s.created k ≠ [] ∧ InSegment context.stackTop (s.machine.coroutines k).framePtr
  base : ∀ thread, (c.base thread).stackTop = 0

namespace Coherent

variable {s after : SegmentedMachine Id} {c c' : Configuration Id}

omit [DecidableEq Id] in
theorem start (h : StartsAt s c) : Coherent s c where
  represents := Represents.start h.start
  segmented := ⟨⟨fun k ↦ by simp [h.created k], fun first _ _ ↦ by simp [h.created first]⟩,
    fun k hused ↦ absurd (h.created k) hused⟩
  frames place frame hmem := by simp [h.start.frames place] at hmem
  base thread := by rw [h.start.base thread]; exact h.stackTop thread

/-- Switches. -/
theorem move (h : Coherent s c) {operation : Operation Id} {next : Machine Id}
    (hmachine : s.machine.Step coroutinePrelude ndebug operation next)
    (hstep : ShallowHandlers.Step c (operation.action coroutinePrelude) c')
    (hpermitted : Permitted Resumable s.machine c operation)
    (hmoves : (operation.action coroutinePrelude).Moves) :
    Coherent { s with machine := next } c' := by
  obtain ⟨hframes, hbase⟩ := h.frames.move hstep hmoves
  have hframePtr := framePtr_of_step hmoves hmachine
  refine ⟨h.represents.step hpermitted hmachine hstep, ?_, ?_, ?_⟩
  · simpa only [hframePtr] using h.segmented
  · simpa only [hframePtr] using hframes
  · simpa only [hbase] using h.base

omit [DecidableEq Id] in
/-- The limit of a thread is the one of the context on top of its stack. -/
theorem limit_eq (h : Coherent s c) (thread : Id) : (s.machine.threads thread).stackTop =
    (innermost (0, c.base thread) (c.frames (.active thread))).2.stackTop :=
  congrArg (fun point ↦ point.2.stackTop) (h.represents.running thread)

/-- The code of a thread computes and leaves the limit alone. -/
theorem compute (h : Coherent s c) {thread : Id} {context : Context} (rax rdx : Word)
    (hlimit : context.stackTop = (s.machine.threads thread).stackTop) :
    Coherent { s with machine := s.machine.compute thread context rax rdx }
      (c.compute thread context) := by
  rw [h.limit_eq thread] at hlimit
  refine ⟨h.represents.compute thread context rax rdx, h.segmented, ?_, fun other ↦ ?_⟩
  · cases hstack : c.frames (.active thread) with
    | nil =>
      rw [Configuration.AllFrames, c.compute_frames_of_nil hstack]
      exact h.frames
    | cons frame rest =>
      refine h.frames.compute h.represents.wellFormed hstack ?_ fun _ _ _ hold ↦ hold
      rw [hstack] at hlimit
      rw [hlimit]
      exact h.frames (.active thread) frame (by simp [hstack])
  · by_cases hother : other = thread
    · subst hother
      simp only [Configuration.compute]
      split_ifs with hstack
      · rw [hstack] at hlimit
        simpa [hlimit] using h.base other
      · exact h.base other
    · rw [c.compute_base_of_ne hother]
      exact h.base other

/-- A coroutine is initialised. -/
theorem init (h : Coherent s c) {k fn arg frameSize block : Word}
    (hk : k ≠ 0 ∧ ∀ place, k ∉ names (c.frames place))
    (hblock : FreshBlock s.heap block (frameSize + 16 + segmentHeader))
    (hsize : frameSize.toNat + 16 + 160 < 2 ^ 64)
    (hmachine : s.Step coroutinePrelude minSegmentSize ndebug (.init k fn arg frameSize block)
      after)
    (hstep : ShallowHandlers.Step c (.create k (after.machine.coroutines k).resumePoint.context)
      c') : Coherent after c' := by
  obtain ⟨stack, rsp, heap, hinit, rfl⟩ := hmachine
  obtain ⟨changed, hcall, hstack, -, hchanged⟩ := StackOf.initFrame hblock hsize
  simp only [hcall, Option.some.injEq, Prod.mk.injEq] at hinit
  obtain ⟨rfl, rfl, rfl⟩ := hinit
  have hcontext : ((s.machine.init coroutinePrelude k fn arg frameSize block
      (segmentData block + (frameSize + 16))).coroutines k).resumePoint.context =
        initialContext coroutinePrelude k fn arg frameSize
          (segmentData block + (frameSize + 16)) := by
    simp [Machine.init]
  rw [hcontext] at hstep
  have hlimit : (initialContext coroutinePrelude k fn arg frameSize
      (segmentData block + (frameSize + 16))).stackTop = segmentData block := by
    simp only [initialContext]
    bv_omega
  have hsegmented := h.segmented.init k hblock.fresh hstack hchanged
  cases hstep with
  | create _ _ hfresh =>
    refine ⟨h.represents.init _ _ _ _ _ _ hk.1 hfresh, ?_, ?_, h.base⟩
    · simp only [Machine.init]
      rw [Stacks.framePtr_update]
      exact hsegmented
    · refine h.frames.create hfresh ?_ fun other context hother hold ↦ ?_
      · rw [hlimit]
        simpa [Machine.init, seffCoroutineInitSized] using
          InSegment.data (hstack.header (by simp))
      · simpa [Machine.init, hother] using hold

omit [DecidableEq Id] in
/-- The current coroutine of a thread is in use, and the coroutine of its innermost frame. -/
theorem exists_frame (h : Coherent s c) {thread : Id} (hcurrent : s.current thread ≠ 0) :
    ∃ frame rest, c.frames (.active thread) = frame :: rest ∧
      frame.coroutine = s.current thread ∧ s.created (s.current thread) ≠ [] := by
  have hrunning : s.current thread = _ := congrArg Prod.fst (h.represents.running thread)
  obtain ⟨frame, rest, hstack⟩ :=
    List.exists_cons_of_ne_nil fun hnil ↦ hcurrent
      ((h.represents.frames_eq_nil_iff thread).mp hnil)
  rw [hstack] at hrunning
  refine ⟨frame, rest, hstack, hrunning.symm, ?_⟩
  rw [hrunning]
  exact (h.frames (.active thread) frame (by simp [hstack])).1

/-- The innermost frame of a stack gets a new limit and its coroutine a new segment. -/
theorem setLimit (h : Coherent s c) {thread : Id} (hcurrent : s.current thread ≠ 0)
    {stackTop segment : Word} {heap : Heap} {created callers : Word → List Word}
    (hsegmented : Segmented heap
      (Function.update (fun k ↦ (s.machine.coroutines k).framePtr) (s.current thread) segment)
      created callers)
    (hused : created (s.current thread) ≠ [])
    (hkept : ∀ k, k ≠ s.current thread → created k = s.created k)
    (hlimit : InSegment stackTop segment) :
    Coherent
      { machine := s.setLimit thread stackTop
          { s.machine.coroutines (s.current thread) with framePtr := segment }
        heap := heap
        created := created
        callers := callers }
      (c.compute thread { (s.machine.threads thread).context with stackTop := stackTop }) := by
  obtain ⟨frame, rest, hstack, hcoroutine, -⟩ := h.exists_frame hcurrent
  refine ⟨represents_setLimit h.represents thread stackTop segment, ?_, ?_, fun other ↦ ?_⟩
  · simp only [SegmentedMachine.setLimit]
    rwa [Stacks.framePtr_update]
  · refine h.frames.compute h.represents.wellFormed hstack ?_ fun other context hother hold ↦ ?_
    · rw [hcoroutine]
      simpa [SegmentedMachine.setLimit] using ⟨hused, hlimit⟩
    · rw [hcoroutine] at hother
      simpa [SegmentedMachine.setLimit, hother, hkept other hother] using hold
  · simp only [Configuration.compute]
    rw [if_neg (by simp [hstack])]
    exact h.base other

/-- The code of a coroutine enters `__morestack`. -/
theorem grow (h : Coherent s c) {thread : Id} {frameSize paramSize block : Word}
    {oldStack : ℕ → BitVec 8} (hcurrent : s.current thread ≠ 0)
    (hblock : FreshBlock s.heap block
      (newSize minSegmentSize frameSize paramSize + segmentHeader))
    (hsizes : SizesFit minSegmentSize frameSize paramSize)
    (hmachine : s.Step coroutinePrelude minSegmentSize ndebug
      (.grow thread frameSize paramSize block oldStack) after)
    (hstep : ShallowHandlers.Step c (.compute thread (after.machine.threads thread).context) c') :
    Coherent after c' := by
  obtain ⟨frame, hcall, rfl⟩ := hmachine
  obtain ⟨-, -, -, -, hused⟩ := h.exists_frame hcurrent
  obtain ⟨above, hstack, hperm⟩ := h.segmented.stack _ hused
  obtain ⟨newSegment, changed, rest, segment, hresult, -, hnew, hcases, -, -, hchanged⟩ :=
    hstack.exists_allocateFrame hblock hsizes oldStack
  obtain rfl := Option.some.inj (hcall.symm.trans hresult)
  have hsegmented := h.segmented.allocate hblock.nonnull hblock.fresh hstack hperm hnew hcases
    hchanged
  have hnewUsed : Function.update s.created (s.current thread)
      (if (changed block).isSome then block :: s.created (s.current thread)
        else s.created (s.current thread)) (s.current thread) ≠ [] := by
    rw [Function.update_self]
    split_ifs
    · simp
    · exact hused
  cases hstep with
  | compute =>
    simp only [SegmentedMachine.setLimit, Function.update_self]
    exact h.setLimit hcurrent hsegmented hnewUsed (fun k hk ↦ Function.update_of_ne hk _ _)
      (.grown _ _ (hnew.header (by simp)))

/-- The code of a coroutine returns from `__morestack`. -/
theorem shrink (h : Coherent s c) {thread : Id} (hcurrent : s.current thread ≠ 0)
    (hcalls : s.callers (s.current thread) ≠ [])
    (hmachine : s.Step coroutinePrelude minSegmentSize ndebug (.shrink thread) after)
    (hstep : ShallowHandlers.Step c (.compute thread (after.machine.threads thread).context) c') :
    Coherent after c' := by
  obtain ⟨stackTop, written, hcall, rfl⟩ := hmachine
  obtain ⟨-, -, -, -, hused⟩ := h.exists_frame hcurrent
  obtain ⟨above, hstack, hperm⟩ := h.segmented.stack _ hused
  obtain hnil | ⟨front, caller, hcallers⟩ := List.eq_nil_or_concat' (s.callers (s.current thread))
  · exact absurd hnil hcalls
  · have hresult := (hcallers ▸ hstack).seffMemReleaseFrame
    simp only [hcall, Option.some.injEq, Prod.mk.injEq] at hresult
    obtain ⟨⟨rfl, rfl⟩, hnew⟩ := hresult
    have hsegmented := h.segmented.release hcallers hperm hnew
    cases hstep with
    | compute =>
      simp only [SegmentedMachine.setLimit, Function.update_self, hcallers, List.dropLast_concat]
      exact h.setLimit hcurrent hsegmented hused (fun _ _ ↦ rfl)
        (.data (hnew.header (by simp)))

/-- Every operation a program does keeps the limits coherent. -/
theorem step (h : Coherent s c) {operation : StackOperation Id}
    (hallowed : MayDo minSegmentSize Resumable s c operation)
    (hmachine : s.Step coroutinePrelude minSegmentSize ndebug operation after)
    (hstep : operation.Implements coroutinePrelude after c c') : Coherent after c' := by
  cases operation with
  | run operation =>
    obtain ⟨machine, hmachine, rfl⟩ := hmachine
    cases operation with
    | init => exact hallowed.elim
    | compute thread context rax rdx =>
      obtain rfl := hmachine
      cases hstep with
      | compute => exact h.compute rax rdx hallowed
    | resume => exact h.move hmachine hstep hallowed trivial
    | yield => exact h.move hmachine hstep hallowed trivial
    | perform => exact h.move hmachine hstep hallowed trivial
    | exit => exact h.move hmachine hstep hallowed trivial
    | throw => exact h.move hmachine hstep hallowed trivial
    | ret => exact h.move hmachine hstep hallowed trivial
  | init k fn arg frameSize block =>
    exact h.init hallowed.1 hallowed.2.1 hallowed.2.2 hmachine hstep
  | grow thread frameSize paramSize block oldStack =>
    exact h.grow hallowed.1 hallowed.2.1 hallowed.2.2 hmachine hstep
  | shrink thread => exact h.shrink hallowed.1 hallowed.2 hmachine hstep

/-- What a program may do, the machine does, and the configuration follows. -/
theorem enabled (h : Coherent s c) {operation : StackOperation Id}
    (hallowed : MayDo minSegmentSize Resumable s c operation) :
    (∃ after, s.Step coroutinePrelude minSegmentSize ndebug operation after) ∧
      ∀ after, s.Step coroutinePrelude minSegmentSize ndebug operation after →
        ∃ c', operation.Implements coroutinePrelude after c c' := by
  cases operation with
  | run operation =>
    have hpermitted : Permitted Resumable s.machine c operation := by
      cases operation with
      | init => exact hallowed.elim
      | compute => trivial
      | _ => exact hallowed
    obtain ⟨⟨machine, hmachine⟩, c', hstep⟩ := h.represents.enabled hpermitted
    exact ⟨⟨_, machine, hmachine, rfl⟩, fun _ _ ↦ ⟨c', hstep⟩⟩
  | init k fn arg frameSize block =>
    obtain ⟨changed, hcall, -⟩ := StackOf.initFrame hallowed.2.1 hallowed.2.2
    exact ⟨⟨_, _, _, _, hcall, rfl⟩, fun after _ ↦ ⟨_, .create k _ hallowed.1.2⟩⟩
  | grow thread frameSize paramSize block oldStack =>
    obtain ⟨-, -, -, -, hused⟩ := h.exists_frame hallowed.1
    obtain ⟨above, hstack, -⟩ := h.segmented.stack _ hused
    obtain ⟨_, _, _, _, hcall, -⟩ :=
      hstack.exists_allocateFrame hallowed.2.1 hallowed.2.2 oldStack
    exact ⟨⟨_, _, hcall, rfl⟩, fun after _ ↦ ⟨_, .compute thread _⟩⟩
  | shrink thread =>
    obtain ⟨-, -, -, -, hused⟩ := h.exists_frame hallowed.1
    obtain ⟨above, hstack, -⟩ := h.segmented.stack _ hused
    obtain hnil | ⟨front, caller, hcallers⟩ := List.eq_nil_or_concat' (s.callers (s.current thread))
    · exact absurd hnil hallowed.2
    · exact ⟨⟨_, _, _, (hcallers ▸ hstack).seffMemReleaseFrame.1, rfl⟩,
        fun after _ ↦ ⟨_, .compute thread _⟩⟩

end Coherent

end Preservation

/-! ### The limits of threads and resume points -/

section Limits

variable {Id : Type*} {s : SegmentedMachine Id} {c : Configuration Id}

/-- The stack limit of a coroutine, or of the top level. -/
def SegmentedMachine.LimitOf (s : SegmentedMachine Id) (k stackTop : Word) : Prop :=
  (k = 0 → stackTop = 0) ∧ (k ≠ 0 → InSegment stackTop (s.machine.coroutines k).framePtr)

/-- `STACK_TOP` is zero at the top level only and otherwise belongs to the current coroutine. The
limit saved in the resume point of an active or enclosed coroutine belongs to its parent, the one of
a suspended coroutine to the coroutine saved with it. A return from `__morestack` finds the segment
on which the matching call entered it. -/
structure LimitsHold (s : SegmentedMachine Id) (c : Configuration Id) : Prop where
  zero_iff : ∀ thread, (s.machine.threads thread).stackTop = 0 ↔ s.current thread = 0
  running : ∀ thread, s.LimitOf (s.current thread) (s.machine.threads thread).stackTop
  parent : ∀ k, c.Active k ∨ c.Enclosed k → s.LimitOf (s.machine.coroutines k).parentCoroutine
    (s.machine.coroutines k).resumePoint.stackTop
  suspended : ∀ k, c.Suspended k →
    s.LimitOf (s.machine.coroutines k).resumePoint.currentCoroutine
      (s.machine.coroutines k).resumePoint.stackTop
  release : ∀ thread front caller, s.current thread ≠ 0 →
    s.callers (s.current thread) = front ++ [caller] → caller ≠ 0 ∧
      seffMemReleaseFrame s.heap (s.machine.coroutines (s.current thread)) = some
        (segmentData caller, { s.machine.coroutines (s.current thread) with framePtr := caller })

/-- Where every frame has its own limit, what is on top of some frames has. -/
theorem limitOf_innermost (below : Word × Context) (frames : List Frame)
    (hbelow : s.LimitOf below.1 below.2.stackTop)
    (hframes : ∀ frame ∈ frames, s.LimitOf frame.coroutine frame.context.stackTop) :
    s.LimitOf (innermost below frames).1 (innermost below frames).2.stackTop := by
  cases frames with
  | nil => exact hbelow
  | cons frame rest => exact hframes frame (by simp)

/-- The resume points of linked frames hold the limits of the parents. -/
theorem limitOf_linked {below : Word × Context} {frames : List Frame}
    (hlinked : Linked s.machine.coroutines below frames)
    (hbelow : s.LimitOf below.1 below.2.stackTop)
    (hframes : ∀ frame ∈ frames, s.LimitOf frame.coroutine frame.context.stackTop) :
    ∀ k ∈ names frames, s.LimitOf (s.machine.coroutines k).parentCoroutine
      (s.machine.coroutines k).resumePoint.stackTop := by
  induction frames with
  | nil => simp
  | cons frame rest ih =>
    obtain ⟨hframe, hrest⟩ := hlinked
    have htail : ∀ other ∈ rest, s.LimitOf other.coroutine other.context.stackTop :=
      fun other hother ↦ hframes other (List.mem_cons_of_mem _ hother)
    intro k hk
    rcases List.mem_cons.mp hk with rfl | hin
    · have hsaved := limitOf_innermost below rest hbelow htail
      rw [← hframe.parent, ← hframe.context] at hsaved
      exact hsaved
    · exact ih hrest htail k hin

namespace Coherent

theorem limitOf_frame (h : Coherent s c) (place : Place Id Word) :
    ∀ frame ∈ c.frames place, s.LimitOf frame.coroutine frame.context.stackTop := by
  intro frame hmem
  refine ⟨fun hzero ↦ ?_, fun _ ↦ (h.frames place frame hmem).2⟩
  exact absurd (hzero ▸ List.mem_map_of_mem hmem) (h.represents.nonnull place)

theorem limitOf_base (h : Coherent s c) (thread : Id) :
    s.LimitOf 0 (c.base thread).stackTop :=
  ⟨fun _ ↦ h.base thread, fun hzero ↦ absurd rfl hzero⟩

theorem limitOf_current (h : Coherent s c) (thread : Id) :
    s.LimitOf (s.current thread) (s.machine.threads thread).stackTop := by
  have hlimit := limitOf_innermost (0, c.base thread) _ (h.limitOf_base thread)
    (h.limitOf_frame (.active thread))
  rw [← h.represents.running thread] at hlimit
  exact hlimit

theorem limitsHold (h : Coherent s c) : LimitsHold s c where
  zero_iff thread := by
    refine ⟨fun hzero ↦ ?_, (h.limitOf_current thread).1⟩
    by_contra hcurrent
    exact ((h.limitOf_current thread).2 hcurrent).ne_zero hzero
  running := h.limitOf_current
  parent k hk := by
    rcases hk with ⟨thread, hmem⟩ | ⟨other, hother, hmem⟩
    · exact limitOf_linked (h.represents.active thread) (h.limitOf_base thread)
        (h.limitOf_frame _) k hmem
    · obtain hnil | ⟨inner, own, hframes⟩ := List.eq_nil_or_concat' (c.frames (.captured other))
      · simp [hnil] at hmem
      · have hown := h.represents.wellFormed.own other inner own hframes
        have hall := h.limitOf_frame (.captured other)
        rw [hframes] at hall hmem
        refine limitOf_linked (h.represents.captured other inner own hframes).2 ?_
          (fun frame hin ↦ hall frame (List.mem_append_left _ hin)) k ?_
        · exact hown ▸ hall own (by simp)
        · have hne : k ≠ own.coroutine := fun heq ↦ hother (heq ▸ hown.symm)
          simpa [hne] using hmem
  suspended k hk := by
    obtain ⟨inner, own, hframes⟩ := List.eq_nil_or_concat' (c.frames (.captured k))
      |>.resolve_left hk
    have hown := h.represents.wellFormed.own k inner own hframes
    have hall := h.limitOf_frame (.captured k)
    rw [hframes] at hall
    have hlimit := limitOf_innermost (k, own.context) inner
      (hown ▸ hall own (by simp)) fun frame hin ↦ hall frame (List.mem_append_left _ hin)
    rw [← (h.represents.captured k inner own hframes).1] at hlimit
    exact hlimit
  release thread front caller hcurrent hcallers := by
    obtain ⟨-, -, -, -, hused⟩ := h.exists_frame hcurrent
    obtain ⟨above, hstack, -⟩ := h.segmented.stack _ hused
    refine ⟨fun hzero ↦ hstack.nonnull ?_, (hcallers ▸ hstack).seffMemReleaseFrame.1⟩
    simp [hcallers, hzero]

end Coherent

end Limits

/-! ### Runs -/

section Results

variable {Id : Type*} [DecidableEq Id]

/-- Along every run of what a program may do the limits hold, and every operation it may do then is
one that the machine does, the configuration follows and the limits survive. -/
def KeepsLimits (coroutinePrelude minSegmentSize : Word) (ndebug : Bool)
    (resumable : Machine Id → Configuration Id → Word → Prop) : Prop :=
  ∀ operations s c, (segmentedSystem coroutinePrelude minSegmentSize ndebug).Run
      (fun state operation ↦ MayDo minSegmentSize resumable state.1 state.2 operation) operations
        (s, c) →
    LimitsHold s c ∧ ∀ operation, MayDo minSegmentSize resumable s c operation →
      (∃ after, s.Step coroutinePrelude minSegmentSize ndebug operation after) ∧
      ∀ after, s.Step coroutinePrelude minSegmentSize ndebug operation after →
        ∃ c', operation.Implements coroutinePrelude after c c' ∧ LimitsHold after c'

/-- **The stack limit.** `STACK_TOP`, `frame_ptr` and the current coroutine stay coherent across
switches and stack growth, for any number of threads. -/
theorem stackTop_coherent (Id : Type*) [DecidableEq Id] (coroutinePrelude minSegmentSize : Word)
    (ndebug : Bool) : KeepsLimits coroutinePrelude minSegmentSize ndebug (@Resumable Id) := by
  intro operations s c hrun
  have h : Coherent s c := hrun.invariant (fun _ hstart ↦ Coherent.start hstart)
    fun _ _ _ h hallowed hstep ↦ h.step hallowed hstep.1 hstep.2
  refine ⟨h.limitsHold, fun operation hallowed ↦ ?_⟩
  obtain ⟨hmachine, hfollows⟩ :
      (∃ after, s.Step coroutinePrelude minSegmentSize ndebug operation after) ∧ _ :=
    h.enabled hallowed
  refine ⟨hmachine, fun after hafter ↦ ?_⟩
  obtain ⟨c', hstep⟩ := hfollows after hafter
  exact ⟨c', hstep, (h.step hallowed hafter hstep).limitsHold⟩

/-- One thread at the top level, with zeroed memory. -/
def zeroStacks : SegmentedMachine Unit where
  machine := zeroMachine
  heap _ := none
  created _ := []
  callers _ := []

/-- A run goes on with an operation that the machine does and the configuration follows. -/
theorem segmentedRun_step {coroutinePrelude minSegmentSize : Word} {ndebug : Bool}
    {resumable : Machine Id → Configuration Id → Word → Prop}
    {operations : List (StackOperation Id)} {s after : SegmentedMachine Id}
    {c c' : Configuration Id} (operation : StackOperation Id)
    (hrun : (segmentedSystem coroutinePrelude minSegmentSize ndebug).Run
      (fun state operation ↦ MayDo minSegmentSize resumable state.1 state.2 operation) operations
        (s, c))
    (hallowed : MayDo minSegmentSize resumable s c operation)
    (hmachine : s.Step coroutinePrelude minSegmentSize ndebug operation after)
    (hfollows : operation.Implements coroutinePrelude after c c') :
    (segmentedSystem coroutinePrelude minSegmentSize ndebug).Run
      (fun state operation ↦ MayDo minSegmentSize resumable state.1 state.2 operation)
      (operations ++ [operation]) (after, c') :=
  hrun.step hallowed ⟨hmachine, hfollows⟩

/-- Where a discarded coroutine may be resumed, the limit need not be the one of the current
coroutine: coroutine 2, which was resumed by coroutine 1 and exited it, is resumed again. It then
runs with the limit that coroutine 1 had. -/
theorem not_inSegment_of_discarded : ∃ operations s c after,
    (segmentedSystem 0 0 false).Run
      (fun state operation ↦ MayDo 0 NotFinished state.1 state.2 operation) operations (s, c) ∧
    MayDo 0 NotFinished s c (.run (.resume () 2 0 0)) ∧
    s.Step 0 0 false (.run (.resume () 2 0 0)) after ∧
    after.current () = 2 ∧
    ¬ InSegment (after.machine.threads ()).stackTop (after.machine.coroutines 2).framePtr := by
  obtain ⟨c₁, c₂, c₃, c₄, c₅, h₁, h₂, h₃, h₄, h₅, hidle₁, hfresh, hidle₃, hactive, hidle₅, -⟩ :=
    exists_exitEnclosing (initialContext 0 1 0 0 0 4272) (initialContext 0 2 0 0 0 8368)
  have hstart : (segmentedSystem 0 0 false).Run
      (fun state operation ↦ MayDo 0 NotFinished state.1 state.2 operation) []
        (zeroStacks, zeroConfiguration) :=
    .start ⟨⟨fun _ ↦ rfl, fun _ ↦ rfl, fun _ ↦ rfl, fun _ ↦ rfl, rfl⟩, fun _ ↦ rfl, fun _ ↦ rfl⟩
  have hrun₁ := segmentedRun_step (.init 1 0 0 0 4096) hstart
    ⟨⟨by decide, fun place ↦ by simp [zeroConfiguration]⟩, ⟨by decide, rfl, by decide⟩,
      by decide⟩
    ⟨_, _, _, rfl, rfl⟩ h₁
  have hrun₂ := segmentedRun_step (.run (.resume () 1 0 0)) hrun₁
    ⟨hidle₁.1, by decide, hidle₁.2⟩ ⟨_, rfl, rfl⟩ h₂
  have hrun₃ := segmentedRun_step (.init 2 0 0 0 8192) hrun₂
    ⟨⟨by decide, hfresh⟩, ⟨by decide, rfl, by decide⟩, by decide⟩ ⟨_, _, _, rfl, rfl⟩ h₃
  have hrun₄ := segmentedRun_step (.run (.resume () 2 0 0)) hrun₃
    ⟨hidle₃.1, by decide, hidle₃.2⟩ ⟨_, rfl, rfl⟩ h₄
  have hrun₅ := segmentedRun_step (.run (.exit () 1 0 0)) hrun₄ hactive ⟨_, rfl, rfl⟩ h₅
  refine ⟨_, _, _, _, hrun₅, ⟨hidle₅.1, by decide, hidle₅.2⟩, ⟨_, rfl, rfl⟩, rfl, fun h ↦ ?_⟩
  exact absurd h.above (by decide)

end Results

end Libseff.Stack
