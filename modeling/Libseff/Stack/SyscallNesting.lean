import Libseff.Stack.SegmentSizes
import Libseff.Stack.SyscallWrapper

/-!
# Nested syscall wrappers

A wrapped function runs with a zero stack limit, so the wrappers that it or the coroutine it is in
calls next jump to their functions, which nest like any others. The coroutines that it resumes have
limits of their own, and their wrappers and `__morestack` switch to the same system stack and the
wrappers use the same slots. Where no such switch is made while a wrapped function is in progress on
the system stack, the slots still hold what its wrapper put there (`Nested`), and every return finds
the stack pointer and the limit of the caller (`nests_of_run`). A coroutine resumed by a wrapped
function that calls a wrapper itself breaks both (`not_nests`).
-/

set_option autoImplicit false
set_option relaxedAutoImplicit false

namespace Libseff.Stack

open Foundation Foundation.ShallowHandlers Coroutine

/-- Only the outermost of the calls of one coroutine has switched. -/
def OutermostSwitched : List WrapperCall → Prop
  | [] => True
  | call :: rest => (call.Switched → rest = []) ∧ OutermostSwitched rest

/-- A coroutine in a wrapped function has a zero stack limit, and the slots belong to the function
that is in progress on the system stack. -/
structure Nested (w : WrappedMachine) (c : Configuration Unit) : Prop where
  represents : Represents w.stack.machine c
  frames : c.AllFrames fun k context ↦ w.calls k ≠ [] → context.stackTop = 0
  base : w.calls 0 ≠ [] → (c.base ()).stackTop = 0
  slots : ∀ k, ∀ call ∈ w.calls k, call.Switched →
    w.paused = ⟨call.rsp - 8, call.stackTop⟩ ∧ call.intact = true
  outermost : ∀ k, OutermostSwitched (w.calls k)

namespace Nested

variable {coroutinePrelude minSegmentSize : Word} {ndebug : Bool} {w after : WrappedMachine}
  {c c' : Configuration Unit}

theorem start (h : StartsAt w.stack c) (hcalls : ∀ k, w.calls k = []) : Nested w c where
  represents := Represents.start h.start
  frames place frame hmem := by simp [h.start.frames place] at hmem
  base hne := absurd (hcalls 0) hne
  slots k call hmem := by simp [hcalls k] at hmem
  outermost k := by simp [hcalls k, OutermostSwitched]

/-- The limit is zero while the running coroutine is in a wrapped function. -/
theorem stackTop_eq_zero (h : Nested w c) (hne : w.calls w.current ≠ []) :
    w.thread.stackTop = 0 := by
  have hrunning : (w.current, w.thread.context) =
      innermost (0, c.base ()) (c.frames (.active ())) := h.represents.running ()
  cases hstack : c.frames (.active ()) with
  | nil =>
    rw [hstack] at hrunning
    obtain ⟨hcurrent, hcontext⟩ := Prod.ext_iff.mp hrunning
    rw [show w.current = 0 from hcurrent] at hne
    exact (congrArg Context.stackTop hcontext).trans (h.base hne)
  | cons frame rest =>
    rw [hstack] at hrunning
    obtain ⟨hcurrent, hcontext⟩ := Prod.ext_iff.mp hrunning
    rw [show w.current = frame.coroutine from hcurrent] at hne
    exact (congrArg Context.stackTop hcontext).trans
      (h.frames (.active ()) frame (by simp [hstack]) hne)

/-- A wrapped function that returns finds what its wrapper has kept. -/
theorem nests (h : Nested w c) : Nests w where
  returns call rest hcalls hentry := by
    by_cases hswitched : call.Switched
    · obtain ⟨hpaused, -⟩ := h.slots w.current call (by simp [hcalls]) hswitched
      simp only [if_pos hswitched, syscallWrapperLeave, hpaused, sub_add_cancel, and_self]
    · have hlimit := h.stackTop_eq_zero (by simp [hcalls])
      have hzero : call.stackTop = 0 := not_not.mp hswitched
      rw [WrapperCall.entry, if_neg hswitched] at hentry
      simp only [if_neg hswitched, hentry, hlimit, hzero, and_self]
  intact k call hmem hswitched := (h.slots k call hmem hswitched).2

/-- Nothing is written into frames where a switch is made alone. -/
theorem writtenCalls_of_alone {operation : WrappedOperation} (halone : SwitchesAlone w operation)
    (k : Word) : w.writtenCalls (w.pushed operation) k = w.calls k := by
  have hkept : ∀ call ∈ w.calls k, (if call.Switched ∧
      Overlaps (w.thread.systemStack - BitVec.ofNat 64 (w.pushed operation)) (w.pushed operation)
        (w.rsps k) (call.systemStack - w.rsps k).toNat
      then { call with intact := false } else call) = id call := by
    intro call hmem
    refine if_neg ?_
    rintro ⟨hswitched, hpushed, -⟩
    exact halone hpushed k call hmem hswitched
  exact (List.map_congr_left hkept).trans (List.map_id _)

/-- The running code gets a new context, and its coroutine other calls. -/
theorem compute (h : Nested w c) (context : Context) (calls : Word → List WrapperCall)
    (hcurrent : calls w.current ≠ [] → context.stackTop = 0)
    (hother : ∀ k, k ≠ w.current → calls k ≠ [] → w.calls k ≠ []) :
    (c.compute () context).AllFrames (fun k context ↦ calls k ≠ [] → context.stackTop = 0) ∧
      (calls 0 ≠ [] → ((c.compute () context).base ()).stackTop = 0) := by
  have hrunning : (w.current, w.thread.context) =
      innermost (0, c.base ()) (c.frames (.active ())) := h.represents.running ()
  have hzero : ∀ place, ∀ frame ∈ c.frames place, frame.coroutine ≠ 0 := by
    intro place frame hmem heq
    exact h.represents.nonnull place (heq ▸ List.mem_map_of_mem hmem)
  cases hstack : c.frames (.active ()) with
  | nil =>
    rw [hstack] at hrunning
    have htop : w.current = 0 := congrArg Prod.fst hrunning
    rw [htop] at hcurrent hother
    constructor
    · rw [Configuration.AllFrames, c.compute_frames_of_nil hstack]
      intro place frame hmem hne
      exact h.frames place frame hmem (hother _ (hzero place frame hmem) hne)
    · intro hne
      simp only [Configuration.compute, if_pos hstack, Function.update_self]
      exact hcurrent hne
  | cons frame rest =>
    rw [hstack] at hrunning
    have htop : w.current = frame.coroutine := congrArg Prod.fst hrunning
    rw [htop] at hcurrent hother
    constructor
    · refine h.frames.compute h.represents.wellFormed hstack hcurrent fun k context hk hold hne ↦ ?_
      exact hold (hother k hk hne)
    · intro hne
      have hnonzero : (0 : Word) ≠ frame.coroutine :=
        (hzero (.active ()) frame (by simp [hstack])).symm
      simp only [Configuration.compute, hstack, if_neg (List.cons_ne_nil frame rest)]
      exact h.base (hother 0 hnonzero hne)

/-- The thread is represented with registers that its code or a wrapper has computed. -/
theorem represents_setThread (h : Nested w c) {thread : Thread}
    (hcoroutine : thread.currentCoroutine = w.thread.currentCoroutine)
    (hsystemStack : thread.systemStack = w.thread.systemStack) :
    Represents (w.setThread thread).machine (c.compute () thread.context) := by
  have hthread : w.thread.setContext thread.context thread.rax thread.rdx = thread := by
    cases thread
    simp only at hcoroutine hsystemStack
    simp only [Thread.setContext, Thread.context, hcoroutine, hsystemStack]
  have hcompute := h.represents.compute () thread.context thread.rax thread.rdx
  rw [Machine.compute, show w.stack.machine.threads () = w.thread from rfl, hthread] at hcompute
  exact hcompute

/-- A wrapper is called. -/
theorem call (h : Nested w c) (halone : SwitchesAlone w .call)
    (hstep : w.Step coroutinePrelude minSegmentSize ndebug c c' .call after) : Nested after c' := by
  obtain ⟨rfl, rfl⟩ := hstep
  have hcalls : w.writtenCalls (w.pushed .call) = w.calls :=
    funext fun k ↦ writtenCalls_of_alone halone k
  obtain ⟨call, hcall⟩ : ∃ call : WrapperCall,
      call = ⟨w.thread.rsp, w.thread.stackTop, w.thread.systemStack, true⟩ := ⟨_, rfl⟩
  have hframes := fun context hlimit ↦ h.compute context
    (Function.update w.calls w.current (call :: w.calls w.current)) hlimit
    fun k hk hne ↦ by rwa [Function.update_of_ne hk] at hne
  have hmem : ∀ k, ∀ other ∈ Function.update w.calls w.current (call :: w.calls w.current) k,
      other = call ∨ other ∈ w.calls k := by
    intro k other hother
    by_cases hk : k = w.current
    · subst hk
      rw [Function.update_self] at hother
      exact List.mem_cons.mp hother
    · rw [Function.update_of_ne hk] at hother
      exact .inr hother
  have houtermost : (call.Switched → w.calls w.current = []) →
      ∀ k, OutermostSwitched
        (Function.update w.calls w.current (call :: w.calls w.current) k) := by
    intro hfirst k
    by_cases hk : k = w.current
    · subst hk
      rw [Function.update_self]
      exact ⟨hfirst, h.outermost _⟩
    · rw [Function.update_of_ne hk]
      exact h.outermost k
  rw [hcalls, ← hcall]
  by_cases hzero : w.thread.stackTop = 0
  · -- the wrapper jumps to its function
    rw [syscallWrapperEnter_of_zero hzero]
    have hdirect : ¬ call.Switched := by
      rw [hcall]
      exact not_not.mpr hzero
    obtain ⟨hkept, hbase⟩ := hframes { w.thread.context with stackTop := w.thread.stackTop }
      fun _ ↦ hzero
    refine ⟨h.represents_setThread rfl rfl, hkept, hbase, fun k other hother hswitched ↦ ?_,
      houtermost fun hswitched ↦ absurd hswitched hdirect⟩
    rcases hmem k other hother with rfl | hold
    · exact absurd hswitched hdirect
    · exact h.slots k other hold hswitched
  · -- the slots are free
    rw [syscallWrapperEnter_of_ne hzero]
    have hpushed : 0 < w.pushed .call := by
      rw [WrappedMachine.pushed, if_neg hzero]
      exact Nat.succ_pos 7
    have hnil : w.calls w.current = [] := by
      by_contra hne
      exact hzero (h.stackTop_eq_zero hne)
    obtain ⟨hkept, hbase⟩ := hframes
      { w.thread.context with rsp := w.thread.systemStack, stackTop := 0 } fun _ ↦ rfl
    refine ⟨h.represents_setThread rfl rfl, hkept, hbase, fun k other hother hswitched ↦ ?_,
      houtermost fun _ ↦ hnil⟩
    rcases hmem k other hother with rfl | hold
    · rw [hcall]
      exact ⟨rfl, rfl⟩
    · exact absurd hswitched (halone hpushed k other hold)

/-- A wrapped function returns. -/
theorem ret (h : Nested w c)
    (hstep : w.Step coroutinePrelude minSegmentSize ndebug c c' .ret after) : Nested after c' := by
  obtain ⟨call, rest, hcalls, rfl, rfl⟩ := hstep
  have hframes := fun context hlimit ↦ h.compute context
    (Function.update w.calls w.current rest) hlimit
    fun k hk hne ↦ by rwa [Function.update_of_ne hk] at hne
  have hmem : ∀ k, ∀ other ∈ Function.update w.calls w.current rest k, other ∈ w.calls k := by
    intro k other hother
    by_cases hk : k = w.current
    · subst hk
      rw [Function.update_self] at hother
      exact hcalls ▸ List.mem_cons_of_mem call hother
    · rwa [Function.update_of_ne hk] at hother
  have hfirst : OutermostSwitched (call :: rest) := hcalls ▸ h.outermost w.current
  have houtermost : ∀ k, OutermostSwitched (Function.update w.calls w.current rest k) := by
    intro k
    by_cases hk : k = w.current
    · subst hk
      rw [Function.update_self]
      exact hfirst.2
    · rw [Function.update_of_ne hk]
      exact h.outermost k
  have hslots : ∀ k, ∀ other ∈ Function.update w.calls w.current rest k, other.Switched →
      w.paused = ⟨other.rsp - 8, other.stackTop⟩ ∧ other.intact = true :=
    fun k other hother ↦ h.slots k other (hmem k other hother)
  by_cases hswitched : call.Switched
  · -- the call was the outermost one of its coroutine
    simp only [if_pos hswitched]
    obtain ⟨hkept, hbase⟩ := hframes (syscallWrapperLeave w.thread w.paused).context fun hne ↦ by
      rw [Function.update_self] at hne
      exact absurd (hfirst.1 hswitched) hne
    exact ⟨h.represents_setThread rfl rfl, hkept, hbase, hslots, houtermost⟩
  · simp only [if_neg hswitched]
    obtain ⟨hkept, hbase⟩ := hframes w.thread.context fun _ ↦
      h.stackTop_eq_zero (by simp [hcalls])
    exact ⟨h.represents_setThread rfl rfl, hkept, hbase, hslots, houtermost⟩

/-- Where calls are kept or ended, those that are left were there before. -/
theorem calls_ne_nil (hcalls : ∀ k, after.calls k = w.calls k ∨ after.calls k = []) (k : Word)
    (hne : after.calls k ≠ []) : w.calls k ≠ [] := by
  rcases hcalls k with hsame | hnil
  · exact hsame ▸ hne
  · exact absurd hnil hne

/-- An operation without wrappers leaves the slots, and calls where it does not end them. -/
theorem keep (h : Nested w c) (hrepresents : Represents after.stack.machine c')
    (hpaused : after.paused = w.paused)
    (hcalls : ∀ k, after.calls k = w.calls k ∨ after.calls k = [])
    (hframes : c'.AllFrames fun k context ↦ after.calls k ≠ [] → context.stackTop = 0)
    (hbase : after.calls 0 ≠ [] → (c'.base ()).stackTop = 0) : Nested after c' := by
  refine ⟨hrepresents, hframes, hbase, fun k call hmem ↦ ?_, fun k ↦ ?_⟩
  · rw [hpaused]
    rcases hcalls k with hsame | hnil
    · exact h.slots k call (hsame ▸ hmem)
    · simp [hnil] at hmem
  · rcases hcalls k with hsame | hnil
    · exact hsame ▸ h.outermost k
    · rw [hnil]
      trivial

/-- Switches. -/
theorem move (h : Nested w c) {operation : Operation Unit}
    (hmachine : w.stack.machine.Step coroutinePrelude ndebug operation after.stack.machine)
    (hfollows : ShallowHandlers.Step c (operation.action coroutinePrelude) c')
    (hpermitted : Permitted Resumable w.stack.machine c operation)
    (hmoves : (operation.action coroutinePrelude).Moves) (hpaused : after.paused = w.paused)
    (hcalls : ∀ k, after.calls k = w.calls k ∨ after.calls k = []) : Nested after c' := by
  obtain ⟨hframes, hbase⟩ := h.frames.move hfollows hmoves
  refine h.keep (h.represents.step hpermitted hmachine hfollows) hpaused hcalls ?_ fun hne ↦ ?_
  · exact fun place frame hmem hne ↦ hframes place frame hmem (calls_ne_nil hcalls _ hne)
  · rw [hbase]
    exact h.base (calls_ne_nil hcalls 0 hne)

/-- The running code gets registers with a limit that suits its calls. -/
theorem computes (h : Nested w c) {context : Context}
    (hrepresents : Represents after.stack.machine (c.compute () context))
    (hlimit : w.calls w.current ≠ [] → context.stackTop = 0) (hpaused : after.paused = w.paused)
    (hcalls : ∀ k, after.calls k = w.calls k ∨ after.calls k = []) :
    Nested after (c.compute () context) := by
  have hmono := calls_ne_nil hcalls
  obtain ⟨hframes, hbase⟩ := h.compute context after.calls (fun hne ↦ hlimit (hmono _ hne))
    fun k _ ↦ hmono k
  exact h.keep hrepresents hpaused hcalls hframes hbase

/-- A coroutine is initialised, and is in no wrapped function. -/
theorem init (h : Nested w c) {k fn arg frameSize block : Word}
    (hk : k ≠ 0 ∧ ∀ place, k ∉ names (c.frames place))
    (hmachine : w.stack.Step coroutinePrelude minSegmentSize ndebug
      (.init k fn arg frameSize block) after.stack)
    (hfollows : ShallowHandlers.Step c
      (.create k (after.stack.machine.coroutines k).resumePoint.context) c')
    (hpaused : after.paused = w.paused)
    (hcalls : ∀ k, after.calls k = w.calls k ∨ after.calls k = []) (hnew : after.calls k = []) :
    Nested after c' := by
  obtain ⟨stack, rsp, heap, -, hstack⟩ := hmachine
  have hmachine : after.stack.machine =
      w.stack.machine.init coroutinePrelude k fn arg frameSize stack rsp :=
    congrArg SegmentedMachine.machine hstack
  have hcontext : (after.stack.machine.coroutines k).resumePoint.context =
      initialContext coroutinePrelude k fn arg frameSize rsp := by
    simp [hmachine, Machine.init]
  rw [hcontext] at hfollows
  cases hfollows with
  | create _ _ hfresh =>
    refine h.keep ?_ hpaused hcalls ?_ fun hne ↦ h.base (calls_ne_nil hcalls 0 hne)
    · rw [hmachine]
      exact h.represents.init _ _ _ _ _ _ hk.1 hfresh
    · refine h.frames.create hfresh (fun hne ↦ absurd hnew hne) fun other context _ hold hne ↦ ?_
      exact hold (calls_ne_nil hcalls other hne)

/-- Every operation without wrappers keeps the calls nested. -/
theorem run (h : Nested w c) {operation : StackOperation Unit}
    (hallowed : MayDoWrapped minSegmentSize w c (.run operation))
    (halone : SwitchesAlone w (.run operation))
    (hstep : w.Step coroutinePrelude minSegmentSize ndebug c c' (.run operation) after) :
    Nested after c' := by
  obtain ⟨⟨hmachine, hfollows⟩, hpaused, -, hcalls⟩ := hstep
  obtain ⟨hmayDo, hwrapped⟩ := hallowed
  have hkept : ∀ k, after.calls k = w.calls k ∨ after.calls k = [] := by
    intro k
    by_cases hpresent : Present c k ∧ Present c' k
    · exact .inl (((hcalls k).1 hpresent).trans (writtenCalls_of_alone halone k))
    · exact .inr ((hcalls k).2 hpresent)
  cases operation with
  | run operation =>
    obtain ⟨next, hmachine, hstack⟩ := hmachine
    obtain rfl : after.stack.machine = next := by rw [hstack]
    cases operation with
    | init => exact hmayDo.elim
    | compute thread context rax rdx =>
      cases hfollows with
      | compute =>
        refine h.computes ?_ (fun hne ↦ ?_) hpaused hkept
        · rw [show after.stack.machine = _ from hmachine]
          exact h.represents.compute () context rax rdx
        · exact (show context.stackTop = w.thread.stackTop from hmayDo).trans
            (h.stackTop_eq_zero hne)
    | resume => exact h.move hmachine hfollows hmayDo trivial hpaused hkept
    | yield => exact h.move hmachine hfollows hmayDo trivial hpaused hkept
    | perform => exact h.move hmachine hfollows hmayDo trivial hpaused hkept
    | exit => exact h.move hmachine hfollows hmayDo trivial hpaused hkept
    | throw => exact h.move hmachine hfollows hmayDo trivial hpaused hkept
    | ret => exact h.move hmachine hfollows hmayDo trivial hpaused hkept
  | init k fn arg frameSize block =>
    refine h.init hmayDo.1 hmachine hfollows hpaused hkept ((hcalls k).2 fun hpresent ↦ ?_)
    exact hpresent.1.elim hmayDo.1.1 fun ⟨place, hmem⟩ ↦ hmayDo.1.2 place hmem
  | grow thread frameSize paramSize block oldStack =>
    obtain ⟨frame, hcall, hstack⟩ := hmachine
    obtain ⟨segment, -, -, -, -, -, -, hcurrent, -⟩ := seffMemAllocateFrame_cases hcall
    -- the prologue has found a limit
    have hlimit : w.calls w.current ≠ [] → False := fun hne ↦ hwrapped (h.stackTop_eq_zero hne)
    cases hfollows with
    | compute =>
      refine h.computes ?_ (fun hne ↦ (hlimit hne).elim) hpaused hkept
      rw [hstack, hcurrent]
      exact represents_setLimit h.represents () _ _
  | shrink thread =>
    obtain ⟨stackTop, written, hcall, hstack⟩ := hmachine
    obtain ⟨prev, -, hresult⟩ := Option.bind_eq_some_iff.mp hcall
    obtain ⟨-, hwritten⟩ := Prod.ext_iff.mp (Option.some.inj hresult)
    cases hfollows with
    | compute =>
      refine h.computes ?_ (fun hne ↦ absurd hwrapped hne) hpaused hkept
      rw [hstack, ← show _ = written from hwritten]
      exact represents_setLimit h.represents () _ _

/-- Every step keeps the calls nested. -/
theorem step (h : Nested w c) {operation : WrappedOperation}
    (hallowed : MayDoWrapped minSegmentSize w c operation) (halone : SwitchesAlone w operation)
    (hstep : w.Step coroutinePrelude minSegmentSize ndebug c c' operation after) :
    Nested after c' := by
  cases operation with
  | run operation => exact h.run hallowed halone hstep
  | call => exact h.call halone hstep
  | ret => exact h.ret hstep

end Nested

/-! ### Runs -/

/-- **Nested wrappers.** In every run that switches to the system stack only while no wrapped
function is in progress on it, each wrapped function returns through its wrapper with the stack
pointer and the stack limit of the caller, and its frames are not written by a switch. -/
theorem nests_of_run (coroutinePrelude minSegmentSize : Word) (ndebug : Bool)
    {operations : List WrappedOperation} {w : WrappedMachine} {c : Configuration Unit}
    (hrun : (wrappedSystem coroutinePrelude minSegmentSize ndebug).Run
      (fun state operation ↦
        MayDoWrapped minSegmentSize state.1 state.2 operation ∧ SwitchesAlone state.1 operation)
      operations (w, c)) : Nests w := by
  have h : Nested w c := hrun.invariant
    (fun _ ⟨hstart, hcalls⟩ ↦ Nested.start hstart hcalls)
    fun _ _ _ h ⟨hallowed, halone⟩ hstep ↦ h.step hallowed halone hstep
  exact h.nests

/-! ### A run with two coroutines -/

section Scenario

/-- The frames of a configuration in which at most one coroutine is suspended. -/
def arrangement (active : List Frame) (k : Word) (captured : List Frame) :
    Place Unit Word → List Frame
  | .active () => active
  | .captured other => if other = k then captured else []

variable {c : Configuration Unit} {active captured : List Frame} {k : Word}

theorem arrangement_nil (active : List Frame) (k other : Word) :
    arrangement active k [] = arrangement active other [] := by
  funext place
  cases place <;> simp [arrangement]

theorem frames_create (h : c.frames = arrangement active k []) (context : Context) :
    (c.create k context).frames = arrangement active k [⟨k, ∅, context⟩] := by
  funext place
  rw [Configuration.create, h]
  cases place with
  | active => simp [arrangement]
  | captured other => by_cases hother : other = k <;> simp [arrangement, hother]

theorem frames_resume {own : Frame} (h : c.frames = arrangement active k [own]) (value : Word)
    (handled : Set Word) :
    (c.resume () k value handled [] own).frames =
      arrangement ({ own with handled := handled } :: active) k [] := by
  funext place
  rw [Configuration.resume, h]
  cases place with
  | active => simp [arrangement]
  | captured other => by_cases hother : other = k <;> simp [arrangement, hother]

theorem frames_compute {frame : Frame} {rest : List Frame}
    (h : c.frames = arrangement (frame :: rest) k captured) (context : Context) :
    (c.compute () context).frames =
      arrangement ({ frame with context := context } :: rest) k captured := by
  funext place
  rw [Configuration.compute, h]
  cases place <;> simp [arrangement, setContext]

theorem frames_capture {own : Frame} {rest : List Frame}
    (h : c.frames = arrangement (own :: rest) k []) (hown : own.coroutine = k)
    (effect payload : Word) :
    (c.capture () [] own rest effect payload).frames = arrangement rest k [own] := by
  funext place
  rw [Configuration.capture, h, hown]
  cases place with
  | active => simp [arrangement]
  | captured other => by_cases hother : other = k <;> simp [arrangement, hother]

theorem mem_of_frames (h : c.frames = arrangement active k captured) {other : Word}
    (hother : other ∈ names active) : other ∈ names (c.frames (.active ())) := by
  rwa [h]

theorem present_of_frames (h : c.frames = arrangement active k captured) {other : Word}
    (hother : other ∈ names active) : Present c other :=
  .inr ⟨_, mem_of_frames h hother⟩

theorem fresh_of_frames (h : c.frames = arrangement active k []) {other : Word}
    (hother : other ∉ names active) (place : Place Unit Word) :
    other ∉ names (c.frames place) := by
  rw [h]
  cases place with
  | active => exact hother
  | captured => simp [arrangement]

theorem resumable_of_frames {m : Machine Unit} {own : Frame}
    (h : c.frames = arrangement active k [own]) (hcreated : k ∈ c.created)
    (hstate : (m.coroutines k).state ≠ .finished) (hactive : k ∉ names active)
    (hdiscarded : k ∉ c.discarded) : Resumable m c k := by
  have hidle : Idle c k := idle_of_frames hcreated fun place hplace ↦ by
    rw [h]
    cases place with
    | active => exact hactive
    | captured other =>
      have hother : other ≠ k := by simpa using hplace
      simp [arrangement, hother]
  exact ⟨⟨hcreated, hstate, hidle.2⟩, hdiscarded⟩

end Scenario

section Steps

variable {coroutinePrelude minSegmentSize : Word} {ndebug : Bool} {w : WrappedMachine}
  {c c' : Configuration Unit} {operations : List WrappedOperation}
  {allowed : WrappedMachine × Configuration Unit → WrappedOperation → Prop}

/-- A run after which only the coroutines of a list are in wrapped functions. -/
structure RunIn (coroutinePrelude minSegmentSize : Word) (ndebug : Bool)
    (allowed : WrappedMachine × Configuration Unit → WrappedOperation → Prop)
    (operations : List WrappedOperation) (w : WrappedMachine) (c : Configuration Unit)
    (ks : List Word) : Prop where
  run : (wrappedSystem coroutinePrelude minSegmentSize ndebug).Run allowed operations (w, c)
  calls : ∀ k, k ∉ ks → w.calls k = []

namespace RunIn

variable {ks : List Word}

theorem writtenCalls
    (h : RunIn coroutinePrelude minSegmentSize ndebug allowed operations w c ks) (bytes : ℕ)
    {k : Word} (hk : k ∉ ks) : w.writtenCalls bytes k = [] :=
  List.map_eq_nil_iff.mpr (h.calls k hk)

/-- A run goes on with an operation without wrappers, which ends no call. -/
theorem runNext (h : RunIn coroutinePrelude minSegmentSize ndebug allowed operations w c ks)
    (operation : StackOperation Unit) {stack : SegmentedMachine Unit}
    (hallowed : allowed (w, c) (.run operation))
    (hmachine : w.stack.Step coroutinePrelude minSegmentSize ndebug operation stack)
    (hfollows : operation.Implements coroutinePrelude stack c c')
    (hpresent : ∀ k ∈ ks, Present c k ∧ Present c' k) :
    RunIn coroutinePrelude minSegmentSize ndebug allowed (operations ++ [.run operation])
      { stack := stack
        paused := w.paused
        calls := w.writtenCalls (w.pushed (.run operation))
        lastRsp := w.rsps } c' ks where
  run := by
    refine h.run.step hallowed
      ⟨⟨hmachine, hfollows⟩, rfl, rfl, fun k ↦ ⟨fun _ ↦ rfl, fun habsent ↦ ?_⟩⟩
    exact h.writtenCalls _ fun hk ↦ habsent (hpresent k hk)
  calls k hk := h.writtenCalls _ hk

/-- A run goes on with the call of a wrapper. -/
theorem callNext (h : RunIn coroutinePrelude minSegmentSize ndebug allowed operations w c ks)
    (hallowed : allowed (w, c) .call) {k : Word} (hcurrent : w.current = k) :
    RunIn coroutinePrelude minSegmentSize ndebug allowed (operations ++ [.call])
      { stack := w.setThread (syscallWrapperEnter w.thread w.paused).1
        paused := (syscallWrapperEnter w.thread w.paused).2
        calls := Function.update (w.writtenCalls (w.pushed .call)) w.current
          (⟨w.thread.rsp, w.thread.stackTop, w.thread.systemStack, true⟩ ::
            w.writtenCalls (w.pushed .call) w.current)
        lastRsp := w.rsps }
      (c.compute () (syscallWrapperEnter w.thread w.paused).1.context) (k :: ks) where
  run := h.run.step hallowed ⟨rfl, rfl⟩
  calls other hother := by
    obtain ⟨hne, hold⟩ := not_or.mp (mt List.mem_cons.mpr hother)
    rw [← hcurrent] at hne
    exact (Function.update_of_ne hne _ _).trans (h.writtenCalls _ hold)

/-- A run goes on with the return of the only wrapped function of a coroutine. -/
theorem retNext {k : Word}
    (h : RunIn coroutinePrelude minSegmentSize ndebug allowed operations w c (k :: ks))
    (hallowed : allowed (w, c) .ret) (hcurrent : w.current = k) {call : WrapperCall}
    (hcalls : w.calls w.current = [call]) (hswitched : call.Switched) :
    RunIn coroutinePrelude minSegmentSize ndebug allowed (operations ++ [.ret])
      { stack := w.setThread (syscallWrapperLeave w.thread w.paused)
        paused := w.paused
        calls := Function.update w.calls w.current []
        lastRsp := w.rsps } (c.compute () (syscallWrapperLeave w.thread w.paused).context) ks where
  run := by
    refine h.run.step hallowed ⟨call, [], hcalls, ?_, ?_⟩
    · simp only [if_pos hswitched]
    · simp only [if_pos hswitched]
  calls other hother := by
    by_cases hne : other = w.current
    · rw [hne]
      exact Function.update_self _ _ _
    · refine (Function.update_of_ne hne _ _).trans (h.calls other ?_)
      rw [hcurrent] at hne
      exact List.not_mem_cons_of_ne_of_not_mem hne hother

end RunIn

end Steps

/-- One thread at the top level, with its stack pointer at 65536. -/
def topLevelContext : Context := ⟨65536, 0, 0, 0, 0, 0, 0, 0, 0⟩

def topLevelMachine : WrappedMachine where
  stack := { zeroStacks with machine := zeroMachine.compute () topLevelContext 0 0 }
  paused := ⟨0, 0⟩
  calls _ := []
  lastRsp _ := 0

def topLevelConfiguration : Configuration Unit :=
  { zeroConfiguration with base := fun _ ↦ topLevelContext }

theorem frames_topLevelConfiguration (k : Word) :
    topLevelConfiguration.frames = arrangement [] k [] := by
  funext place
  cases place <;> simp [arrangement, topLevelConfiguration, zeroConfiguration]

theorem runIn_topLevel
    (allowed : WrappedMachine × Configuration Unit → WrappedOperation → Prop) :
    RunIn 0 0 false allowed [] topLevelMachine topLevelConfiguration [] where
  run := .start ⟨⟨⟨fun _ ↦ rfl, fun _ ↦ rfl, fun _ ↦ rfl, fun _ ↦ rfl, rfl⟩, fun _ ↦ rfl,
    fun _ ↦ rfl⟩, fun _ ↦ rfl⟩
  calls _ _ := rfl

/-- A coroutine is created and resumed, and calls a wrapper. -/
theorem nests_of_run_call : ∃ w c, (wrappedSystem 0 0 false).Run
      (fun state operation ↦
        MayDoWrapped 0 state.1 state.2 operation ∧ SwitchesAlone state.1 operation)
      [.run (.init 1 0 0 0 4096), .run (.run (.resume () 1 0 0)), .call] (w, c) ∧
    w.calls 1 = [⟨4272, 4256, 65536, true⟩] ∧ Nests w := by
  have hfresh : ∀ place, (1 : Word) ∉ names (topLevelConfiguration.frames place) := by
    simp [topLevelConfiguration, zeroConfiguration]
  have hinit := (runIn_topLevel fun state operation ↦
      MayDoWrapped 0 state.1 state.2 operation ∧ SwitchesAlone state.1 operation).runNext
    (.init 1 0 0 0 4096)
    ⟨⟨⟨⟨by decide, hfresh⟩, ⟨by decide, rfl, by decide⟩, by decide⟩, trivial⟩,
      fun h ↦ absurd h (by decide)⟩
    ⟨_, _, _, rfl, rfl⟩ (.create 1 _ hfresh) (List.forall_mem_nil _)
  have hcreated := frames_create (frames_topLevelConfiguration 1) (initialContext 0 1 0 0 0 4272)
  have hresume := hinit.runNext (.run (.resume () 1 0 0))
    ⟨⟨resumable_of_frames hcreated (Set.mem_insert _ _) (by decide) (by simp) (by
      simp [Configuration.create, topLevelConfiguration, zeroConfiguration]), trivial⟩,
      fun h ↦ absurd h (by decide)⟩
    ⟨_, rfl, rfl⟩
    (.resume () 1 0 _ (show _ = [] ++ [_] from congrFun hcreated (.captured 1)))
    (List.forall_mem_nil _)
  have hcall := hresume.callNext ⟨trivial, fun _ k call hmem ↦ by
    simp [WrappedMachine.writtenCalls, topLevelMachine] at hmem⟩ rfl
  exact ⟨_, _, hcall.run, rfl, nests_of_run 0 0 false hcall.run⟩

/-- The code of a wrapped function, with its stack pointer. -/
def wrappedContext (rsp : Word) : Context := ⟨rsp, 0, 0, 0, 0, 0, 0, 0, 0⟩

/-- A coroutine calls a wrapper, and the wrapped function creates and resumes another coroutine,
which calls a wrapper too. -/
def resumingWrapped : List WrappedOperation :=
  [.run (.init 1 0 0 0 4096), .run (.run (.resume () 1 0 0)), .call,
    .run (.run (.compute () (wrappedContext 65504) 0 0)), .run (.init 2 0 0 0 8192),
    .run (.run (.resume () 2 0 0)), .call, .ret, .run (.run (.yield () 2 0 0)),
    .run (.run (.compute () (wrappedContext 65536) 0 0))]

/-- The wrapper of the other coroutine has written into the frame of the first wrapped function, and
its slots are those with which that function returns: the first coroutine goes on with the stack
pointer and the stack limit of the other one. -/
theorem not_nests : ∃ w c, (wrappedSystem 0 0 false).Run
      (fun state operation ↦ MayDoWrapped 0 state.1 state.2 operation) resumingWrapped (w, c) ∧
    w.current = 1 ∧ w.calls 1 = [⟨4272, 4256, 65536, false⟩] ∧ w.thread.rsp = 65536 ∧
    (syscallWrapperLeave w.thread w.paused).rsp = 8368 ∧
    (syscallWrapperLeave w.thread w.paused).stackTop = 8352 ∧ ¬ Nests w := by
  have hfresh₁ : ∀ place, (1 : Word) ∉ names (topLevelConfiguration.frames place) := by
    simp [topLevelConfiguration, zeroConfiguration]
  have hrun₁ := (runIn_topLevel fun state operation ↦
      MayDoWrapped 0 state.1 state.2 operation).runNext (.init 1 0 0 0 4096)
    ⟨⟨⟨by decide, hfresh₁⟩, ⟨by decide, rfl, by decide⟩, by decide⟩, trivial⟩
    ⟨_, _, _, rfl, rfl⟩ (.create 1 _ hfresh₁) (List.forall_mem_nil _)
  have hframes₁ := frames_create (frames_topLevelConfiguration 1) (initialContext 0 1 0 0 0 4272)
  have hrun₂ := hrun₁.runNext (.run (.resume () 1 0 0))
    ⟨resumable_of_frames hframes₁ (Set.mem_insert _ _) (by decide) (by simp) (by
      simp [Configuration.create, topLevelConfiguration, zeroConfiguration]), trivial⟩
    ⟨_, rfl, rfl⟩
    (.resume () 1 0 _ (show _ = [] ++ [_] from congrFun hframes₁ (.captured 1)))
    (List.forall_mem_nil _)
  have hframes₂ := (frames_resume hframes₁ 0 (effectSet 0)).trans (arrangement_nil _ 1 2)
  have hrun₃ := hrun₂.callNext trivial rfl
  have hframes₃ := frames_compute hframes₂
    { initialContext 0 1 0 0 0 4272 with rsp := 65536, stackTop := 0 }
  have hframes₄ := frames_compute hframes₃ (wrappedContext 65504)
  have hpresent : ∀ {c c' : Configuration Unit} {active active' captured captured' : List Frame},
      c.frames = arrangement active 2 captured → c'.frames = arrangement active' 2 captured' →
      1 ∈ names active → 1 ∈ names active' →
      ∀ k ∈ ([1] : List Word), Present c k ∧ Present c' k := by
    intro c c' active active' captured captured' hc hc' hactive hactive' k hk
    obtain rfl := List.mem_singleton.mp hk
    exact ⟨present_of_frames hc hactive, present_of_frames hc' hactive'⟩
  have hrun₄ := hrun₃.runNext (.run (.compute () (wrappedContext 65504) 0 0))
    ⟨rfl, trivial⟩ ⟨_, rfl, rfl⟩ (.compute () _)
    (hpresent hframes₃ hframes₄ (List.mem_singleton.mpr rfl) (List.mem_singleton.mpr rfl))
  have hframes₅ := frames_create hframes₄ (initialContext 0 2 0 0 0 8368)
  have hfresh₂ := fresh_of_frames hframes₄ (show (2 : Word) ∉ _ by simp)
  have hrun₅ := hrun₄.runNext (.init 2 0 0 0 8192)
    ⟨⟨⟨by decide, hfresh₂⟩, ⟨by decide, rfl, by decide⟩, by decide⟩, trivial⟩
    ⟨_, _, _, rfl, rfl⟩ (.create 2 _ hfresh₂)
    (hpresent hframes₄ hframes₅ (List.mem_singleton.mpr rfl) (List.mem_singleton.mpr rfl))
  have hframes₆ := frames_resume hframes₅ 0 (effectSet 0)
  have hrun₆ := hrun₅.runNext (.run (.resume () 2 0 0))
    ⟨resumable_of_frames hframes₅ (Set.mem_insert _ _) (by decide) (by simp) (by
      simp [Configuration.create, Configuration.resume, Configuration.compute,
        topLevelConfiguration, zeroConfiguration]), trivial⟩
    ⟨_, rfl, rfl⟩
    (.resume () 2 0 _ (show _ = [] ++ [_] from congrFun hframes₅ (.captured 2)))
    (hpresent hframes₅ hframes₆ (List.mem_singleton.mpr rfl) (by simp))
  have hrun₇ := hrun₆.callNext trivial rfl
  have hframes₇ := frames_compute hframes₆
    { initialContext 0 2 0 0 0 8368 with rsp := 65536, stackTop := 0 }
  have hrun₈ := hrun₇.retNext ⟨_, _, rfl, rfl⟩ rfl rfl (by decide)
  have hframes₈ := frames_compute hframes₇ (initialContext 0 2 0 0 0 8368)
  have hframes₉ := frames_capture hframes₈ rfl 0 0
  have hrun₉ := hrun₈.runNext (.run (.yield () 2 0 0))
    ⟨mem_of_frames hframes₈ (show (2 : Word) ∈ _ by simp), trivial⟩ ⟨_, rfl, rfl⟩
    (.yield () 0 0 (show _ = [] ++ _ :: _ from congrFun hframes₈ (.active ())))
    (hpresent hframes₈ hframes₉ (by simp) (List.mem_singleton.mpr rfl))
  have hframes₁₀ := frames_compute hframes₉ (wrappedContext 65536)
  have hrun₁₀ := hrun₉.runNext (.run (.compute () (wrappedContext 65536) 0 0))
    ⟨rfl, trivial⟩ ⟨_, rfl, rfl⟩ (.compute () _)
    (hpresent hframes₉ hframes₁₀ (List.mem_singleton.mpr rfl) (List.mem_singleton.mpr rfl))
  refine ⟨_, _, hrun₁₀.run, rfl, by decide, rfl, by decide, by decide, fun h ↦ ?_⟩
  exact absurd (h.intact 1 _ (List.mem_singleton.mpr rfl) (by decide)) (by decide)

end Libseff.Stack
