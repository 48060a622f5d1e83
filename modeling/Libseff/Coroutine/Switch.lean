import Mathlib.Data.Set.Basic
import Mathlib.Data.BitVec

/-!
# The context-switching primitives

The declarations of `decls/seff_types.py` under the segmented stack policy, the assembly of
`asm/seff.S` and the coroutine functions of `src/seff.c`. A pointer is a machine word and `NULL` is
zero.

Every memory operand of the three switching routines is a field of the coroutine in `%rdi`, so each
routine is a function of the thread that runs it and of that coroutine. The registers of a thread
are those of the caller around the call instruction: `rsp` is the stack pointer with the return
pointer popped, and `ip` the return pointer.
-/

set_option autoImplicit false
set_option relaxedAutoImplicit false

namespace Libseff.Coroutine

/-- A machine word. -/
abbrev Word := BitVec 64

/-- `seff_coroutine_state_t`. -/
inductive SeffCoroutineState
  | finished
  | paused
  | running
  deriving DecidableEq

/-- `seff_cont_t`. -/
structure SeffCont where
  stackTop : Word
  currentCoroutine : Word
  rsp : Word
  rbp : Word
  ip : Word
  rbx : Word
  r12 : Word
  r13 : Word
  r14 : Word
  r15 : Word
  deriving DecidableEq

/-- `seff_coroutine_t`. -/
structure SeffCoroutine where
  framePtr : Word
  resumePoint : SeffCont
  state : SeffCoroutineState
  parentCoroutine : Word
  handledEffects : Word
  deriving DecidableEq

/-- The registers a switch saves or delivers its results in, and the thread-local variables
`SEFF_STACK_TOP`, `_seff_current_coroutine` and `_seff_system_stack`. -/
structure Thread where
  rsp : Word
  rbp : Word
  ip : Word
  rbx : Word
  r12 : Word
  r13 : Word
  r14 : Word
  r15 : Word
  rax : Word
  rdx : Word
  stackTop : Word
  currentCoroutine : Word
  systemStack : Word
  deriving DecidableEq

/-- `RETURN_EFFECT_ID`. -/
def returnEffectId : Word := 0xFFFFFFFFFFFFFFFF

/-! ### asm/seff.S -/

/-- `swap_registers`. -/
def swapRegisters (thread : Thread) (k : SeffCoroutine) : Thread × SeffCoroutine :=
  ({ thread with
      rbx := k.resumePoint.rbx
      r12 := k.resumePoint.r12
      r13 := k.resumePoint.r13
      r14 := k.resumePoint.r14
      r15 := k.resumePoint.r15 },
    { k with
      resumePoint.rbx := thread.rbx
      resumePoint.r12 := thread.r12
      resumePoint.r13 := thread.r13
      resumePoint.r14 := thread.r14
      resumePoint.r15 := thread.r15 })

/-- `swap_stack`. -/
def swapStack (thread : Thread) (k : SeffCoroutine) : Thread × SeffCoroutine :=
  ({ thread with rbp := k.resumePoint.rbp, rsp := k.resumePoint.rsp },
    { k with resumePoint.rbp := thread.rbp, resumePoint.rsp := thread.rsp })

/-- `seff_yield(self, effect, payload)`. -/
def seffYield (effect payload : Word) (thread : Thread) (self : SeffCoroutine) :
    Thread × SeffCoroutine :=
  let (thread, self) := swapRegisters thread self
  let rax := thread.stackTop
  let rcx := thread.currentCoroutine
  let r9 := self.resumePoint.stackTop
  let r10 := self.parentCoroutine
  let thread := { thread with stackTop := r9, currentCoroutine := r10 }
  let self := { self with resumePoint.stackTop := rax, resumePoint.currentCoroutine := rcx }
  -- the return pointer of the call to `seff_yield` is exchanged with the saved one
  let r11 := thread.ip
  let r10 := self.resumePoint.ip
  let self := { self with resumePoint.ip := r11 }
  let (thread, self) := swapStack thread self
  ({ thread with rax := effect, rdx := payload, ip := r10 }, self)

/-- `seff_resume(k, arg, handled)`. -/
def seffResume (arg handled : Word) (thread : Thread) (k : SeffCoroutine) :
    Thread × SeffCoroutine :=
  let k := { k with handledEffects := handled }
  let (thread, k) := swapRegisters thread k
  let rax := thread.stackTop
  let rcx := thread.currentCoroutine
  let r9 := k.resumePoint.stackTop
  let r10 := k.resumePoint.currentCoroutine
  let thread := { thread with stackTop := r9, currentCoroutine := r10 }
  let k := { k with resumePoint.stackTop := rax, parentCoroutine := rcx }
  let r11 := thread.ip
  let r10 := k.resumePoint.ip
  let k := { k with resumePoint.ip := r11 }
  -- only a resumption from the top level moves the system stack
  let thread := { thread with
    systemStack := if rcx = 0 then thread.rsp else thread.systemStack }
  let (thread, k) := swapStack thread k
  ({ thread with rax := arg, rdx := handled, ip := r10 }, k)

/-- `seff_exit(k, effect, payload)`; with assertions on it also clears what it jumped through. -/
def seffExit (ndebug : Bool) (effect payload : Word) (thread : Thread) (k : SeffCoroutine) :
    Thread × SeffCoroutine :=
  let k := { k with state := .finished }
  let (thread, k) := swapRegisters thread k
  let thread := { thread with
    stackTop := k.resumePoint.stackTop
    currentCoroutine := k.parentCoroutine }
  let r10 := k.resumePoint.ip
  let thread := { thread with rbp := k.resumePoint.rbp, rsp := k.resumePoint.rsp }
  let k := if ndebug then k else
    { k with resumePoint.ip := 0, resumePoint.rbp := 0, resumePoint.rsp := 0 }
  ({ thread with rax := effect, rdx := payload, ip := r10 }, k)

/-! ### src/seff.c -/

/-- `seff_coroutine_init_sized(k, fn, arg, frame_size)` on the memory `old`, when `init_stack_frame`
returned the frame `stack` with its highest address `rsp`. -/
def seffCoroutineInitSized (coroutinePrelude k fn arg frameSize stack rsp : Word)
    (old : SeffCoroutine) : SeffCoroutine :=
  let overhead : Word := 16
  let stackTop := rsp - frameSize - overhead
  let pad := rsp % 16
  { old with
    framePtr := stack
    resumePoint :=
      { rsp := rsp - pad
        rbp := 0
        ip := coroutinePrelude
        stackTop := stackTop
        currentCoroutine := k
        rbx := 0xcacabbbb
        r12 := 0xcaca1212
        r13 := k
        r14 := arg
        r15 := fn }
    state := .paused }

/-- The loop of `seff_locate_handler`, run for at most `fuel` iterations. -/
def locateLoop (coroutines : Word → SeffCoroutine) (mask : Word) : ℕ → Word → Option Word
  | 0, _ => none
  | fuel + 1, k =>
    if k ≠ 0 ∧ (coroutines k).handledEffects &&& mask = 0 then
      locateLoop coroutines mask fuel (coroutines k).parentCoroutine
    else some k

/-- `seff_locate_handler(effect)` with current coroutine `current`. -/
def seffLocateHandler (coroutines : Word → SeffCoroutine) (current effect : Word) (fuel : ℕ) :
    Option Word :=
  let mask : Word := 1#64 <<< effect.toNat
  if effect ≠ returnEffectId then locateLoop coroutines mask fuel current else some current

/-- The effects a word of type `effect_set` holds: those `HANDLES` can name. -/
def effectSet (handled : Word) : Set Word :=
  {effect | effect.toNat < 64 ∧ handled &&& (1#64 <<< effect.toNat) ≠ 0}

/-! ### Saved contexts -/

/-- What a switch saves of the code it leaves: the callee-saved registers, the stack pointer, the
return pointer and the stack limit. -/
@[ext] structure Context where
  rsp : Word
  rbp : Word
  ip : Word
  rbx : Word
  r12 : Word
  r13 : Word
  r14 : Word
  r15 : Word
  stackTop : Word
  deriving DecidableEq

/-- The registers the System V ABI has a function restore before it returns. -/
structure CalleeSaved where
  rbp : Word
  rbx : Word
  r12 : Word
  r13 : Word
  r14 : Word
  r15 : Word
  deriving DecidableEq

def Context.calleeSaved (context : Context) : CalleeSaved :=
  ⟨context.rbp, context.rbx, context.r12, context.r13, context.r14, context.r15⟩

def SeffCont.context (cont : SeffCont) : Context :=
  ⟨cont.rsp, cont.rbp, cont.ip, cont.rbx, cont.r12, cont.r13, cont.r14, cont.r15, cont.stackTop⟩

def Thread.context (thread : Thread) : Context :=
  ⟨thread.rsp, thread.rbp, thread.ip, thread.rbx, thread.r12, thread.r13, thread.r14, thread.r15,
    thread.stackTop⟩

/-- The thread after its code computed a new context and new result registers. -/
def Thread.setContext (thread : Thread) (context : Context) (rax rdx : Word) : Thread :=
  { thread with
    rsp := context.rsp
    rbp := context.rbp
    ip := context.ip
    rbx := context.rbx
    r12 := context.r12
    r13 := context.r13
    r14 := context.r14
    r15 := context.r15
    stackTop := context.stackTop
    rax := rax
    rdx := rdx }

@[simp] theorem Thread.context_setContext (thread : Thread) (context : Context) (rax rdx : Word) :
    (thread.setContext context rax rdx).context = context := rfl

/-! ### What each routine leaves behind -/

section Specifications

variable (thread : Thread) (k : SeffCoroutine) (ndebug : Bool)
  (effect payload arg handled : Word)

@[simp] theorem seffResume_thread_context :
    (seffResume arg handled thread k).1.context = k.resumePoint.context := rfl

@[simp] theorem seffResume_thread_currentCoroutine :
    (seffResume arg handled thread k).1.currentCoroutine = k.resumePoint.currentCoroutine := rfl

@[simp] theorem seffResume_thread_rax : (seffResume arg handled thread k).1.rax = arg := rfl

@[simp] theorem seffResume_thread_systemStack :
    (seffResume arg handled thread k).1.systemStack =
      if thread.currentCoroutine = 0 then thread.rsp else thread.systemStack := rfl

@[simp] theorem seffResume_context :
    (seffResume arg handled thread k).2.resumePoint.context = thread.context := rfl

@[simp] theorem seffResume_parentCoroutine :
    (seffResume arg handled thread k).2.parentCoroutine = thread.currentCoroutine := rfl

@[simp] theorem seffResume_handledEffects :
    (seffResume arg handled thread k).2.handledEffects = handled := rfl

@[simp] theorem seffResume_state : (seffResume arg handled thread k).2.state = k.state := rfl

@[simp] theorem seffResume_framePtr :
    (seffResume arg handled thread k).2.framePtr = k.framePtr := rfl

@[simp] theorem seffYield_thread_context :
    (seffYield effect payload thread k).1.context = k.resumePoint.context := rfl

@[simp] theorem seffYield_thread_currentCoroutine :
    (seffYield effect payload thread k).1.currentCoroutine = k.parentCoroutine := rfl

@[simp] theorem seffYield_thread_rax : (seffYield effect payload thread k).1.rax = effect := rfl

@[simp] theorem seffYield_thread_rdx : (seffYield effect payload thread k).1.rdx = payload := rfl

@[simp] theorem seffYield_thread_systemStack :
    (seffYield effect payload thread k).1.systemStack = thread.systemStack := rfl

@[simp] theorem seffYield_context :
    (seffYield effect payload thread k).2.resumePoint.context = thread.context := rfl

@[simp] theorem seffYield_currentCoroutine :
    (seffYield effect payload thread k).2.resumePoint.currentCoroutine =
      thread.currentCoroutine := rfl

@[simp] theorem seffYield_parentCoroutine :
    (seffYield effect payload thread k).2.parentCoroutine = k.parentCoroutine := rfl

@[simp] theorem seffYield_handledEffects :
    (seffYield effect payload thread k).2.handledEffects = k.handledEffects := rfl

@[simp] theorem seffYield_state : (seffYield effect payload thread k).2.state = k.state := rfl

@[simp] theorem seffYield_framePtr :
    (seffYield effect payload thread k).2.framePtr = k.framePtr := rfl

@[simp] theorem seffExit_thread_context :
    (seffExit ndebug effect payload thread k).1.context = k.resumePoint.context := rfl

@[simp] theorem seffExit_thread_currentCoroutine :
    (seffExit ndebug effect payload thread k).1.currentCoroutine = k.parentCoroutine := rfl

@[simp] theorem seffExit_thread_rax :
    (seffExit ndebug effect payload thread k).1.rax = effect := rfl

@[simp] theorem seffExit_thread_rdx :
    (seffExit ndebug effect payload thread k).1.rdx = payload := rfl

@[simp] theorem seffExit_thread_systemStack :
    (seffExit ndebug effect payload thread k).1.systemStack = thread.systemStack := rfl

@[simp] theorem seffExit_state :
    (seffExit ndebug effect payload thread k).2.state = .finished := by
  cases ndebug <;> rfl

@[simp] theorem seffExit_framePtr :
    (seffExit ndebug effect payload thread k).2.framePtr = k.framePtr := by
  cases ndebug <;> rfl

end Specifications

end Libseff.Coroutine
