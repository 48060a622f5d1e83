import Libseff.Stack.Morestack
import Libseff.Stack.StackTop

/-!
# Syscall wrappers

`MAKE_SYSCALL_WRAPPER` of `src/seff.h` calls a function on the system stack. Where `STACK_TOP` is
zero the code is on it already, or at the top level, and the wrapper jumps to the function.
Elsewhere it keeps the stack pointer and the stack limit of its caller in two thread-local slots,
and switches to `_seff_system_stack`.

The machine of one thread, with coroutines and stack growth, is run here with wrappers. The calls of
wrappers in progress are ghost state, kept for every coroutine and for the top level, which is the
coroutine zero: with its call a wrapper has pushed the return pointer that the call record stands
for. So is the stack pointer with which each of them ran last, which ends the frames of the wrapped
function it is in.
-/

set_option autoImplicit false
set_option relaxedAutoImplicit false

namespace Libseff.Stack

open Foundation Foundation.ShallowHandlers Coroutine

/-- `_seff_paused_coroutine_stack` and `_seff_paused_coroutine_stack_top`. -/
structure PausedCoroutine where
  stack : Word
  stackTop : Word

/-- `fn##_syscall_wrapper` up to the first instruction of `fn`. The registers are those of its
caller around the call, and are left as those around a call of `fn`. -/
def syscallWrapperEnter (thread : Thread) (paused : PausedCoroutine) :
    Thread × PausedCoroutine :=
  -- the call has pushed the return pointer
  let rsp := thread.rsp - 8
  let rax := thread.stackTop
  let thread := { thread with rax := rax }
  if rax = 0 then (thread, paused)
  else
    let paused := { paused with stack := rsp }
    let thread := { thread with rsp := thread.systemStack }
    let paused := { paused with stackTop := rax }
    let thread := { thread with stackTop := 0 }
    (thread, paused)

theorem syscallWrapperEnter_of_zero {thread : Thread} (h : thread.stackTop = 0)
    (paused : PausedCoroutine) :
    syscallWrapperEnter thread paused = ({ thread with rax := 0 }, paused) := by
  simp only [syscallWrapperEnter, h, if_pos]

theorem syscallWrapperEnter_of_ne {thread : Thread} (h : thread.stackTop ≠ 0)
    (paused : PausedCoroutine) :
    syscallWrapperEnter thread paused =
      ({ thread with rax := thread.stackTop, rsp := thread.systemStack, stackTop := 0 },
        ⟨thread.rsp - 8, thread.stackTop⟩) := by
  simp only [syscallWrapperEnter, if_neg h]

/-- `fn##_syscall_wrapper` from the return of `fn` on, where it has called `fn`. -/
def syscallWrapperLeave (thread : Thread) (paused : PausedCoroutine) : Thread :=
  let thread := { thread with rsp := paused.stack }
  let rcx := paused.stackTop
  let thread := { thread with stackTop := rcx }
  -- `retq` pops the return pointer
  { thread with rsp := thread.rsp + 8 }

/-- A call of a wrapper: the stack pointer and the stack limit of the caller, and the system stack.
It is intact while no switch to the system stack has written into the frames of its function. -/
structure WrapperCall where
  rsp : Word
  stackTop : Word
  systemStack : Word
  intact : Bool
  deriving DecidableEq

/-- The wrapper has switched to the system stack. -/
def WrapperCall.Switched (call : WrapperCall) : Prop := call.stackTop ≠ 0

instance (call : WrapperCall) : Decidable call.Switched :=
  inferInstanceAs (Decidable (_ ≠ _))

/-- The stack pointer around the call of the wrapped function. -/
def WrapperCall.entry (call : WrapperCall) : Word :=
  if call.Switched then call.systemStack else call.rsp

/-- Two ranges of bytes have one in common. -/
def Overlaps (first : Word) (firstLength : ℕ) (second : Word) (secondLength : ℕ) : Prop :=
  0 < firstLength ∧ 0 < secondLength ∧
    (Within first firstLength second ∨ Within second secondLength first)

instance (first : Word) (firstLength : ℕ) (second : Word) (secondLength : ℕ) :
    Decidable (Overlaps first firstLength second secondLength) :=
  inferInstanceAs (Decidable (_ ∧ _ ∧ (_ ∨ _)))

/-- The bytes that `__morestack` pushes on the system stack before it calls the memory function. -/
def morestackBytes : ℕ := 88

theorem Cpu.morestackSave_rsp (s : Cpu) (returnPointer : Word) :
    (s.morestackSave.push [returnPointer]).rsp =
      s.systemStack - BitVec.ofNat 64 morestackBytes := by
  simp only [Cpu.morestackSave, Cpu.push, morestackBytes, List.length_cons, List.length_nil]
  bv_omega

/-- One thread with coroutines and segments, the slots of the wrappers, the calls of wrappers in
progress, innermost first, and the stack pointers with which coroutines ran last. -/
structure WrappedMachine where
  stack : SegmentedMachine Unit
  paused : PausedCoroutine
  calls : Word → List WrapperCall
  lastRsp : Word → Word

/-- What the thread does in one step: an operation without wrappers, the call of a wrapper, or the
return of a wrapped function. -/
inductive WrappedOperation
  | run (operation : StackOperation Unit)
  | call
  | ret

namespace WrappedMachine

variable (w : WrappedMachine)

def thread : Thread := w.stack.machine.threads ()

/-- The coroutine that runs. -/
def current : Word := w.stack.current ()

/-- The thread gets other registers. -/
def setThread (thread : Thread) : SegmentedMachine Unit :=
  { w.stack with machine :=
      { w.stack.machine with threads := Function.update w.stack.machine.threads () thread } }

/-- The bytes that an operation pushes after it switched to the system stack. -/
def pushed : WrappedOperation → ℕ
  | .run (.grow ..) => morestackBytes
  | .call => if w.thread.stackTop = 0 then 0 else 8
  | _ => 0

/-- The stack pointer of each coroutine, which the running one has moved. -/
def rsps : Word → Word := Function.update w.lastRsp w.current w.thread.rsp

/-- The calls of a coroutine after an operation has pushed bytes below the system stack. The frames
of a wrapped function lie between the stack pointer of its coroutine and the system stack that its
wrapper switched to. -/
def writtenCalls (bytes : ℕ) (k : Word) : List WrapperCall :=
  (w.calls k).map fun call ↦
    if call.Switched ∧ Overlaps (w.thread.systemStack - BitVec.ofNat 64 bytes) bytes (w.rsps k)
        (call.systemStack - w.rsps k).toNat
    then { call with intact := false } else call

end WrappedMachine

/-- A coroutine with a frame, or the top level. -/
def Present (c : Configuration Unit) (k : Word) : Prop :=
  k = 0 ∨ ∃ place, k ∈ names (c.frames place)

/-- One operation. A coroutine that has lost its frame, or gets a new one, is in no wrapped
function. A wrapped function returns to its wrapper if that has called it, and else to the caller of
the wrapper. -/
def WrappedMachine.Step (coroutinePrelude minSegmentSize : Word) (ndebug : Bool)
    (w : WrappedMachine) (c c' : Configuration Unit) :
    WrappedOperation → WrappedMachine → Prop
  | .run operation, after =>
    (w.stack.Step coroutinePrelude minSegmentSize ndebug operation after.stack ∧
      operation.Implements coroutinePrelude after.stack c c') ∧
    after.paused = w.paused ∧ after.lastRsp = w.rsps ∧
    ∀ k, (Present c k ∧ Present c' k →
        after.calls k = w.writtenCalls (w.pushed (.run operation)) k) ∧
      (¬ (Present c k ∧ Present c' k) → after.calls k = [])
  | .call, after =>
    let entered := syscallWrapperEnter w.thread w.paused
    let calls := w.writtenCalls (w.pushed .call)
    let call : WrapperCall := ⟨w.thread.rsp, w.thread.stackTop, w.thread.systemStack, true⟩
    after =
        { stack := w.setThread entered.1
          paused := entered.2
          calls := Function.update calls w.current (call :: calls w.current)
          lastRsp := w.rsps } ∧
      c' = c.compute () entered.1.context
  | .ret, after =>
    ∃ call rest, w.calls w.current = call :: rest ∧
      let thread := if call.Switched then syscallWrapperLeave w.thread w.paused else w.thread
      after =
          { stack := w.setThread thread
            paused := w.paused
            calls := Function.update w.calls w.current rest
            lastRsp := w.rsps } ∧
        c' = c.compute () thread.context

/-- The operations a program may do. The prologue of a function enters `__morestack` where its frame
does not fit above `STACK_TOP`, which is never so for zero, and the function returns after the calls
it made. A wrapped function returns with the stack pointer it was called with. -/
def MayDoWrapped (minSegmentSize : Word) (w : WrappedMachine) (c : Configuration Unit) :
    WrappedOperation → Prop
  | .run operation => MayDo minSegmentSize Resumable w.stack c operation ∧
      match operation with
      | .grow .. => w.thread.stackTop ≠ 0
      | .shrink .. => w.calls w.current = []
      | _ => True
  | .call => True
  | .ret => ∃ call rest, w.calls w.current = call :: rest ∧ w.thread.rsp = call.entry

/-- The machine and the configuration it represents, run side by side. The thread starts at the top
level, in no wrapped function. -/
def wrappedSystem (coroutinePrelude minSegmentSize : Word) (ndebug : Bool) :
    TransitionSystem (WrappedMachine × Configuration Unit) WrappedOperation where
  initial state := StartsAt state.1.stack state.2 ∧ ∀ k, state.1.calls k = []
  step state operation after :=
    state.1.Step coroutinePrelude minSegmentSize ndebug state.2 after.2 operation after.1

/-- The return of a wrapped function goes back to the caller of its wrapper, with the stack pointer
and the stack limit of the caller, and no switch has written into the frames of a wrapped function
in progress on the system stack. -/
structure Nests (w : WrappedMachine) : Prop where
  returns : ∀ call rest, w.calls w.current = call :: rest → w.thread.rsp = call.entry →
    let thread := if call.Switched then syscallWrapperLeave w.thread w.paused else w.thread
    thread.rsp = call.rsp ∧ thread.stackTop = call.stackTop
  intact : ∀ k, ∀ call ∈ w.calls k, call.Switched → call.intact = true

/-- The operation switches to the system stack only while no wrapped function is in progress on
it. -/
def SwitchesAlone (w : WrappedMachine) (operation : WrappedOperation) : Prop :=
  0 < w.pushed operation → ∀ k, ∀ call ∈ w.calls k, ¬ call.Switched

end Libseff.Stack
