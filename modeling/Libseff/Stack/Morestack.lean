import Libseff.Foundation.ByteMemory
import Libseff.Stack.Segments

/-!
# `__morestack`

The routines of `src/mem/seff_mem_segmented.S`, instruction by instruction. The prologue of a
split-stack function calls one of them with the frame size in `%r10` and the number of bytes of its
stack parameters in `%r11`; a `ret` follows that call, and the body of the function follows the
`ret`.

A call of a C function runs the function of `Segments`, and leaves in the registers that the System
V ABI does not have it restore, and in the memory that is its own, what a `Clobber` says.
-/

set_option autoImplicit false
set_option relaxedAutoImplicit false

namespace Libseff.Stack

open Foundation Coroutine

/-- The registers, the memory, the thread-local variables `SEFF_STACK_TOP` and
`_seff_system_stack`, and the segments and the current coroutine of the memory functions. -/
structure Cpu where
  rax : Word
  rbx : Word
  rcx : Word
  rdx : Word
  rsi : Word
  rdi : Word
  rbp : Word
  rsp : Word
  r8 : Word
  r9 : Word
  r10 : Word
  r11 : Word
  r12 : Word
  r13 : Word
  r14 : Word
  r15 : Word
  xmm : Fin 16 → BitVec 128
  ip : Word
  memory : ByteMemory
  stackTop : Word
  systemStack : Word
  heap : Heap
  current : SeffCoroutine

/-- What a C function leaves besides its result: the registers it need not restore, and the bytes it
wrote to its own frame and to the memory of the allocator. -/
structure Clobber where
  rcx : Word
  rdx : Word
  rsi : Word
  rdi : Word
  r8 : Word
  r9 : Word
  r10 : Word
  r11 : Word
  xmm : Fin 16 → BitVec 128
  written : Word → Option (BitVec 8)

/-- What is fixed when the program is linked and started: the return addresses of the calls in
`__morestack`, and the configured segment sizes. -/
structure Linkage where
  allocateReturn : Word
  bodyReturn : Word
  releaseReturn : Word
  minSegmentSize : Word
  syscallSegmentSize : Word

namespace Cpu

variable (s : Cpu)

/-- The word `%rsp` points to. -/
def top : Word := s.memory.load64 s.rsp

/-- `push` instructions, one for each word. -/
def push (words : List Word) : Cpu :=
  { s with
    rsp := s.rsp - BitVec.ofNat 64 (8 * words.length)
    memory := s.memory.storeDown s.rsp words }

/-- `%rsp` moves up by a word. -/
def pop : Cpu := { s with rsp := s.rsp + 8 }

/-- `ret`. -/
def ret : Cpu := { s.pop with ip := s.top }

/-- A C function returns `result`. -/
def returnFromC (clobber : Clobber) (result : Word) : Cpu :=
  { s.pop with
    rax := result
    rcx := clobber.rcx
    rdx := clobber.rdx
    rsi := clobber.rsi
    rdi := clobber.rdi
    r8 := clobber.r8
    r9 := clobber.r9
    r10 := clobber.r10
    r11 := clobber.r11
    xmm := clobber.xmm
    memory := s.memory.overwrite clobber.written }

/-- `call seff_mem_allocate_frame`: the frame size is read and written through `%rdi`, and then the
`%rdx` bytes of parameters at `%rsi` are copied. -/
def callAllocateFrame (linkage : Linkage) (block : Word) (clobber : Clobber) : Option Cpu := do
  let s := s.push [linkage.allocateReturn]
  let frame ← enterSegment linkage.minSegmentSize block (s.memory.load64 s.rdi) s.rdx s.heap
    s.current
  let memory := s.memory.store64 s.rdi frame.frameSize
  let frame ← frame.copyParameters s.rdx fun index ↦ memory (s.rsi + BitVec.ofNat 64 index)
  let memory := memory.copyBytes frame.newStack s.rsi s.rdx.toNat
  let s := { s with memory := memory, heap := frame.heap, current := frame.current }
  some (s.returnFromC clobber frame.newStack)

/-- `call seff_mem_release_frame`. -/
def callReleaseFrame (linkage : Linkage) (clobber : Clobber) : Option Cpu := do
  let s := s.push [linkage.releaseReturn]
  let (stackTop, current) ← seffMemReleaseFrame s.heap s.current
  let s := { s with current := current }
  some (s.returnFromC clobber stackTop)

/-- `__morestack` up to the call of `seff_mem_allocate_frame`. -/
def morestackSave : Cpu :=
  let s := s.push [s.rbx]
  let s := { s with rbx := s.rsp }
  let s := { s with rsp := s.systemStack }
  let s := s.push [s.rbp, s.rbp]
  let s := { s with rbp := s.rsp }
  let s := s.push [s.r10, s.rax, s.rdi, s.rsi, s.rdx, s.rcx, s.r8, s.r9]
  let s := { s with rdi := s.rbp - 8 }
  let s := { s with rsi := s.rbx + 24 }
  { s with rdx := s.r11 }

/-- `__morestack` from there up to the call of the body. -/
def morestackEnter (linkage : Linkage) : Cpu :=
  let s := { s with r10 := s.memory.load64 (s.rbp - 8) }
  let s := { s with rsp := s.rax }
  let s := { s with rax := s.rax - s.r10 }
  let s := { s with stackTop := s.rax }
  let s := { s with
    rax := s.memory.load64 (s.rbp - 16)
    rdi := s.memory.load64 (s.rbp - 24)
    rsi := s.memory.load64 (s.rbp - 32)
    rdx := s.memory.load64 (s.rbp - 40)
    rcx := s.memory.load64 (s.rbp - 48)
    r8 := s.memory.load64 (s.rbp - 56)
    r9 := s.memory.load64 (s.rbp - 64) }
  let s := { s with rbp := s.memory.load64 s.rbp }
  let s := { s with r10 := s.memory.load64 (s.rbx + 8) }
  let s := { s with r10 := s.r10 + 1 }
  { s.push [linkage.bodyReturn] with ip := s.r10 }

/-- `__morestack`, from its entry to the first instruction of the body. -/
def morestack (linkage : Linkage) (block : Word) (clobber : Clobber) : Option Cpu := do
  let s ← s.morestackSave.callAllocateFrame linkage block clobber
  some (s.morestackEnter linkage)

/-- `__morestack` after the call of `seff_mem_release_frame`. -/
def morestackLeave : Cpu :=
  let s := { s with stackTop := s.rax }
  let s := { s.pop with rdx := s.top }
  let s := { s.pop with rax := s.top }
  let s := { s with rsp := s.rbx }
  let s := { s.pop with rbx := s.top }
  s.ret

/-- `__morestack`, from the return of the body to its own return. -/
def morestackReturn (linkage : Linkage) (clobber : Clobber) : Option Cpu := do
  let s ← (s.push [s.rax, s.rdx]).callReleaseFrame linkage clobber
  some s.morestackLeave

/-- `__morestack_non_split` up to its branch, and whether it falls through to `__morestack`. -/
def morestackNonSplit (linkage : Linkage) : Cpu × Bool :=
  let s := { s with rax := linkage.syscallSegmentSize }
  let s := { s with r10 := s.r10 + s.rax }
  let s := { s with rsp := s.rsp - s.r10 }
  if s.rsp < s.stackTop then ({ s with rsp := s.rsp + s.r10 }, true)
  else
    let s := { s with rsp := s.rsp + s.r10 }
    let s := { s with memory := s.memory.store64 s.rsp (s.top + 1) }
    (s.ret, false)

end Cpu

/-- The routine that the prologue calls. -/
inductive Entry
  | split
  | nonSplit
  deriving DecidableEq

/-- One call of a split-stack function that grows the stack: the state in which its prologue enters
the routine, the address that `malloc` returns if it is called, what the C functions leave, and the
state in which the body returns. -/
structure GrowingCall where
  entry : Entry
  cpu : Cpu
  block : Word
  allocate : Clobber
  release : Clobber
  exit : Cpu

namespace GrowingCall

variable (linkage : Linkage) (call : GrowingCall)

/-- The state in which `__morestack` is reached, if it is. -/
def grows : Option Cpu :=
  match call.entry with
  | .split => some call.cpu
  | .nonSplit =>
    let (s, falls) := call.cpu.morestackNonSplit linkage
    if falls then some s else none

/-- The state at the first instruction of the body. -/
def start : Option Cpu :=
  match call.grows linkage with
  | some s => s.morestack linkage call.block call.allocate
  | none => some (call.cpu.morestackNonSplit linkage).1

/-- The state after the body returned and control left the function. Where the body was called by
`__morestack`, it returns there, and `__morestack` to the `ret` of the prologue. -/
def finish : Option Cpu :=
  match call.grows linkage with
  | some _ => do
    let s := call.exit.ret
    if s.ip = linkage.bodyReturn then
      let s ← s.morestackReturn linkage call.release
      some s.ret
    else none
  | none => some call.exit.ret

end GrowingCall

end Libseff.Stack
