import Libseff.Coroutine.Switch
import Libseff.Foundation.ByteMemory

/-!
# The stack segments of a coroutine

The memory functions of `src/mem/seff_mem_segmented.c` and `seff_coroutine_release` of `src/seff.c`.
The heap holds the headers of the segments that `malloc` returned and `free` has not been given,
each with the number of bytes that `malloc` was asked for. A read or write outside of these blocks
is a fault, and a function that faults, or calls `exit`, has no result.

`malloc` is a parameter: each function that may allocate is given the address that `malloc` returns
to it. The size it is asked for is a sum that may wrap, so a block may be too small for the segment.
The parameters of a call are then copied over its header, and what they leave of it is the header
from there on (`Heap.memcpy`). What is copied into the data area behind a header is not part of the
heap.
-/

set_option autoImplicit false
set_option relaxedAutoImplicit false

namespace Libseff.Stack

open Foundation Coroutine

/-- `seff_stack_segment_t`, whose padding nothing reads, and the number of bytes that `malloc` was
asked for. -/
structure SeffStackSegment where
  prev : Word
  next : Word
  size : Word
  canary : Word
  allocated : Word
  deriving DecidableEq

/-- The headers of the allocated segments. -/
abbrev Heap := Word → Option SeffStackSegment

/-- `sizeof(seff_stack_segment_t)`: four words and 128 bytes of padding. -/
def segmentHeader : Word := 160

/-- The bytes of the fields of a header, counted from its address. -/
def SeffStackSegment.bytes (segment : SeffStackSegment) : ByteMemory :=
  let bytes : ByteMemory := fun _ ↦ 0
  let bytes := bytes.store64 0 segment.prev
  let bytes := bytes.store64 8 segment.next
  let bytes := bytes.store64 16 segment.size
  bytes.store64 24 segment.canary

/-- The header that is read back from its bytes. -/
def SeffStackSegment.ofBytes (bytes : ByteMemory) (allocated : Word) : SeffStackSegment where
  prev := bytes.load64 0
  next := bytes.load64 8
  size := bytes.load64 16
  canary := bytes.load64 24
  allocated := allocated

/-- Bytes are copied into the block of a segment, from an offset on. -/
def SeffStackSegment.overwrite (segment : SeffStackSegment) (offset count : Word)
    (source : ℕ → BitVec 8) : SeffStackSegment :=
  SeffStackSegment.ofBytes
    (segment.bytes.overwrite fun address ↦
      if Within offset count.toNat address then some (source (address - offset).toNat) else none)
    segment.allocated

/-- The first byte behind the header, `segment + 1`. -/
def segmentData (segment : Word) : Word := segment + segmentHeader

/-- Writes to the header at an address. -/
def Heap.modify (heap : Heap) (address : Word) (write : SeffStackSegment → SeffStackSegment) :
    Option Heap :=
  (heap address).map fun segment ↦ Function.update heap address (some (write segment))

/-- `free(address)`. -/
def Heap.free (heap : Heap) (address : Word) : Option Heap :=
  (heap address).map fun _ ↦ Function.update heap address none

/-- `memcpy(target, source, count)` into the block of a segment. -/
def Heap.memcpy (heap : Heap) (address target : Word) (source : ℕ → BitVec 8) (count : Word) :
    Option Heap :=
  if count = 0 then some heap
  else do
    let segment ← heap address
    let offset := target - address
    if offset.toNat + count.toNat ≤ segment.allocated.toNat then
      heap.modify address fun segment ↦ segment.overwrite offset count source
    else none

/-- `init_segment(frame_size)`, when `malloc(frame_size + overhead)` returns `block`. The four
fields that it writes take 32 bytes. -/
def initSegment (block frameSize : Word) (heap : Heap) : Option (Word × Heap) :=
  let overhead := segmentHeader
  let allocated := frameSize + overhead
  if block = 0 then none
  else if allocated < 32 then none
  else some (block, Function.update heap block
    (some
      { prev := 0
        next := 0
        size := frameSize
        canary := 0x999999999999
        allocated := allocated }))

/-- `init_stack_frame(frame_size, rsp)`, with the address it stores through `rsp`. -/
def initStackFrame (block frameSize : Word) (heap : Heap) : Option (Word × Word × Heap) := do
  let (ret, heap) ← initSegment block frameSize heap
  let segment ← heap ret
  some (ret, ret + segmentHeader + segment.size, heap)

/-- `LINK(first, second)`. -/
def link (first second : Word) (heap : Heap) : Option Heap := do
  let heap ← heap.modify first fun segment ↦ { segment with next := second }
  heap.modify second fun segment ↦ { segment with prev := first }

/-- The loop that aligns `new_stack`, run for at most `fuel` iterations. -/
def alignLoop : ℕ → Word → Word
  | 0, newStack => newStack
  | fuel + 1, newStack =>
    if newStack % 16 ≠ 0 then alignLoop fuel (newStack - 1) else newStack

/-- What `seff_mem_allocate_frame` returns and writes: the new stack pointer, the value stored
through `pframe_size`, the heap and the current coroutine. -/
structure AllocatedFrame where
  newStack : Word
  frameSize : Word
  heap : Heap
  current : SeffCoroutine

/-- `new_size`, the size of a segment that is created for a call. -/
def newSize (minSegmentSize frameSize paramSize : Word) : Word :=
  let newSize := frameSize + paramSize
  if newSize < minSegmentSize then minSegmentSize else newSize

/-- The segment that `seff_mem_allocate_frame` moves to. -/
def nextSegment (minSegmentSize block frameSize paramSize current : Word) (heap : Heap) :
    Option (Word × Heap) := do
  let newSize := newSize minSegmentSize frameSize paramSize
  let next ← (heap current).map SeffStackSegment.next
  if next = 0 then do
    let (newSegment, heap) ← initSegment block newSize heap
    let heap ← link current newSegment heap
    some (newSegment, heap)
  else do
    let nextSize ← (heap next).map SeffStackSegment.size
    if nextSize < frameSize + paramSize then do
      let (newSegment, heap) ← initSegment block newSize heap
      let heap ← link newSegment next heap
      let heap ← link current newSegment heap
      some (newSegment, heap)
    else some (next, heap)

/-- `seff_mem_allocate_frame` on the current coroutine up to its `memcpy`, with `frame_size` read
through `pframe_size`. -/
def enterSegment (minSegmentSize block frameSize paramSize : Word) (heap : Heap)
    (current : SeffCoroutine) : Option AllocatedFrame := do
  let (newSegment, heap) ←
    nextSegment minSegmentSize block frameSize paramSize current.framePtr heap
  let size ← (heap newSegment).map SeffStackSegment.size
  let newStack := segmentData newSegment + size - paramSize
  some
    { newStack := alignLoop 16 newStack
      frameSize := size - paramSize
      heap := heap
      current := { current with framePtr := newSegment } }

/-- The `memcpy` of `seff_mem_allocate_frame`. -/
def AllocatedFrame.copyParameters (frame : AllocatedFrame) (paramSize : Word)
    (oldStack : ℕ → BitVec 8) : Option AllocatedFrame := do
  let heap ← frame.heap.memcpy frame.current.framePtr frame.newStack oldStack paramSize
  some { frame with heap := heap }

/-- `seff_mem_allocate_frame(pframe_size, old_stack, param_size)`, with the bytes at `old_stack`. -/
def seffMemAllocateFrame (minSegmentSize block frameSize paramSize : Word)
    (oldStack : ℕ → BitVec 8) (heap : Heap) (current : SeffCoroutine) : Option AllocatedFrame := do
  let frame ← enterSegment minSegmentSize block frameSize paramSize heap current
  frame.copyParameters paramSize oldStack

/-- `seff_mem_release_frame()`, with the current coroutine it writes. -/
def seffMemReleaseFrame (heap : Heap) (current : SeffCoroutine) :
    Option (Word × SeffCoroutine) := do
  let prev ← (heap current.framePtr).map SeffStackSegment.prev
  some (prev + segmentHeader, { current with framePtr := prev })

/-- The first loop of `seff_coroutine_release`, run for at most `fuel` iterations. -/
def rewindLoop (heap : Heap) : ℕ → Word → Option Word
  | 0, _ => none
  | fuel + 1, segment =>
    if segment = 0 then some segment
    else do
      let prev ← (heap segment).map SeffStackSegment.prev
      if prev = 0 then some segment else rewindLoop heap fuel prev

/-- The second loop of `seff_coroutine_release`, run for at most `fuel` iterations, with the
addresses it gives to `free` in their order. -/
def freeLoop : ℕ → Word → Heap → Option (List Word × Heap)
  | 0, _, _ => none
  | fuel + 1, segment, heap =>
    if segment = 0 then some ([], heap)
    else do
      let next ← (heap segment).map SeffStackSegment.next
      let heap ← heap.free segment
      let (freed, heap) ← freeLoop fuel next heap
      some (segment :: freed, heap)

/-- `seff_coroutine_release(k)` under the segmented policy. -/
def seffCoroutineRelease (fuel : ℕ) (heap : Heap) (k : SeffCoroutine) :
    Option (List Word × Heap) := do
  let segment ← rewindLoop heap fuel k.framePtr
  freeLoop fuel segment heap

end Libseff.Stack
