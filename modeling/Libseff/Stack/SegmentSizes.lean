import Libseff.Stack.SegmentLists

/-!
# The sizes of the segments

No function of the segmented policy changes the size of a segment it finds: `link` writes the links
only, and a segment that is created gets its size from `init_segment`. `nextSegment_cases` says
which segment `seff_mem_allocate_frame` moves to, and with which sizes.
-/

set_option autoImplicit false
set_option relaxedAutoImplicit false

namespace Libseff.Stack

open Coroutine

/-- The sizes of the segments. -/
def Heap.sizes (heap : Heap) (address : Word) : Option Word :=
  (heap address).map SeffStackSegment.size

theorem Heap.sizes_modify {heap changed : Heap} {address : Word}
    {write : SeffStackSegment → SeffStackSegment}
    (hwrite : ∀ segment, (write segment).size = segment.size)
    (hmodify : heap.modify address write = some changed) : changed.sizes = heap.sizes := by
  obtain ⟨segment, hsegment, rfl⟩ := Option.map_eq_some_iff.mp hmodify
  funext other
  by_cases hother : other = address
  · subst hother
    simp [sizes, hsegment, hwrite]
  · simp [sizes, hother]

theorem sizes_link {heap changed : Heap} {first second : Word}
    (hlink : link first second heap = some changed) : changed.sizes = heap.sizes := by
  obtain ⟨middle, hfirst, hsecond⟩ := Option.bind_eq_some_iff.mp hlink
  refine (Heap.sizes_modify ?_ hsecond).trans (Heap.sizes_modify ?_ hfirst) <;>
    exact fun _ ↦ rfl

theorem sizes_initSegment {heap changed : Heap} {block size segment : Word}
    (hinit : initSegment block size heap = some (segment, changed)) :
    segment = block ∧ changed.sizes = Function.update heap.sizes block (some size) := by
  simp only [initSegment] at hinit
  split_ifs at hinit
  obtain ⟨rfl, rfl⟩ := Prod.mk.inj (Option.some.inj hinit)
  refine ⟨rfl, ?_⟩
  funext other
  by_cases hother : other = block
  · subst hother
    simp [Heap.sizes]
  · simp [Heap.sizes, hother]

/-- The segment behind the current one is missing or too small for a call. -/
def NeedsSegment (frameSize paramSize current : Word) (heap : Heap) : Prop :=
  ∃ segment, heap current = some segment ∧ (segment.next = 0 ∨
    ∃ size, heap.sizes segment.next = some size ∧ size < frameSize + paramSize)

/-- A segment is created for a call when it is needed, with the size of the call. Otherwise the next
one is used, which is large enough. -/
theorem nextSegment_cases {minSegmentSize block frameSize paramSize current newSegment : Word}
    {heap changed : Heap}
    (hnext : nextSegment minSegmentSize block frameSize paramSize current heap =
      some (newSegment, changed)) :
    (NeedsSegment frameSize paramSize current heap ∧ newSegment = block ∧ changed.sizes =
      Function.update heap.sizes block (some (newSize minSegmentSize frameSize paramSize))) ∨
    (¬ NeedsSegment frameSize paramSize current heap ∧ changed = heap ∧ ∃ segment size,
      heap current = some segment ∧ newSegment = segment.next ∧
      heap.sizes segment.next = some size ∧ ¬ size < frameSize + paramSize) := by
  obtain ⟨next, hcurrent, hnext⟩ := Option.bind_eq_some_iff.mp hnext
  obtain ⟨segment, hsegment, rfl⟩ := Option.map_eq_some_iff.mp hcurrent
  by_cases hlast : segment.next = 0
  · rw [if_pos hlast] at hnext
    obtain ⟨⟨fresh, first⟩, hinit, hnext⟩ := Option.bind_eq_some_iff.mp hnext
    obtain ⟨last, hlink, hnext⟩ := Option.bind_eq_some_iff.mp hnext
    obtain ⟨rfl, rfl⟩ := Prod.mk.inj (Option.some.inj hnext)
    obtain ⟨rfl, hsizes⟩ := sizes_initSegment hinit
    exact .inl ⟨⟨segment, hsegment, .inl hlast⟩, rfl, (sizes_link hlink).trans hsizes⟩
  · rw [if_neg hlast] at hnext
    obtain ⟨size, hsize, hnext⟩ := Option.bind_eq_some_iff.mp hnext
    by_cases hsmall : size < frameSize + paramSize
    · rw [if_pos hsmall] at hnext
      obtain ⟨⟨fresh, first⟩, hinit, hnext⟩ := Option.bind_eq_some_iff.mp hnext
      obtain ⟨second, hlink, hnext⟩ := Option.bind_eq_some_iff.mp hnext
      obtain ⟨last, hlink', hnext⟩ := Option.bind_eq_some_iff.mp hnext
      obtain ⟨rfl, rfl⟩ := Prod.mk.inj (Option.some.inj hnext)
      obtain ⟨rfl, hsizes⟩ := sizes_initSegment hinit
      exact .inl ⟨⟨segment, hsegment, .inr ⟨size, hsize, hsmall⟩⟩, rfl,
        (sizes_link hlink').trans ((sizes_link hlink).trans hsizes)⟩
    · rw [if_neg hsmall] at hnext
      obtain ⟨rfl, rfl⟩ := Prod.mk.inj (Option.some.inj hnext)
      refine .inr ⟨?_, rfl, segment, size, hsegment, rfl, hsize, hsmall⟩
      rintro ⟨other, hother, hneeds⟩
      obtain rfl := Option.some.inj (hsegment.symm.trans hother)
      rcases hneeds with hzero | ⟨other, hother, hless⟩
      · exact hlast hzero
      · obtain rfl := Option.some.inj (hsize.symm.trans hother)
        exact hsmall hless

/-- The size of the segment that `seff_mem_allocate_frame` moves to: that of the next segment when
it is large enough, and otherwise that of a new one. -/
def movedSize (minSegmentSize frameSize paramSize current : Word) (heap : Heap) : Option Word := do
  let next ← (heap current).map SeffStackSegment.next
  if next = 0 then some (newSize minSegmentSize frameSize paramSize)
  else do
    let size ← heap.sizes next
    if size < frameSize + paramSize then some (newSize minSegmentSize frameSize paramSize)
    else some size

theorem sizes_nextSegment {minSegmentSize block frameSize paramSize current newSegment : Word}
    {heap changed : Heap}
    (hnext : nextSegment minSegmentSize block frameSize paramSize current heap =
      some (newSegment, changed)) :
    changed.sizes newSegment = movedSize minSegmentSize frameSize paramSize current heap := by
  rcases nextSegment_cases hnext with
    ⟨⟨segment, hsegment, hneeds⟩, rfl, hsizes⟩ |
    ⟨hneeds, rfl, segment, size, hsegment, rfl, hsize, hlarge⟩
  · rw [hsizes, Function.update_self]
    rcases hneeds with hzero | ⟨size, hsize, hsmall⟩
    · simp [movedSize, hsegment, hzero]
    · by_cases hzero : segment.next = 0 <;>
        simp [movedSize, hsegment, hzero, hsize, hsmall]
  · have hzero : segment.next ≠ 0 := fun hzero ↦ hneeds ⟨segment, hsegment, .inl hzero⟩
    simp only [movedSize, hsegment, Option.map_some, Option.bind_eq_bind, Option.bind_some,
      if_neg hzero, hsize, if_neg hlarge]

/-- What `seff_mem_allocate_frame` returns, in terms of the segment it moves to, and of the heap
`moved` into which the parameters are copied. -/
theorem seffMemAllocateFrame_cases {minSegmentSize block frameSize paramSize : Word}
    {oldStack : ℕ → BitVec 8} {heap : Heap} {k : SeffCoroutine} {frame : AllocatedFrame}
    (hcall : seffMemAllocateFrame minSegmentSize block frameSize paramSize oldStack heap k =
      some frame) :
    ∃ newSegment moved size,
      nextSegment minSegmentSize block frameSize paramSize k.framePtr heap =
        some (newSegment, moved) ∧
      moved.sizes newSegment = some size ∧
      frame.newStack = alignLoop 16 (segmentData newSegment + size - paramSize) ∧
      frame.frameSize = size - paramSize ∧
      frame.current = { k with framePtr := newSegment } ∧
      moved.memcpy newSegment frame.newStack oldStack paramSize = some frame.heap := by
  obtain ⟨entered, hentered, hcopied⟩ := Option.bind_eq_some_iff.mp hcall
  obtain ⟨⟨newSegment, moved⟩, hnext, hentered⟩ := Option.bind_eq_some_iff.mp hentered
  obtain ⟨size, hsize, hentered⟩ := Option.bind_eq_some_iff.mp hentered
  obtain rfl := Option.some.inj hentered
  obtain ⟨heap, hmemcpy, hframe⟩ := Option.bind_eq_some_iff.mp hcopied
  obtain rfl := Option.some.inj hframe
  exact ⟨newSegment, moved, size, hnext, hsize, rfl, rfl, rfl, hmemcpy⟩

end Libseff.Stack
