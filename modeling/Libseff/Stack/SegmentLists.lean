import Libseff.Foundation.DoublyLinkedLists
import Libseff.Foundation.Runs
import Libseff.Foundation.SeparatedLists
import Libseff.Stack.Segments

/-!
# The segment list of a coroutine

The segments of a coroutine form a doubly linked list. `frame_ptr` points to the segment of its
innermost call: the calls below run on the segments in front of it, and the segments behind it are
kept for calls to come (`StackOf`). Entering `__morestack` moves `frame_ptr` one segment on, and
creates that segment unless the next one is large enough; returning moves it one segment back.
`seff_coroutine_release` finds the first segment from wherever the coroutine stopped and frees them
all.

While the sizes do not wrap (`SizesFit`), the block of every segment holds its header and its data
area (`Fits`), and the parameters of a call are copied behind the header
(`memcpy_eq`).
-/

set_option autoImplicit false
set_option relaxedAutoImplicit false

namespace Libseff.Stack

open Foundation Coroutine

/-- The links of the segments. -/
def Heap.links (heap : Heap) (address : Word) : Option (Links Word) :=
  (heap address).map fun segment ↦ ⟨segment.prev, segment.next⟩

theorem Heap.links_eq {heap : Heap} {address : Word} {segment : SeffStackSegment}
    (h : heap address = some segment) : heap.links address = some ⟨segment.prev, segment.next⟩ := by
  rw [Heap.links, h, Option.map_some]

theorem Heap.exists_of_links {heap : Heap} {address : Word} {links : Links Word}
    (h : heap.links address = some links) :
    ∃ segment, heap address = some segment ∧ segment.prev = links.prev ∧
      segment.next = links.next := by
  obtain ⟨segment, hsegment, rfl⟩ := Option.map_eq_some_iff.mp h
  exact ⟨segment, hsegment, rfl, rfl⟩

/-! ### The routines, one by one -/

theorem SeffStackSegment.ofBytes_bytes (segment : SeffStackSegment) :
    SeffStackSegment.ofBytes segment.bytes segment.allocated = segment := by
  obtain ⟨prev, next, size, canary, allocated⟩ := segment
  simp only [ofBytes, bytes, SeffStackSegment.mk.injEq, and_true]
  refine ⟨?_, ?_, ?_, ByteMemory.load64_store64 _ _ _⟩
  · rw [ByteMemory.load64_store64_of_le (by decide) (by decide),
      ByteMemory.load64_store64_of_le (by decide) (by decide),
      ByteMemory.load64_store64_of_le (by decide) (by decide), ByteMemory.load64_store64]
  · rw [ByteMemory.load64_store64_of_le (by decide) (by decide),
      ByteMemory.load64_store64_of_le (by decide) (by decide), ByteMemory.load64_store64]
  · rw [ByteMemory.load64_store64_of_le (by decide) (by decide), ByteMemory.load64_store64]

/-- What is copied behind the fields of a header does not change it. -/
theorem SeffStackSegment.overwrite_eq (segment : SeffStackSegment) {offset count : Word}
    (source : ℕ → BitVec 8) (hfields : 32 ≤ offset.toNat)
    (hend : offset.toNat + count.toNat ≤ 2 ^ 64) :
    segment.overwrite offset count source = segment := by
  have hkept : ∀ field : Word, field.toNat + 8 ≤ 32 →
      (segment.bytes.overwrite fun address ↦
        if Within offset count.toNat address then some (source (address - offset).toNat)
        else none).load64 field = segment.bytes.load64 field := by
    intro field hfield
    refine ByteMemory.load64_congr fun other hother ↦ ByteMemory.overwrite_of_eq_none (if_neg ?_)
    rw [Within] at hother ⊢
    bv_omega
  rw [overwrite]
  conv_rhs => rw [← segment.ofBytes_bytes]
  simp only [ofBytes, hkept 0 (by decide), hkept 8 (by decide), hkept 16 (by decide),
    hkept 24 (by decide)]

/-- What is copied is determined by the bytes it is copied from. -/
theorem AllocatedFrame.copyParameters_congr (frame : AllocatedFrame) {paramSize : Word}
    {oldStack changed : ℕ → BitVec 8}
    (h : ∀ index < paramSize.toNat, changed index = oldStack index) :
    frame.copyParameters paramSize changed = frame.copyParameters paramSize oldStack := by
  have hoverwrite : ∀ offset (segment : SeffStackSegment),
      segment.overwrite offset paramSize changed = segment.overwrite offset paramSize oldStack := by
    intro offset segment
    have hbytes : (fun address ↦ if Within offset paramSize.toNat address
        then some (changed (address - offset).toNat) else none) =
      fun address ↦ if Within offset paramSize.toNat address
        then some (oldStack (address - offset).toNat) else none := by
      funext address
      split_ifs with hin
      · rw [h _ hin]
      · rfl
    rw [SeffStackSegment.overwrite, hbytes, SeffStackSegment.overwrite]
  simp only [copyParameters, Heap.memcpy, hoverwrite]

theorem AllocatedFrame.frameSize_copyParameters {frame after : AllocatedFrame} {paramSize : Word}
    {oldStack : ℕ → BitVec 8} (h : frame.copyParameters paramSize oldStack = some after) :
    after.frameSize = frame.frameSize := by
  obtain ⟨heap, -, hafter⟩ := Option.bind_eq_some_iff.mp h
  rw [← Option.some.inj hafter]

theorem link_eq (heap : Heap) (a b : SeffStackSegment) (first second : Word)
    (hfirst : heap first = some a) (hsecond : heap second = some b) (hne : first ≠ second) :
    link first second heap = some (Function.update
      (Function.update heap first (some { a with next := second })) second
      (some { b with prev := first })) := by
  simp [link, Heap.modify, hfirst, hsecond, hne.symm]

theorem toNat_mod_sixteen (address : Word) : (address % 16).toNat = address.toNat % 16 := by
  simp [BitVec.toNat_umod]

theorem toNat_sub_mod_sixteen (address : Word) :
    (address - address % 16).toNat = address.toNat - address.toNat % 16 := by
  rw [BitVec.toNat_sub_of_le, toNat_mod_sixteen]
  rw [BitVec.le_def, toNat_mod_sixteen]
  exact Nat.mod_le _ _

/-- The alignment loop rounds down to a multiple of 16. -/
theorem alignLoop_eq (fuel : ℕ) (newStack : Word) (h : newStack.toNat % 16 ≤ fuel) :
    alignLoop fuel newStack = newStack - newStack % 16 := by
  induction fuel generalizing newStack with
  | zero =>
    have hzero : newStack % 16 = 0 :=
      BitVec.eq_of_toNat_eq (by rw [toNat_mod_sixteen]; simpa using h)
    rw [alignLoop, hzero]
    simp
  | succ fuel ih =>
    unfold alignLoop
    by_cases hzero : newStack % 16 = 0
    · rw [if_neg (not_not.mpr hzero), hzero]
      simp
    · have hpos : newStack.toNat % 16 ≠ 0 := fun hnat ↦
        hzero (BitVec.eq_of_toNat_eq (by rw [toNat_mod_sixteen, hnat]; rfl))
      have hpred : (newStack - 1).toNat = newStack.toNat - 1 :=
        BitVec.toNat_sub_of_le (by bv_omega)
      rw [if_pos hzero, ih _ (by omega)]
      apply BitVec.eq_of_toNat_eq
      rw [toNat_sub_mod_sixteen, toNat_sub_mod_sixteen]
      omega

theorem segmentData_toNat {segment : Word} (h : segment.toNat + 160 < 2 ^ 64) :
    (segmentData segment).toNat = segment.toNat + 160 :=
  BitVec.toNat_add_of_lt h

/-- The limit that `__morestack` computes from the stack pointer it got is the first byte behind the
header, less what the stack pointer was rounded down by. -/
theorem grownLimit_eq (segment size paramSize : Word) :
    alignLoop 16 (segmentData segment + size - paramSize) - (size - paramSize) =
      segmentData segment - (segmentData segment + size - paramSize) % 16 := by
  obtain ⟨top, htop⟩ : ∃ top, top = segmentData segment + size - paramSize := ⟨_, rfl⟩
  have hmod := toNat_mod_sixteen top
  rw [← htop, alignLoop_eq 16 top (by omega), htop]
  bv_omega

theorem le_newSize (minSegmentSize frameSize paramSize : Word) :
    frameSize + paramSize ≤ newSize minSegmentSize frameSize paramSize := by
  simp only [newSize]
  split_ifs with hsmall
  · exact BitVec.le_of_lt hsmall
  · exact BitVec.le_refl _

/-! ### The sizes of blocks -/

/-- No size that is computed for a call wraps, up to that of the block of a new segment. -/
def SizesFit (minSegmentSize frameSize paramSize : Word) : Prop :=
  max (frameSize.toNat + paramSize.toNat) minSegmentSize.toNat + 160 < 2 ^ 64

instance (minSegmentSize frameSize paramSize : Word) :
    Decidable (SizesFit minSegmentSize frameSize paramSize) :=
  inferInstanceAs (Decidable (_ < _))

section SizesFit

variable {minSegmentSize frameSize paramSize : Word}

theorem SizesFit.sum (h : SizesFit minSegmentSize frameSize paramSize) :
    (frameSize + paramSize).toNat = frameSize.toNat + paramSize.toNat := by
  rw [SizesFit] at h
  exact BitVec.toNat_add_of_lt (by omega)

theorem SizesFit.newSize (h : SizesFit minSegmentSize frameSize paramSize) :
    (newSize minSegmentSize frameSize paramSize).toNat + 160 < 2 ^ 64 := by
  have hsum := h.sum
  rw [SizesFit] at h
  simp only [Stack.newSize]
  split_ifs <;> omega

end SizesFit

/-- The block of a segment holds its header and as many bytes behind it as its size says, and ends
before the address space does. -/
structure Fits (address : Word) (segment : SeffStackSegment) : Prop where
  allocated : segment.allocated.toNat = segment.size.toNat + 160
  bounded : address.toNat + segment.allocated.toNat < 2 ^ 64

/-- `malloc(bytes)` returns fresh memory in the address space. -/
structure FreshBlock (heap : Heap) (block bytes : Word) : Prop where
  nonnull : block ≠ 0
  fresh : heap block = none
  bounded : block.toNat + bytes.toNat < 2 ^ 64

/-- A new segment. -/
def freshSegment (size : Word) : SeffStackSegment :=
  ⟨0, 0, size, 0x999999999999, size + segmentHeader⟩

theorem allocated_toNat {size : Word} (hsize : size.toNat + 160 < 2 ^ 64) :
    (size + segmentHeader).toNat = size.toNat + 160 :=
  BitVec.toNat_add_of_lt hsize

theorem initSegment_eq (heap : Heap) {block size : Word} (hblock : block ≠ 0)
    (hsize : size.toNat + 160 < 2 ^ 64) :
    initSegment block size heap =
      some (block, Function.update heap block (some (freshSegment size))) := by
  have hfields : ¬ size + segmentHeader < 32 := by
    rw [BitVec.lt_def, allocated_toNat hsize]
    exact not_lt.mpr (by simp)
  simp only [initSegment, if_neg hblock, if_neg hfields, freshSegment]

theorem fits_of_fresh {heap : Heap} {block size : Word} {segment : SeffStackSegment}
    (hblock : FreshBlock heap block (size + segmentHeader)) (hsize : size.toNat + 160 < 2 ^ 64)
    (hsegment : segment.size = size) (hallocated : segment.allocated = size + segmentHeader) :
    Fits block segment := by
  refine ⟨?_, ?_⟩
  · rw [hallocated, hsegment, allocated_toNat hsize]
  · rw [hallocated]
    exact hblock.bounded

theorem Fits.header {address : Word} {segment : SeffStackSegment} (h : Fits address segment) :
    address.toNat + 160 < 2 ^ 64 := by
  have hallocated := h.allocated
  have hbounded := h.bounded
  omega

/-- The parameters of a call are copied to the end of a segment that is large enough for them. -/
theorem newStack_toNat {address : Word} {segment : SeffStackSegment} (hfits : Fits address segment)
    {paramSize : Word} (hlarge : paramSize.toNat ≤ segment.size.toNat) :
    (alignLoop 16 (segmentData address + segment.size - paramSize)).toNat =
      address.toNat + 160 + segment.size.toNat - paramSize.toNat -
        (address.toNat + 160 + segment.size.toNat - paramSize.toNat) % 16 := by
  have hdata := segmentData_toNat hfits.header
  have hallocated := hfits.allocated
  have hbounded := hfits.bounded
  have hsum : (segmentData address + segment.size).toNat =
      address.toNat + 160 + segment.size.toNat := by
    rw [BitVec.toNat_add_of_lt (by omega), hdata]
  have htop : (segmentData address + segment.size - paramSize).toNat =
      address.toNat + 160 + segment.size.toNat - paramSize.toNat := by
    rw [BitVec.toNat_sub_of_le (by rw [BitVec.le_def]; omega), hsum]
  rw [alignLoop_eq 16 _ (by omega), toNat_sub_mod_sixteen, htop]

/-- They do not touch the fields of its header. -/
theorem memcpy_eq {heap : Heap} {address : Word} {segment : SeffStackSegment}
    (hsegment : heap address = some segment) (hfits : Fits address segment) {paramSize : Word}
    (hlarge : paramSize.toNat ≤ segment.size.toNat) (oldStack : ℕ → BitVec 8) :
    heap.memcpy address (alignLoop 16 (segmentData address + segment.size - paramSize)) oldStack
      paramSize = some heap := by
  have hnewStack := newStack_toNat hfits hlarge
  generalize alignLoop 16 (segmentData address + segment.size - paramSize) = newStack
    at hnewStack ⊢
  have hallocated := hfits.allocated
  have hoffset : (newStack - address).toNat = newStack.toNat - address.toNat :=
    BitVec.toNat_sub_of_le (by rw [BitVec.le_def]; omega)
  by_cases hnone : paramSize = 0
  · rw [Heap.memcpy, if_pos hnone]
  · have hinside : (newStack - address).toNat + paramSize.toNat ≤ segment.allocated.toNat := by
      omega
    have hkept : segment.overwrite (newStack - address) paramSize oldStack = segment :=
      segment.overwrite_eq oldStack (by omega) (by omega)
    simp only [Heap.memcpy, if_neg hnone, hsegment, Option.bind_eq_bind, Option.bind_some,
      if_pos hinside, Heap.modify, Option.map_some, hkept, Option.some.injEq]
    rw [← hsegment, Function.update_eq_self]

section NextSegment

variable {heap : Heap} {block framePtr : Word} {current next : SeffStackSegment}
  (minSegmentSize frameSize paramSize : Word)

/-- The heap after a segment was created for a call and inserted behind the current one. -/
def insertedHeap (minSegmentSize frameSize paramSize : Word) (heap : Heap) (block framePtr : Word)
    (current : SeffStackSegment) : Heap :=
  Function.update (Function.update heap framePtr (some { current with next := block })) block
    (some
      { prev := framePtr
        next := current.next
        size := newSize minSegmentSize frameSize paramSize
        canary := 0x999999999999
        allocated := newSize minSegmentSize frameSize paramSize + segmentHeader })

/-- Behind the last segment a new one is appended. -/
theorem nextSegment_append (hblock : block ≠ 0)
    (hsize : (newSize minSegmentSize frameSize paramSize).toNat + 160 < 2 ^ 64)
    (hcurrent : heap framePtr = some current) (hne : framePtr ≠ block)
    (hlast : current.next = 0) :
    nextSegment minSegmentSize block frameSize paramSize framePtr heap =
      some (block,
        insertedHeap minSegmentSize frameSize paramSize heap block framePtr current) := by
  have hkept : Function.update heap block (some (freshSegment
      (newSize minSegmentSize frameSize paramSize))) framePtr = some current := by
    rw [Function.update_of_ne hne, hcurrent]
  simp only [nextSegment, hcurrent, Option.map_some, Option.bind_eq_bind, Option.bind_some, hlast,
    if_true, initSegment_eq heap hblock hsize]
  rw [link_eq _ current _ _ _ hkept (Function.update_self ..) hne, Option.bind_some,
    Function.update_comm hne.symm, Function.update_idem, insertedHeap, hlast, freshSegment]

/-- In front of a next segment that is too small a new one is inserted. -/
theorem nextSegment_splice (hblock : block ≠ 0)
    (hsize : (newSize minSegmentSize frameSize paramSize).toNat + 160 < 2 ^ 64)
    (hcurrent : heap framePtr = some current) (hne : framePtr ≠ block)
    (hmore : current.next ≠ 0) (hnext : heap current.next = some next)
    (hnextBlock : current.next ≠ block) (hnextCurrent : current.next ≠ framePtr)
    (hsmall : next.size < frameSize + paramSize) :
    nextSegment minSegmentSize block frameSize paramSize framePtr heap =
      some (block, insertedHeap minSegmentSize frameSize paramSize
        (Function.update heap current.next (some { next with prev := block })) block framePtr
        current) := by
  obtain ⟨fresh, hfresh⟩ : ∃ fresh : SeffStackSegment,
      fresh = freshSegment (newSize minSegmentSize frameSize paramSize) := ⟨_, rfl⟩
  have hkept : Function.update heap block (some fresh) current.next = some next := by
    rw [Function.update_of_ne hnextBlock, hnext]
  have hfirst := link_eq _ fresh next _ _ (Function.update_self block (some fresh) heap) hkept
    hnextBlock.symm
  have hsecond := link_eq (Function.update (Function.update heap block
    (some { fresh with next := current.next })) current.next (some { next with prev := block }))
    current { fresh with next := current.next } framePtr block
    (by simp [hnextCurrent.symm, hne, hcurrent]) (by simp [hnextBlock.symm]) hne
  simp only [nextSegment, hcurrent, Option.map_some, Option.bind_eq_bind, Option.bind_some, hnext,
    if_neg hmore, if_pos hsmall, initSegment_eq heap hblock hsize, ← hfresh]
  rw [hfirst, Option.bind_some, Function.update_idem, hsecond, Option.bind_some, insertedHeap,
    Function.update_comm hnextBlock.symm, Function.update_comm hne.symm, Function.update_idem,
    hfresh, freshSegment]

/-- A next segment that is large enough is used again. -/
theorem nextSegment_reuse (hcurrent : heap framePtr = some current) (hmore : current.next ≠ 0)
    (hnext : heap current.next = some next) (hlarge : ¬ next.size < frameSize + paramSize) :
    nextSegment minSegmentSize block frameSize paramSize framePtr heap =
      some (current.next, heap) := by
  simp only [nextSegment, hcurrent, Option.map_some, Option.bind_eq_bind, Option.bind_some,
    if_neg hmore, hnext, if_neg hlarge]

theorem insertedHeap_block : (insertedHeap minSegmentSize frameSize paramSize heap block framePtr
    current).links block = some ⟨framePtr, current.next⟩ := by
  simp [insertedHeap, Heap.links]

theorem insertedHeap_current (hne : framePtr ≠ block) :
    (insertedHeap minSegmentSize frameSize paramSize heap block framePtr current) framePtr =
      some { current with next := block } := by
  simp [insertedHeap, hne]

theorem insertedHeap_of_ne {address : Word} (hblock : address ≠ block)
    (hcurrent : address ≠ framePtr) :
    insertedHeap minSegmentSize frameSize paramSize heap block framePtr current address =
      heap address := by
  rw [insertedHeap, Function.update_of_ne hblock, Function.update_of_ne hcurrent]

end NextSegment

/-- The segments of a coroutine: those of the calls below the current one, the current segment
`framePtr`, and those kept for later calls. Each one fits into its block. -/
structure StackOf (heap : Heap) (framePtr : Word) (below above : List Word) : Prop where
  linked : DoublyLinked heap.links 0 (below ++ framePtr :: above) 0
  nodup : (below ++ framePtr :: above).Nodup
  nonnull : 0 ∉ below ++ framePtr :: above
  fits : ∀ address ∈ below ++ framePtr :: above, ∀ segment, heap address = some segment →
    Fits address segment

namespace StackOf

variable {heap : Heap} {framePtr : Word} {below above : List Word}

theorem current (h : StackOf heap framePtr below above) :
    ∃ segment, heap framePtr = some segment ∧ segment.prev = below.getLastD 0 ∧
      segment.next = above.headD 0 :=
  Heap.exists_of_links h.linked.links_eq

theorem isSome_of_mem (h : StackOf heap framePtr below above) {segment : Word}
    (hsegment : segment ∈ below ++ framePtr :: above) : (heap segment).isSome := by
  have hlinks := h.linked.isSome_of_mem hsegment
  rwa [Heap.links, Option.isSome_map] at hlinks

theorem not_mem_of_fresh (h : StackOf heap framePtr below above) {block : Word}
    (hfresh : heap block = none) : block ∉ below ++ framePtr :: above := by
  intro hmem
  have hsome := h.isSome_of_mem hmem
  rw [hfresh] at hsome
  simp at hsome

/-- A change elsewhere in the heap does not touch the list. -/
theorem congr (h : StackOf heap framePtr below above) {changed : Heap}
    (hchanged : ∀ segment ∈ below ++ framePtr :: above, changed segment = heap segment) :
    StackOf changed framePtr below above :=
  ⟨h.linked.congr fun segment hsegment ↦ by rw [Heap.links, Heap.links, hchanged segment hsegment],
    h.nodup, h.nonnull, fun address hmem segment hsegment ↦
      h.fits address hmem segment ((hchanged address hmem).symm.trans hsegment)⟩

/-- Every header is in the address space. -/
theorem header (h : StackOf heap framePtr below above) {segment : Word}
    (hsegment : segment ∈ below ++ framePtr :: above) : segment.toNat + 160 < 2 ^ 64 := by
  obtain ⟨header, hheader⟩ := Option.isSome_iff_exists.mp (h.isSome_of_mem hsegment)
  exact (h.fits segment hsegment header hheader).header

/-- A new segment fits into its block, and the others have their sizes and blocks still. -/
theorem fits_insert (h : StackOf heap framePtr below above) {back : Heap} {block : Word}
    {current : SeffStackSegment} {minSegmentSize frameSize paramSize : Word}
    (hblock : FreshBlock heap block (newSize minSegmentSize frameSize paramSize + segmentHeader))
    (hsize : (newSize minSegmentSize frameSize paramSize).toNat + 160 < 2 ^ 64)
    (hcurrent : heap framePtr = some current)
    (hhead : ∀ next ∈ above.head?, ∀ old, heap next = some old →
      back next = some { old with prev := block })
    (hback : ∀ address, address ∉ above.head? → back address = heap address) {address : Word}
    (haddress : address = block ∨ address ∈ below ++ framePtr :: above)
    {segment : SeffStackSegment} (hsegment : insertedHeap minSegmentSize frameSize paramSize back
      block framePtr current address = some segment) : Fits address segment := by
  by_cases hnew : address = block
  · subst hnew
    rw [insertedHeap, Function.update_self, Option.some.injEq] at hsegment
    subst hsegment
    exact fits_of_fresh hblock hsize rfl rfl
  · have hmem := haddress.resolve_left hnew
    by_cases hframe : address = framePtr
    · subst hframe
      rw [insertedHeap_current _ _ _ hnew, Option.some.injEq] at hsegment
      subst hsegment
      obtain ⟨hallocated, hbounded⟩ := h.fits _ hmem current hcurrent
      exact ⟨hallocated, hbounded⟩
    · rw [insertedHeap_of_ne _ _ _ hnew hframe] at hsegment
      by_cases hnext : address ∈ above.head?
      · obtain ⟨old, hold⟩ := Option.isSome_iff_exists.mp (h.isSome_of_mem hmem)
        rw [hhead address hnext old hold, Option.some.injEq] at hsegment
        subst hsegment
        obtain ⟨hallocated, hbounded⟩ := h.fits _ hmem old hold
        exact ⟨hallocated, hbounded⟩
      · rw [hback address hnext] at hsegment
        exact h.fits address hmem segment hsegment

/-- The stack after a segment was created for a call and inserted behind the current one, where
`back` is the heap after the next segment, if there is one, was linked to the new one. -/
theorem insert (h : StackOf heap framePtr below above) {back : Heap} {block : Word}
    {current : SeffStackSegment} {minSegmentSize frameSize paramSize : Word}
    (hblock : FreshBlock heap block (newSize minSegmentSize frameSize paramSize + segmentHeader))
    (hsize : (newSize minSegmentSize frameSize paramSize).toNat + 160 < 2 ^ 64)
    (hcurrent : heap framePtr = some current)
    (hhead : ∀ next ∈ above.head?, ∀ old, heap next = some old →
      back next = some { old with prev := block })
    (hback : ∀ address, address ∉ above.head? → back address = heap address) :
    StackOf (insertedHeap minSegmentSize frameSize paramSize back block framePtr current) block
      (below ++ [framePtr]) above := by
  have hnotMem := h.not_mem_of_fresh hblock.fresh
  have hlinks := (Heap.links_eq hcurrent).symm.trans h.linked.links_eq
  simp only [Option.some.injEq, Links.mk.injEq] at hlinks
  have hlist : below ++ [framePtr] ++ block :: above = below ++ framePtr :: block :: above := by
    simp
  have hperm : (below ++ framePtr :: block :: above).Perm (block :: (below ++ framePtr :: above)) :=
    by simpa using @List.perm_middle _ block (below ++ [framePtr]) above
  have hne : framePtr ≠ block := fun heq ↦ hnotMem (by simp [heq])
  have hother : ∀ address ∈ below ++ above, address ≠ block ∧ address ≠ framePtr := by
    intro address hmem
    refine ⟨fun heq ↦ hnotMem (heq ▸ List.perm_middle.symm.subset (List.mem_cons_of_mem _ hmem)),
      fun heq ↦ (List.nodup_cons.mp (List.nodup_middle.mp h.nodup)).1 (heq ▸ hmem)⟩
  have hnotHead : ∀ address ∈ below ++ above.tail, address ∉ above.head? := by
    intro address hmem hhead
    obtain ⟨rest, rfl⟩ := List.head?_eq_some_iff.mp hhead
    have hnodup := (List.nodup_cons.mp (List.nodup_middle.mp h.nodup)).2
    exact (List.nodup_cons.mp (List.nodup_middle.mp hnodup)).1 hmem
  refine ⟨?_, ?_, ?_, fun address hmem segment hsegment ↦ ?_⟩
  · rw [hlist]
    refine h.linked.insert ?_ ?_ ?_ ?_
    · rw [insertedHeap_block, hlinks.2]
    · intro old hold
      rw [Heap.links_eq hcurrent, Option.some.injEq] at hold
      rw [Heap.links_eq (insertedHeap_current _ _ _ hne), ← hold]
    · intro next hnext old hold
      have hmem := hother next (List.mem_append_right _ (List.mem_of_mem_head? hnext))
      obtain ⟨header, hheader, -, hnextLink⟩ := Heap.exists_of_links hold
      rw [Heap.links, insertedHeap_of_ne _ _ _ hmem.1 hmem.2, hhead next hnext header hheader,
        Option.map_some, hnextLink]
    · intro address hmem
      have hne := hother address ((List.mem_append.mp hmem).elim (List.mem_append_left above)
        fun htail ↦ List.mem_append_right below (List.mem_of_mem_tail htail))
      rw [Heap.links, Heap.links, insertedHeap_of_ne _ _ _ hne.1 hne.2,
        hback address (hnotHead address hmem)]
  · rw [hlist, hperm.nodup_iff]
    exact List.nodup_cons.mpr ⟨hnotMem, h.nodup⟩
  · rw [hlist, hperm.mem_iff, List.mem_cons, not_or]
    exact ⟨hblock.nonnull.symm, h.nonnull⟩
  · rw [hlist, hperm.mem_iff, List.mem_cons] at hmem
    exact h.fits_insert hblock hsize hcurrent hhead hback hmem hsegment

/-- The segment moved to is large enough for the frame and its parameters. Either it is the fresh
`block`, inserted behind the current segment, or the next segment, with the heap left as it was. -/
theorem exists_nextSegment (h : StackOf heap framePtr below above)
    {minSegmentSize frameSize paramSize block : Word}
    (hblock : FreshBlock heap block (newSize minSegmentSize frameSize paramSize + segmentHeader))
    (hsize : (newSize minSegmentSize frameSize paramSize).toNat + 160 < 2 ^ 64) :
    ∃ newSegment changed rest,
      nextSegment minSegmentSize block frameSize paramSize framePtr heap =
        some (newSegment, changed) ∧
      StackOf changed newSegment (below ++ [framePtr]) rest ∧
      (newSegment = block ∧ rest = above ∨ above = newSegment :: rest ∧ changed = heap) ∧
      (∃ segment, changed newSegment = some segment ∧ frameSize + paramSize ≤ segment.size) ∧
      ∀ address, address ≠ block → address ∉ below ++ framePtr :: above →
        changed address = heap address := by
  obtain ⟨current, hcurrent, hprev, hnext⟩ := h.current
  have hnotMem := h.not_mem_of_fresh hblock.fresh
  have hne : framePtr ≠ block := fun heq ↦ hnotMem (by simp [heq])
  have hlarge : ∀ back : Heap, ∃ segment, insertedHeap minSegmentSize frameSize paramSize back block
      framePtr current block = some segment ∧ frameSize + paramSize ≤ segment.size := fun back ↦
    ⟨_, Function.update_self .., le_newSize minSegmentSize frameSize paramSize⟩
  cases above with
  | nil =>
    refine ⟨block, _, [], nextSegment_append _ _ _ hblock.nonnull hsize hcurrent hne hnext,
      h.insert hblock hsize hcurrent (by simp) fun _ _ ↦ rfl, .inl ⟨rfl, rfl⟩, hlarge heap,
      fun address haddress hmem ↦ insertedHeap_of_ne _ _ _ haddress fun heq ↦ hmem (by simp [heq])⟩
  | cons next rest =>
    obtain rfl : current.next = next := hnext
    have hmore : current.next ≠ 0 := fun hzero ↦ h.nonnull (by simp [hzero])
    have hnextBlock : current.next ≠ block := fun heq ↦ hnotMem (by simp [heq])
    have hnextCurrent : current.next ≠ framePtr := fun heq ↦
      (List.nodup_cons.mp (List.nodup_middle.mp h.nodup)).1 (by simp [← heq])
    have hnextMem : current.next ∈ below ++ framePtr :: current.next :: rest := by simp
    obtain ⟨nextSegment, hnextSegment⟩ := Option.isSome_iff_exists.mp (h.isSome_of_mem hnextMem)
    by_cases hsmall : nextSegment.size < frameSize + paramSize
    · refine ⟨block, _, current.next :: rest, nextSegment_splice _ _ _ hblock.nonnull hsize hcurrent
        hne hmore hnextSegment hnextBlock hnextCurrent hsmall, h.insert hblock hsize hcurrent ?_ ?_,
        .inl ⟨rfl, rfl⟩, hlarge _, fun address haddress hmem ↦ ?_⟩
      · intro next hnext old hold
        obtain rfl : current.next = next := by simpa using hnext
        obtain rfl := Option.some.inj (hnextSegment.symm.trans hold)
        exact Function.update_self ..
      · intro address haddress
        exact Function.update_of_ne (fun heq ↦ haddress (by simp [heq])) _ _
      · simp only [List.mem_append, List.mem_cons, not_or] at hmem
        rw [insertedHeap_of_ne _ _ _ haddress hmem.2.1, Function.update_of_ne hmem.2.2.1]
    · refine ⟨current.next, heap, rest, nextSegment_reuse _ _ _ hcurrent hmore hnextSegment hsmall,
        ⟨?_, ?_, ?_, ?_⟩, .inr ⟨rfl, rfl⟩, ⟨nextSegment, hnextSegment, BitVec.not_lt.mp hsmall⟩,
        fun _ _ _ ↦ rfl⟩
      · simpa using h.linked
      · simpa using h.nodup
      · simpa using h.nonnull
      · simpa using h.fits

/-- `seff_mem_allocate_frame` moves the coroutine on to a segment that is large enough, the fresh
`block` or the next one, and returns the aligned address of the parameters in it. The parameters do
not reach a header. -/
theorem exists_allocateFrame {k : SeffCoroutine} (h : StackOf heap k.framePtr below above)
    {minSegmentSize frameSize paramSize block : Word}
    (hblock : FreshBlock heap block (newSize minSegmentSize frameSize paramSize + segmentHeader))
    (hsizes : SizesFit minSegmentSize frameSize paramSize) (oldStack : ℕ → BitVec 8) :
    ∃ newSegment changed rest segment,
      seffMemAllocateFrame minSegmentSize block frameSize paramSize oldStack heap k = some
        { newStack := alignLoop 16 (segmentData newSegment + segment.size - paramSize)
          frameSize := segment.size - paramSize
          heap := changed
          current := { k with framePtr := newSegment } } ∧
      nextSegment minSegmentSize block frameSize paramSize k.framePtr heap =
        some (newSegment, changed) ∧
      StackOf changed newSegment (below ++ [k.framePtr]) rest ∧
      (newSegment = block ∧ rest = above ∨ above = newSegment :: rest ∧ changed = heap) ∧
      changed newSegment = some segment ∧ frameSize + paramSize ≤ segment.size ∧
      ∀ address, address ≠ block → address ∉ below ++ k.framePtr :: above →
        changed address = heap address := by
  obtain ⟨newSegment, changed, rest, hnext, hstack, hcases, ⟨segment, hsegment, hsize⟩, hframe⟩ :=
    h.exists_nextSegment hblock hsizes.newSize
  refine ⟨newSegment, changed, rest, segment, ?_, hnext, hstack, hcases, hsegment, hsize, hframe⟩
  have hfits := hstack.fits newSegment (by simp) segment hsegment
  have hlarge : paramSize.toNat ≤ segment.size.toNat := by
    rw [BitVec.le_def, hsizes.sum] at hsize
    omega
  have hcopied := memcpy_eq hsegment hfits hlarge oldStack
  simp only [seffMemAllocateFrame, enterSegment, AllocatedFrame.copyParameters, hnext, hsegment,
    Option.map_some, Option.bind_eq_bind, Option.bind_some, hcopied]

/-- `init_stack_frame` starts a list of one segment. -/
theorem initStackFrame {heap : Heap} {block frameSize : Word}
    (hblock : FreshBlock heap block (frameSize + segmentHeader))
    (hsize : frameSize.toNat + 160 < 2 ^ 64) :
    ∃ changed, initStackFrame block frameSize heap =
        some (block, segmentData block + frameSize, changed) ∧
      StackOf changed block [] [] ∧ changed block = some (freshSegment frameSize) ∧
        ∀ address, address ≠ block → changed address = heap address := by
  refine ⟨Function.update heap block (some (freshSegment frameSize)), ?_, ⟨?_, ?_, ?_, ?_⟩,
    Function.update_self .., fun address hne ↦ Function.update_of_ne hne _ _⟩
  · rw [Stack.initStackFrame, initSegment_eq heap hblock.nonnull hsize]
    simp [segmentData, freshSegment]
  · simp [Heap.links, freshSegment]
  · simp
  · simpa using hblock.nonnull.symm
  · intro address hmem segment hsegment
    obtain rfl : address = block := by simpa using hmem
    rw [Function.update_self, Option.some.injEq] at hsegment
    subst hsegment
    exact fits_of_fresh hblock hsize rfl rfl

/-- The call in `seff_coroutine_init_sized`, which adds 16 bytes of overhead. -/
theorem initFrame {heap : Heap} {block frameSize : Word}
    (hblock : FreshBlock heap block (frameSize + 16 + segmentHeader))
    (hsize : frameSize.toNat + 16 + 160 < 2 ^ 64) :
    ∃ changed, Stack.initStackFrame block (frameSize + 16) heap =
        some (block, segmentData block + (frameSize + 16), changed) ∧
      StackOf changed block [] [] ∧ changed block = some (freshSegment (frameSize + 16)) ∧
        ∀ address, address ≠ block → changed address = heap address := by
  have hoverhead : (frameSize + 16).toNat = frameSize.toNat + 16 :=
    BitVec.toNat_add_of_lt (Nat.lt_of_add_right_lt hsize)
  exact initStackFrame hblock (hoverhead ▸ hsize)

/-- `seff_mem_release_frame` moves back to the segment of the caller. -/
theorem seffMemReleaseFrame {k : SeffCoroutine} {caller : Word}
    (h : StackOf heap k.framePtr (below ++ [caller]) above) :
    seffMemReleaseFrame heap k = some (segmentData caller, { k with framePtr := caller }) ∧
      StackOf heap caller below (k.framePtr :: above) := by
  obtain ⟨current, hcurrent, hprev, -⟩ := h.current
  have hcaller : current.prev = caller := by simpa using hprev
  refine ⟨?_, ?_, ?_, ?_, ?_⟩
  · simp [Stack.seffMemReleaseFrame, hcurrent, hcaller, segmentData]
  · simpa using h.linked
  · simpa using h.nodup
  · simpa using h.nonnull
  · simpa using h.fits

/-- Walking back from the current segment ends at the first one. -/
theorem rewindLoop (h : StackOf heap framePtr below above) {fuel : ℕ}
    (hfuel : below.length < fuel) :
    rewindLoop heap fuel framePtr = some ((below ++ framePtr :: above).headD 0) := by
  induction fuel generalizing framePtr below above with
  | zero => omega
  | succ fuel ih =>
    obtain ⟨current, hcurrent, hprev, -⟩ := h.current
    have hnonnull : framePtr ≠ 0 := fun hzero ↦ h.nonnull (by simp [hzero])
    rw [Stack.rewindLoop, if_neg hnonnull, hcurrent]
    rcases List.eq_nil_or_concat' below with rfl | ⟨front, caller, rfl⟩
    · simp [hprev]
    · have hcaller : current.prev = caller := by simpa using hprev
      have hcallerNonnull : caller ≠ 0 := fun hzero ↦ h.nonnull (by simp [hzero])
      have hrest : StackOf heap caller front (framePtr :: above) :=
        ⟨by simpa using h.linked, by simpa using h.nodup, by simpa using h.nonnull,
          by simpa using h.fits⟩
      simp only [List.length_append, List.length_singleton] at hfuel
      have hloop := ih hrest (by omega)
      simp only [Option.map_some, Option.bind_eq_bind, Option.bind_some, hcaller,
        if_neg hcallerNonnull, hloop, List.append_assoc, List.singleton_append]

end StackOf

/-- The loop that frees a list frees each of its segments once, in order, and nothing else. -/
theorem freeLoop_eq {heap : Heap} {before : Word} {list : List Word} {fuel : ℕ}
    (h : DoublyLinked heap.links before list 0) (hnodup : list.Nodup) (hnonnull : 0 ∉ list)
    (hfuel : list.length < fuel) :
    freeLoop fuel (list.headD 0) heap =
      some (list, fun address ↦ if address ∈ list then none else heap address) := by
  induction fuel generalizing heap before list with
  | zero => omega
  | succ fuel ih =>
    cases list with
    | nil => simp [freeLoop]
    | cons segment rest =>
      obtain ⟨hsegment, hrest⟩ := h
      obtain ⟨header, hheader, -, hnext⟩ := Heap.exists_of_links hsegment
      obtain ⟨hnotMem, hnodupRest⟩ := List.nodup_cons.mp hnodup
      simp only [List.mem_cons, not_or] at hnonnull
      have hfree : heap.free segment = some (Function.update heap segment none) := by
        rw [Heap.free, hheader, Option.map_some]
      have hkept :
          DoublyLinked (Heap.links (Function.update heap segment none)) segment rest 0 := by
        refine hrest.congr fun other hother ↦ ?_
        have hne : other ≠ segment := fun heq ↦ hnotMem (heq ▸ hother)
        rw [Heap.links, Heap.links, Function.update_of_ne hne]
      have hloop := ih hkept hnodupRest hnonnull.2 (by simpa using hfuel)
      simp only [freeLoop, List.headD_cons, if_neg (Ne.symm hnonnull.1), hheader, hfree, hnext,
        Option.map_some, Option.bind_eq_bind, Option.bind_some, hloop]
      congr 2
      funext address
      by_cases heq : address = segment
      · simp [heq]
      · simp [heq]

namespace StackOf

variable {heap : Heap} {below above : List Word}

/-- `seff_coroutine_release` frees every segment of the coroutine once and stops. -/
theorem seffCoroutineRelease {k : SeffCoroutine} (h : StackOf heap k.framePtr below above)
    {fuel : ℕ} (hfuel : (below ++ k.framePtr :: above).length < fuel) :
    seffCoroutineRelease fuel heap k = some (below ++ k.framePtr :: above,
      fun address ↦ if address ∈ below ++ k.framePtr :: above then none else heap address) := by
  have hbelow : below.length < fuel := by
    simp only [List.length_append, List.length_cons] at hfuel
    omega
  rw [Stack.seffCoroutineRelease, h.rewindLoop hbelow]
  exact freeLoop_eq h.linked h.nodup h.nonnull hfuel

end StackOf

end Libseff.Stack
