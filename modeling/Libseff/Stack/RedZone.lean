import Libseff.Stack.SegmentSafety
import Libseff.Stack.SegmentSizes

/-!
# The red zone below the stack limit

The last 128 bytes of a segment header are padding: code at the stack limit may write to the 128
bytes below its stack pointer, and with the limit at the first byte behind the header these are in
the padding. `seff_coroutine_init_sized` and a return install that limit. On growth the limit is
computed from a stack pointer that was rounded down to a multiple of 16, while the size of the frame
was computed before, so the limit is too low by what was rounded off: the size of the segment less
that of the parameters, modulo 16 (`clearsHeader_grown_iff`).

The runs of the memory functions are taken with the limit that each call installs. Where this
remainder is zero at every growth the limits stay behind the headers, and at the first growth where
it is not the limit is inside a header (`redZone_clear`).
-/

set_option autoImplicit false
set_option relaxedAutoImplicit false

namespace Libseff.Stack

open Foundation Coroutine

/-- A stack limit is behind the header of a segment, and the frame that is advertised above it ends
in the data area of the segment, which lies in its block. The 128 bytes below any stack pointer from
the limit on are behind the header's other fields, which take its first 32 bytes. -/
structure ClearsHeader (segment : Word) (header : SeffStackSegment) (limit frame : Word) :
    Prop where
  data : (segmentData segment).toNat ≤ limit.toNat
  frame : limit.toNat + frame.toNat ≤ (segmentData segment).toNat + header.size.toNat
  block : (segmentData segment).toNat + header.size.toNat ≤
    segment.toNat + header.allocated.toNat
  redZone : ∀ rsp : Word, limit.toNat ≤ rsp.toNat → segment.toNat + 32 ≤ rsp.toNat - 128

section ClearsHeader

variable {segment : Word} {header : SeffStackSegment}

theorem clearsHeader_iff (hfits : Fits segment header) {limit frame : Word}
    (hframe : limit.toNat + frame.toNat ≤ (segmentData segment).toNat + header.size.toNat) :
    ClearsHeader segment header limit frame ↔ (segmentData segment).toNat ≤ limit.toNat := by
  have hdata := segmentData_toNat hfits.header
  have hallocated := hfits.allocated
  exact ⟨fun h ↦ h.data, fun h ↦ ⟨h, hframe, by omega, fun rsp hrsp ↦ by omega⟩⟩

theorem clearsHeader_data (hfits : Fits segment header) {frame : Word}
    (hframe : frame.toNat ≤ header.size.toNat) :
    ClearsHeader segment header (segmentData segment) frame :=
  (clearsHeader_iff hfits (Nat.add_le_add_left hframe _)).mpr le_rfl

/-- The limit after a growth. -/
theorem grownLimit_toNat (hfits : Fits segment header) (haligned : segment.toNat % 16 = 0)
    {paramSize : Word} (hlarge : paramSize.toNat ≤ header.size.toNat) :
    (alignLoop 16 (segmentData segment + header.size - paramSize) -
        (header.size - paramSize)).toNat =
      segment.toNat + 160 - (header.size - paramSize).toNat % 16 := by
  have hnewStack := newStack_toNat hfits hlarge
  have hsub : (header.size - paramSize).toNat = header.size.toNat - paramSize.toNat :=
    BitVec.toNat_sub_of_le hlarge
  rw [BitVec.toNat_sub_of_le (by rw [BitVec.le_def]; omega), hnewStack, hsub]
  omega

/-- It is behind the header when nothing was rounded off. -/
theorem clearsHeader_grown_iff (hfits : Fits segment header) (haligned : segment.toNat % 16 = 0)
    {paramSize : Word} (hlarge : paramSize.toNat ≤ header.size.toNat) :
    ClearsHeader segment header
        (alignLoop 16 (segmentData segment + header.size - paramSize) - (header.size - paramSize))
        (header.size - paramSize) ↔
      (header.size - paramSize).toNat % 16 = 0 := by
  have hlimit := grownLimit_toNat hfits haligned hlarge
  have hdata := segmentData_toNat hfits.header
  have hsub : (header.size - paramSize).toNat = header.size.toNat - paramSize.toNat :=
    BitVec.toNat_sub_of_le hlarge
  rw [clearsHeader_iff hfits (by omega), hlimit]
  omega

end ClearsHeader

/-! ### Runs with the limits that are installed -/

/-- The memory of the coroutines, with the stack limit installed last for each of them and the size
of the frame that was advertised above it. -/
structure LimitedStacks where
  memory : Stacks
  limit : Word → Word
  frame : Word → Word

namespace LimitedStacks

/-- What a call installs: the limit in the resume point of a new coroutine, and those that
`__morestack` takes from what the memory functions return, with the size of the frame that was
requested or returned. A return advertises no frame. -/
def installed (minSegmentSize : Word) (s : LimitedStacks) (after : Stacks) :
    StackCall → Option (Word × Word)
  | .init k _ _ frameSize _ => some ((after.coroutines k).resumePoint.stackTop, frameSize)
  | .allocate k frameSize paramSize block oldStack =>
    (seffMemAllocateFrame minSegmentSize block frameSize paramSize oldStack s.memory.heap
      (s.memory.coroutines k)).map fun frame ↦
        (frame.newStack - frame.frameSize, frame.frameSize)
  | .release k => (seffMemReleaseFrame s.memory.heap (s.memory.coroutines k)).map fun result ↦
    (result.1, 0)
  | .delete k _ => some (s.limit k, s.frame k)

/-- One call. -/
def next (coroutinePrelude minSegmentSize : Word) (s : LimitedStacks) (call : StackCall) :
    Option LimitedStacks := do
  let after ← s.memory.next coroutinePrelude minSegmentSize call
  let (limit, frame) ← s.installed minSegmentSize after call
  some
    { memory := after
      limit := Function.update s.limit call.coroutine limit
      frame := Function.update s.frame call.coroutine frame }

/-- The calls a program may make, when `malloc` returns 16-byte aligned blocks. -/
def Permitted (minSegmentSize : Word) (s : LimitedStacks) (call : StackCall) : Prop :=
  s.memory.Permitted minSegmentSize call ∧
    match call with
    | .init _ _ _ _ block | .allocate _ _ _ block _ => block.toNat % 16 = 0
    | _ => True

/-- The calls a program may make, of sizes that do not wrap. -/
def PermittedSized (minSegmentSize : Word) (s : LimitedStacks) (call : StackCall) : Prop :=
  s.Permitted minSegmentSize call ∧ call.Sized minSegmentSize

/-- A growth moves to a segment whose size less that of the parameters is a multiple of 16. -/
def KeepsAlignment (minSegmentSize : Word) (s : LimitedStacks) : StackCall → Prop
  | .allocate k frameSize paramSize _ _ => ∃ size,
    movedSize minSegmentSize frameSize paramSize (s.memory.coroutines k).framePtr s.memory.heap =
      some size ∧ (size - paramSize).toNat % 16 = 0
  | _ => True

/-- The runs of the memory functions. -/
def system (coroutinePrelude minSegmentSize : Word) : TransitionSystem LimitedStacks StackCall :=
  TransitionSystem.ofNext (fun s ↦ s.memory.Start) (next coroutinePrelude minSegmentSize)

/-- The limit of a coroutine clears the header of its current segment, with the frame above it in
the data area. -/
def Clear (s : LimitedStacks) (k : Word) : Prop :=
  ∃ header, s.memory.heap (s.memory.coroutines k).framePtr = some header ∧
    ClearsHeader (s.memory.coroutines k).framePtr header (s.limit k) (s.frame k)

/-- The heap is divided, and every segment was an aligned block. -/
structure Aligned (s : LimitedStacks) : Prop where
  divided : s.memory.Divided
  blocks : ∀ k, ∀ segment ∈ s.memory.created k, segment.toNat % 16 = 0

variable {coroutinePrelude minSegmentSize : Word} {s after : LimitedStacks}

theorem PermittedSized.memory {call : StackCall} (h : s.PermittedSized minSegmentSize call) :
    s.memory.PermittedSized minSegmentSize call :=
  ⟨h.1.1, h.2⟩

theorem next_eq_some {call : StackCall}
    (hnext : s.next coroutinePrelude minSegmentSize call = some after) :
    s.memory.next coroutinePrelude minSegmentSize call = some after.memory ∧
      ∃ limit frame, s.installed minSegmentSize after.memory call = some (limit, frame) ∧
        after.limit = Function.update s.limit call.coroutine limit ∧
        after.frame = Function.update s.frame call.coroutine frame := by
  obtain ⟨memory, hmemory, hnext⟩ := Option.bind_eq_some_iff.mp hnext
  obtain ⟨⟨limit, frame⟩, hinstalled, hafter⟩ := Option.bind_eq_some_iff.mp hnext
  obtain rfl := Option.some.inj hafter
  exact ⟨hmemory, limit, frame, hinstalled, rfl, rfl⟩

/-- The limit and the frame of a coroutine after a call for it. -/
theorem eq_of_installed {call : StackCall} {limit frame : Word}
    (hnext : s.next coroutinePrelude minSegmentSize call = some after)
    (hinstalled : s.installed minSegmentSize after.memory call = some (limit, frame)) :
    after.limit call.coroutine = limit ∧ after.frame call.coroutine = frame := by
  obtain ⟨-, other, size, hother, hlimit, hframe⟩ := next_eq_some hnext
  obtain ⟨rfl, rfl⟩ := Prod.mk.inj (Option.some.inj (hinstalled.symm.trans hother))
  rw [hlimit, hframe]
  exact ⟨Function.update_self .., Function.update_self ..⟩

/-- The segments of a coroutine after a call were its own before, or the block of the call. -/
theorem mem_created_next {call : StackCall} {k segment : Word}
    (hnext : s.next coroutinePrelude minSegmentSize call = some after)
    (hsegment : segment ∈ after.memory.created k) :
    segment ∈ s.memory.created k ∨
      match call with
      | .init _ _ _ _ block | .allocate _ _ _ block _ => segment = block
      | _ => False := by
  obtain ⟨hmemory, -⟩ := next_eq_some hnext
  by_cases hk : k = call.coroutine
  · cases call with
    | init k' fn arg frameSize block =>
      obtain ⟨⟨stack, rsp, heap⟩, hinit, hafter⟩ := Option.bind_eq_some_iff.mp hmemory
      obtain rfl := hk
      rw [← Option.some.inj hafter] at hsegment
      obtain ⟨⟨first, middle⟩, hfirst, hrest⟩ := Option.bind_eq_some_iff.mp hinit
      obtain ⟨_, -, hlast⟩ := Option.bind_eq_some_iff.mp hrest
      obtain ⟨rfl, -⟩ := Prod.mk.inj (Option.some.inj hlast)
      rw [(sizes_initSegment hfirst).1] at hsegment
      exact .inr (by simpa [StackCall.coroutine] using hsegment)
    | allocate k' frameSize paramSize block oldStack =>
      obtain ⟨frame, -, hafter⟩ := Option.bind_eq_some_iff.mp hmemory
      obtain rfl := hk
      rw [← Option.some.inj hafter] at hsegment
      simp only [Function.update_self] at hsegment
      split_ifs at hsegment
      · exact (List.mem_cons.mp hsegment).symm
      · exact .inl hsegment
    | release k' =>
      obtain ⟨_, -, hafter⟩ := Option.bind_eq_some_iff.mp hmemory
      rw [← Option.some.inj hafter] at hsegment
      exact .inl hsegment
    | delete k' fuel =>
      obtain ⟨_, -, hafter⟩ := Option.bind_eq_some_iff.mp hmemory
      obtain rfl := hk
      rw [← Option.some.inj hafter] at hsegment
      simp at hsegment
  · rw [(Stacks.next_of_ne hmemory hk).2.1] at hsegment
    exact .inl hsegment

theorem Aligned.next (h : s.Aligned) {call : StackCall}
    (hallowed : s.PermittedSized minSegmentSize call)
    (hnext : s.next coroutinePrelude minSegmentSize call = some after) : after.Aligned := by
  refine ⟨h.divided.next hallowed.memory (next_eq_some hnext).1, fun k segment hsegment ↦ ?_⟩
  rcases mem_created_next hnext hsegment with hold | hblock
  · exact h.blocks k segment hold
  · obtain ⟨⟨-, hblocks⟩, -⟩ := hallowed
    cases call with
    | init => exact hblock ▸ hblocks
    | allocate => exact hblock ▸ hblocks
    | release => exact hblock.elim
    | delete => exact hblock.elim

/-- The segment and the limit after a growth. -/
theorem Aligned.exists_grown (h : s.Aligned) {k frameSize paramSize block : Word}
    {oldStack : ℕ → BitVec 8}
    (hallowed : s.PermittedSized minSegmentSize (.allocate k frameSize paramSize block oldStack))
    (hnext : s.next coroutinePrelude minSegmentSize
      (.allocate k frameSize paramSize block oldStack) = some after) :
    ∃ segment header, (after.memory.coroutines k).framePtr = segment ∧
      after.memory.heap segment = some header ∧ Fits segment header ∧ segment.toNat % 16 = 0 ∧
      paramSize.toNat ≤ header.size.toNat ∧
      movedSize minSegmentSize frameSize paramSize (s.memory.coroutines k).framePtr
        s.memory.heap = some header.size ∧
      after.limit k = alignLoop 16 (segmentData segment + header.size - paramSize) -
        (header.size - paramSize) ∧ after.frame k = header.size - paramSize := by
  have hafter := h.next hallowed hnext
  obtain ⟨⟨hused, hblock⟩, hsizes⟩ := hallowed.memory
  obtain ⟨above, hstack, hperm⟩ := h.divided.stack k hused
  obtain ⟨newSegment, changed, rest, header, hcall, hmoved, hnew, -, hsegment, hsize, -⟩ :=
    hstack.exists_allocateFrame hblock hsizes oldStack
  have hmemory := (next_eq_some hnext).1
  simp only [Stacks.next, hcall, Option.bind_eq_bind, Option.bind_some, Option.some.injEq]
    at hmemory
  have hframePtr : (after.memory.coroutines k).framePtr = newSegment := by
    rw [← hmemory]
    simp
  have hcreated : newSegment ∈ after.memory.created k := by
    rw [← hframePtr]
    refine hafter.divided.framePtr_mem ?_
    rw [← hmemory]
    simp only [Function.update_self]
    split_ifs
    · exact List.cons_ne_nil _ _
    · exact hused
  have hinstalled : s.installed minSegmentSize after.memory
      (.allocate k frameSize paramSize block oldStack) = some
        (alignLoop 16 (segmentData newSegment + header.size - paramSize) -
          (header.size - paramSize), header.size - paramSize) := by
    rw [installed, hcall, Option.map_some]
  obtain ⟨hlimit, hframe⟩ := eq_of_installed hnext hinstalled
  refine ⟨newSegment, header, hframePtr, by rw [← hmemory]; exact hsegment,
    hnew.fits newSegment (by simp) header hsegment, hafter.blocks k _ hcreated, ?_, ?_, hlimit,
    hframe⟩
  · rw [BitVec.le_def, hsizes.sum] at hsize
    omega
  · rw [← sizes_nextSegment hmoved, Heap.sizes, hsegment, Option.map_some]

/-- A growth clears the header exactly where it keeps the alignment, and elsewhere the limit is in
the header. -/
theorem Aligned.clear_allocate (h : s.Aligned) {k frameSize paramSize block : Word}
    {oldStack : ℕ → BitVec 8}
    (hallowed : s.PermittedSized minSegmentSize (.allocate k frameSize paramSize block oldStack))
    (hnext : s.next coroutinePrelude minSegmentSize
      (.allocate k frameSize paramSize block oldStack) = some after) :
    (s.KeepsAlignment minSegmentSize (.allocate k frameSize paramSize block oldStack) →
      after.Clear k) ∧
    (¬ s.KeepsAlignment minSegmentSize (.allocate k frameSize paramSize block oldStack) →
      (after.limit k).toNat < (segmentData (after.memory.coroutines k).framePtr).toNat) := by
  obtain ⟨segment, header, hframePtr, hheader, hfits, haligned, hlarge, hmoved, hlimit, hframe⟩ :=
    h.exists_grown hallowed hnext
  rw [Clear, hframePtr, hlimit, hframe]
  constructor
  · rintro ⟨size, hsize, hmod⟩
    obtain rfl := Option.some.inj (hmoved.symm.trans hsize)
    exact ⟨header, hheader, (clearsHeader_grown_iff hfits haligned hlarge).mpr hmod⟩
  · intro hkeeps
    have hmod : (header.size - paramSize).toNat % 16 ≠ 0 := fun hmod ↦
      hkeeps ⟨header.size, hmoved, hmod⟩
    have hsegment := segmentData_toNat hfits.header
    rw [grownLimit_toNat hfits haligned hlarge, hsegment]
    omega

/-- The limit of a new coroutine is the first byte behind the header of its segment. -/
theorem clear_init {k fn arg frameSize block : Word}
    (hallowed : s.PermittedSized minSegmentSize (.init k fn arg frameSize block))
    (hnext : s.next coroutinePrelude minSegmentSize (.init k fn arg frameSize block) = some after) :
    after.Clear k := by
  obtain ⟨changed, hinit, hstack, hblock, -⟩ := StackOf.initFrame hallowed.1.1 hallowed.2
  have hmemory := (next_eq_some hnext).1
  simp only [Stacks.next, hinit, Option.bind_eq_bind, Option.bind_some, Option.some.injEq]
    at hmemory
  have hinstalled : s.installed minSegmentSize after.memory (.init k fn arg frameSize block) =
      some (segmentData block, frameSize) := by
    rw [installed, ← hmemory]
    simp only [Function.update_self, seffCoroutineInitSized, Option.some.injEq, Prod.mk.injEq,
      and_true]
    bv_omega
  obtain ⟨hlimit, hframe⟩ := eq_of_installed hnext hinstalled
  have hframePtr : (after.memory.coroutines k).framePtr = block := by
    rw [← hmemory]
    simp [seffCoroutineInitSized]
  refine ⟨freshSegment (frameSize + 16), by rw [hframePtr, ← hmemory]; exact hblock, ?_⟩
  rw [hframePtr, show after.limit k = _ from hlimit, show after.frame k = _ from hframe]
  have hsize := hallowed.2
  rw [StackCall.Sized] at hsize
  refine clearsHeader_data (hstack.fits block (by simp) _ hblock) ?_
  rw [freshSegment, BitVec.toNat_add_of_lt (Nat.lt_of_add_right_lt hsize)]
  omega

/-- So is the limit after a return. -/
theorem Aligned.clear_release (h : s.Aligned) {k : Word}
    (hallowed : s.Permitted minSegmentSize (.release k))
    (hnext : s.next coroutinePrelude minSegmentSize (.release k) = some after) :
    after.Clear k := by
  obtain ⟨hused, hcalls⟩ := hallowed.1
  obtain ⟨above, hstack, hperm⟩ := h.divided.stack k hused
  obtain hnil | ⟨front, caller, hcallers⟩ := List.eq_nil_or_concat' (s.memory.callers k)
  · exact absurd hnil hcalls
  · obtain ⟨hcall, hnew⟩ := (hcallers ▸ hstack).seffMemReleaseFrame
    have hmemory := (next_eq_some hnext).1
    simp only [Stacks.next, hcall, Option.bind_eq_bind, Option.bind_some, Option.some.injEq]
      at hmemory
    have hinstalled : s.installed minSegmentSize after.memory (.release k) =
        some (segmentData caller, 0) := by
      rw [installed, hcall, Option.map_some]
    obtain ⟨hlimit, hframe⟩ := eq_of_installed hnext hinstalled
    have hframePtr : (after.memory.coroutines k).framePtr = caller := by
      rw [← hmemory]
      simp
    obtain ⟨header, hheader, -, -⟩ := hnew.current
    refine ⟨header, by rw [hframePtr, ← hmemory]; exact hheader, ?_⟩
    rw [hframePtr, show after.limit k = _ from hlimit, show after.frame k = _ from hframe]
    exact clearsHeader_data (hnew.fits caller (by simp) header hheader) (Nat.zero_le _)

/-- The limits of all coroutines clear the headers, and the blocks are aligned. -/
def AllClear (s : LimitedStacks) : Prop :=
  s.Aligned ∧ ∀ k, s.memory.created k ≠ [] → s.Clear k

theorem AllClear.next (h : s.AllClear) {call : StackCall}
    (hallowed : s.PermittedSized minSegmentSize call)
    (hkeeps : s.KeepsAlignment minSegmentSize call)
    (hnext : s.next coroutinePrelude minSegmentSize call = some after) : after.AllClear := by
  refine ⟨h.1.next hallowed hnext, fun k hused ↦ ?_⟩
  by_cases hk : k = call.coroutine
  · obtain rfl := hk
    cases call with
    | init k fn arg frameSize block => exact clear_init hallowed hnext
    | allocate k frameSize paramSize block oldStack =>
      exact (h.1.clear_allocate hallowed hnext).1 hkeeps
    | release k => exact h.1.clear_release hallowed.1 hnext
    | delete k fuel =>
      obtain ⟨_, -, hafter⟩ := Option.bind_eq_some_iff.mp (next_eq_some hnext).1
      rw [← Option.some.inj hafter] at hused
      exact absurd (Function.update_self ..) hused
  · obtain ⟨hmemory, limit, frame, -, hlimit, hframe⟩ := next_eq_some hnext
    obtain ⟨hcoroutine, hcreated, -⟩ := Stacks.next_of_ne hmemory hk
    rw [hcreated] at hused
    have hkept := h.1.divided.heap_next hallowed.memory hmemory hk
      (h.1.divided.framePtr_mem hused)
    have hold := h.2 k hused
    rw [Clear, hcoroutine, hlimit, hframe, Function.update_of_ne hk, Function.update_of_ne hk,
      hkept]
    exact hold

theorem aligned_of_run {calls : List StackCall}
    (hrun : (system coroutinePrelude minSegmentSize).Run (PermittedSized minSegmentSize) calls s) :
    s.Aligned :=
  hrun.invariant (fun _ hstart ↦ ⟨hstart.divided, fun k segment hsegment ↦ by
      rw [hstart k] at hsegment
      exact absurd hsegment List.not_mem_nil⟩)
    fun _ _ _ h hallowed hnext ↦ h.next hallowed hnext

/-- **The red zone.** In every run of calls of sizes that do not wrap in which each growth keeps the
alignment, the stack limit of every coroutine in use is behind the header of its current segment,
the frame above it in the data area, and the red zone below it in the padding. A growth that does
not keep the alignment puts the limit inside the header.

Assumes: `malloc` returns 16-byte aligned blocks in the address space. -/
theorem redZone_clear (coroutinePrelude minSegmentSize : Word) :
    (∀ calls s, (system coroutinePrelude minSegmentSize).Run
        (fun s call ↦ s.PermittedSized minSegmentSize call ∧ s.KeepsAlignment minSegmentSize call)
        calls s →
      ∀ k, s.memory.created k ≠ [] → s.Clear k) ∧
    ∀ calls s call after,
      (system coroutinePrelude minSegmentSize).Run (PermittedSized minSegmentSize) calls s →
      s.PermittedSized minSegmentSize call → ¬ s.KeepsAlignment minSegmentSize call →
      s.next coroutinePrelude minSegmentSize call = some after →
      (after.limit call.coroutine).toNat <
        (segmentData (after.memory.coroutines call.coroutine).framePtr).toNat := by
  constructor
  · intro calls s hrun
    have h : s.AllClear := hrun.invariant (fun _ hstart ↦
        ⟨aligned_of_run (.start hstart), fun k hused ↦ absurd (hstart k) hused⟩)
      fun _ _ _ h hallowed hnext ↦ h.next hallowed.1 hallowed.2 hnext
    exact h.2
  · intro calls s call after hrun hallowed hkeeps hnext
    cases call with
    | allocate k frameSize paramSize block oldStack =>
      exact ((aligned_of_run hrun).clear_allocate hallowed hnext).2 hkeeps
    | init => exact absurd trivial hkeeps
    | release => exact absurd trivial hkeeps
    | delete => exact absurd trivial hkeeps

/-- A memory in which nothing was allocated. -/
def idle : LimitedStacks where
  memory := Stacks.idle
  limit _ := 0
  frame _ := 0

/-- A coroutine is initialised in an aligned block. -/
theorem permitted_init : idle.PermittedSized 0 (.init 1 2 3 64 4096) :=
  ⟨⟨Stacks.permitted_init.1, by decide⟩, Stacks.permitted_init.2⟩

/-- The state after that. -/
def started : LimitedStacks := (idle.next 0x401000 0 (.init 1 2 3 64 4096)).getD idle

theorem permitted_allocate {frameSize paramSize : Word} {oldStack : ℕ → BitVec 8}
    (hsizes : SizesFit 0 frameSize paramSize)
    (hbounded : (newSize 0 frameSize paramSize + segmentHeader).toNat < 4096) :
    started.PermittedSized 0 (.allocate 1 frameSize paramSize 8192 oldStack) := by
  have hblock : (8192 : Word).toNat = 8192 := rfl
  refine ⟨⟨⟨by decide, by decide, rfl, ?_⟩, ?_⟩, hsizes⟩
  · omega
  · exact (rfl : (8192 : Word).toNat % 16 = 0)

theorem redZone_clear_growing : ∃ s, s.Clear 1 ∧
    started.next 0x401000 0 (.allocate 1 256 16 8192 fun _ ↦ 7) = some s := by
  have hstart : (system 0x401000 0).Run
      (fun s call ↦ s.PermittedSized 0 call ∧ s.KeepsAlignment 0 call) [] idle :=
    .start fun _ ↦ rfl
  have hinit := hstart.step ⟨permitted_init, trivial⟩
    (show (system 0x401000 0).step idle _ started from rfl)
  obtain ⟨s, hnext⟩ : ∃ s,
      started.next 0x401000 0 (.allocate 1 256 16 8192 fun _ ↦ 7) = some s := ⟨_, rfl⟩
  have hgrow := hinit.step
    ⟨permitted_allocate (by decide) (by decide), 272, rfl, by decide⟩ hnext
  have hused : s.memory.created 1 ≠ [] := by
    rw [← Option.some.inj ((show some _ = _ from rfl).trans hnext)]
    decide
  exact ⟨s, (redZone_clear 0x401000 0).1 _ _ hgrow 1 hused, hnext⟩

/-- A call that needs 24 bytes gets its limit 8 bytes below the end of the header. -/
theorem not_redZone_clear : ∃ s, (system 0x401000 0).Run (PermittedSized 0)
    [.init 1 2 3 64 4096, .allocate 1 24 0 8192 fun _ ↦ 0] s ∧
      (s.memory.coroutines 1).framePtr = 8192 ∧ s.limit 1 = segmentData 8192 - 8 ∧
      ¬ s.Clear 1 := by
  have hstart : (system 0x401000 0).Run (PermittedSized 0) [] idle := .start fun _ ↦ rfl
  have hinit := hstart.step permitted_init
    (show (system 0x401000 0).step idle _ started from rfl)
  obtain ⟨s, hnext⟩ : ∃ s,
      started.next 0x401000 0 (.allocate 1 24 0 8192 fun _ ↦ 0) = some s := ⟨_, rfl⟩
  have hgrow := hinit.step (permitted_allocate (by decide) (by decide)) hnext
  obtain rfl := Option.some.inj ((show some _ = _ from rfl).trans hnext)
  refine ⟨_, hgrow, by decide, by decide, ?_⟩
  rintro ⟨header, -, hclear⟩
  exact absurd hclear.data (by decide)

end LimitedStacks

end Libseff.Stack
