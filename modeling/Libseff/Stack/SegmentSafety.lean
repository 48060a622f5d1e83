import Libseff.Stack.SegmentLists

/-!
# The segments of all coroutines over a run

Coroutines are initialised, their stacks grow and shrink, and they are released, in any order and
any number of times. Two histories are kept beside the memory: the segments created for a coroutine
since it was initialised, and the segments on which its calls in progress entered `__morestack`,
outermost first, so that their number is its call depth.

While the size that `malloc` is asked for does not wrap (`StackCall.Sized`), every state of such a
run is `Segmented`: the coroutines share no segment, and the list of each one holds all segments
created for it, those of its callers in front of the current one. A block for which the size has
wrapped may be no larger than the parameters that are copied into it, over its links
(`not_segmentList`).
-/

set_option autoImplicit false
set_option relaxedAutoImplicit false

namespace Libseff.Stack

open Foundation Coroutine

/-- The heap is divided into the segment lists of the coroutines that are in use. -/
structure Segmented (heap : Heap) (framePtr : Word → Word) (created callers : Word → List Word) :
    Prop where
  separated : Separated created
  stack : ∀ k, created k ≠ [] → ∃ above, StackOf heap (framePtr k) (callers k) above ∧
    (callers k ++ framePtr k :: above).Perm (created k)

namespace Segmented

variable {heap changed : Heap} {framePtr : Word → Word} {created callers : Word → List Word}

/-- What `malloc` returns belongs to no coroutine. -/
theorem not_mem_created (h : Segmented heap framePtr created callers) {block : Word}
    (hfresh : heap block = none) (k : Word) : block ∉ created k := by
  intro hmem
  obtain ⟨above, hstack, hperm⟩ := h.stack k (List.ne_nil_of_mem hmem)
  exact hstack.not_mem_of_fresh hfresh (hperm.mem_iff.mpr hmem)

/-- The current segment of a coroutine was created for it. -/
theorem framePtr_mem (h : Segmented heap framePtr created callers) {k : Word}
    (hused : created k ≠ []) : framePtr k ∈ created k := by
  obtain ⟨above, -, hperm⟩ := h.stack k hused
  exact hperm.mem_iff.mp (by simp)

/-- The stack of a coroutine survives what happens to the segments of another. -/
theorem stack_of_ne (h : Segmented heap framePtr created callers) {k other : Word}
    (hne : other ≠ k) (hchanged : ∀ segment, segment ∉ created k → (heap segment).isSome →
      changed segment = heap segment) (hother : created other ≠ []) :
    ∃ above, StackOf changed (framePtr other) (callers other) above ∧
      (callers other ++ framePtr other :: above).Perm (created other) := by
  obtain ⟨above, hstack, hperm⟩ := h.stack other hother
  refine ⟨above, hstack.congr fun segment hmem ↦ hchanged segment ?_ (hstack.isSome_of_mem hmem),
    hperm⟩
  exact fun hk ↦ hne (h.separated.unique _ _ (hperm.mem_iff.mp hmem) hk)

/-- One coroutine gets a new list of segments: those it had, fresh ones, or none. -/
theorem replace (h : Segmented heap framePtr created callers) {k current : Word}
    {segments calling : List Word} (hnodup : segments.Nodup)
    (hfresh : ∀ segment ∈ segments, segment ∈ created k ∨ heap segment = none)
    (hchanged : ∀ segment, segment ∉ created k → (heap segment).isSome →
      changed segment = heap segment)
    (hstack : segments ≠ [] → ∃ above, StackOf changed current calling above ∧
      (calling ++ current :: above).Perm segments) :
    Segmented changed (Function.update framePtr k current) (Function.update created k segments)
      (Function.update callers k calling) := by
  refine ⟨h.separated.replace hnodup fun other hother segment hmem hin ↦ ?_, fun other hother ↦ ?_⟩
  · rcases hfresh segment hmem with hold | hnone
    · exact hother (h.separated.unique _ _ hin hold)
    · exact h.not_mem_created hnone other hin
  · by_cases hne : other = k
    · subst hne
      simp only [Function.update_self] at hother ⊢
      exact hstack hother
    · simp only [Function.update_of_ne hne] at hother ⊢
      exact h.stack_of_ne hne hchanged hother

/-- A new list of one fresh segment. -/
theorem init (h : Segmented heap framePtr created callers) (k : Word) {block : Word}
    (hfresh : heap block = none) (hstack : StackOf changed block [] [])
    (hchanged : ∀ address, address ≠ block → changed address = heap address) :
    Segmented changed (Function.update framePtr k block) (Function.update created k [block])
      (Function.update callers k []) := by
  refine h.replace (List.nodup_singleton block) ?_ (fun segment _ hsome ↦ ?_) fun _ ↦
    ⟨[], hstack, List.Perm.refl _⟩
  · intro segment hmem
    exact .inr (List.mem_singleton.mp hmem ▸ hfresh)
  · refine hchanged segment ?_
    rintro rfl
    simp [hfresh] at hsome

/-- The stack of a coroutine grows by a call. -/
theorem allocate (h : Segmented heap framePtr created callers) {k block newSegment : Word}
    {above rest : List Word} (hblock : block ≠ 0) (hfresh : heap block = none)
    (hold : StackOf heap (framePtr k) (callers k) above)
    (hperm : (callers k ++ framePtr k :: above).Perm (created k))
    (hnew : StackOf changed newSegment (callers k ++ [framePtr k]) rest)
    (hcases : newSegment = block ∧ rest = above ∨ above = newSegment :: rest ∧ changed = heap)
    (hchanged : ∀ address, address ≠ block → address ∉ callers k ++ framePtr k :: above →
      changed address = heap address) :
    Segmented changed (Function.update framePtr k newSegment)
      (Function.update created k
        (if (changed block).isSome then block :: created k else created k))
      (Function.update callers k (callers k ++ [framePtr k])) := by
  have hkept : ∀ segment, segment ∉ created k → (heap segment).isSome →
      changed segment = heap segment := by
    intro segment hnot hsome
    refine hchanged segment ?_ fun hmem ↦ hnot (hperm.mem_iff.mp hmem)
    rintro rfl
    simp [hfresh] at hsome
  rcases hcases with ⟨rfl, rfl⟩ | ⟨rfl, rfl⟩
  · rw [if_pos (hnew.isSome_of_mem (by simp))]
    have hnotMem := h.not_mem_created hfresh k
    refine h.replace (List.nodup_cons.mpr ⟨hnotMem, h.separated.nodup k⟩) ?_ hkept fun _ ↦
      ⟨rest, hnew, ?_⟩
    · intro segment hmem
      rcases List.mem_cons.mp hmem with rfl | hold
      · exact .inr hfresh
      · exact .inl hold
    · have hmiddle := @List.perm_middle _ newSegment (callers k ++ [framePtr k]) rest
      refine hmiddle.trans (List.Perm.cons _ ?_)
      simpa using hperm
  · rw [if_neg (by simp [hfresh])]
    refine h.replace (h.separated.nodup k) (fun segment hmem ↦ .inl hmem) hkept fun _ ↦
      ⟨rest, hnew, ?_⟩
    simpa using hperm

/-- The stack of a coroutine shrinks by a call. -/
theorem release (h : Segmented heap framePtr created callers) {k caller : Word}
    {front above : List Word} (hcallers : callers k = front ++ [caller])
    (hperm : (callers k ++ framePtr k :: above).Perm (created k))
    (hnew : StackOf heap caller front (framePtr k :: above)) :
    Segmented heap (Function.update framePtr k caller) created
      (Function.update callers k front) := by
  have hcreated := Function.update_eq_self k created
  rw [← hcreated]
  refine h.replace (h.separated.nodup k) (fun segment hmem ↦ .inl hmem) (fun _ _ _ ↦ rfl) fun _ ↦
    ⟨framePtr k :: above, hnew, ?_⟩
  simpa [hcallers] using hperm

/-- The segments of a coroutine are freed. -/
theorem free (h : Segmented heap framePtr created callers) (k : Word)
    (hchanged : ∀ segment, segment ∉ created k → changed segment = heap segment) :
    Segmented changed framePtr (Function.update created k []) (Function.update callers k []) := by
  have hframePtr := Function.update_eq_self k framePtr
  rw [← hframePtr]
  exact h.replace List.nodup_nil (by simp) (fun segment hnot _ ↦ hchanged segment hnot)
    fun hne ↦ absurd rfl hne

end Segmented

/-- The memory of the coroutines, with the segments created for each one and the segments its calls
in progress left. -/
structure Stacks where
  heap : Heap
  coroutines : Word → SeffCoroutine
  created : Word → List Word
  callers : Word → List Word

/-- A call of one of the memory functions, with the address that `malloc` returns in it and the
parameters that are copied. -/
inductive StackCall
  | init (k fn arg frameSize block : Word)
  | allocate (k frameSize paramSize block : Word) (oldStack : ℕ → BitVec 8)
  | release (k : Word)
  | delete (k : Word) (fuel : ℕ)

/-- The coroutine on whose behalf a function is called. -/
def StackCall.coroutine : StackCall → Word
  | .init k .. => k
  | .allocate k .. => k
  | .release k => k
  | .delete k _ => k

/-- The sum of the sizes of a frame and its parameters does not wrap. -/
def StackCall.Summed : StackCall → Prop
  | .allocate _ frameSize paramSize _ _ => frameSize.toNat + paramSize.toNat < 2 ^ 64
  | _ => True

/-- No size that is computed wraps, up to the one that `malloc` is asked for. -/
def StackCall.Sized (minSegmentSize : Word) : StackCall → Prop
  | .init _ _ _ frameSize _ => frameSize.toNat + 16 + 160 < 2 ^ 64
  | .allocate _ frameSize paramSize _ _ => SizesFit minSegmentSize frameSize paramSize
  | _ => True

instance : DecidablePred StackCall.Summed
  | .allocate .. => inferInstanceAs (Decidable (_ < _))
  | .init .. | .release _ | .delete .. => inferInstanceAs (Decidable True)

instance (minSegmentSize : Word) : DecidablePred (StackCall.Sized minSegmentSize)
  | .init .. => inferInstanceAs (Decidable (_ < _))
  | .allocate .. => inferInstanceAs (Decidable (SizesFit ..))
  | .release _ | .delete .. => inferInstanceAs (Decidable True)

namespace Stacks

/-- One call. `init_stack_frame` is the one of `seff_coroutine_init_sized`, with its overhead. -/
def next (coroutinePrelude minSegmentSize : Word) (s : Stacks) : StackCall → Option Stacks
  | .init k fn arg frameSize block => do
    let (stack, rsp, heap) ← initStackFrame block (frameSize + 16) s.heap
    some
      { heap := heap
        coroutines := Function.update s.coroutines k
          (seffCoroutineInitSized coroutinePrelude k fn arg frameSize stack rsp (s.coroutines k))
        created := Function.update s.created k [stack]
        callers := Function.update s.callers k [] }
  | .allocate k frameSize paramSize block oldStack => do
    let after ← seffMemAllocateFrame minSegmentSize block frameSize paramSize oldStack s.heap
      (s.coroutines k)
    some
      { heap := after.heap
        coroutines := Function.update s.coroutines k after.current
        created := Function.update s.created k
          (if (after.heap block).isSome then block :: s.created k else s.created k)
        callers := Function.update s.callers k (s.callers k ++ [(s.coroutines k).framePtr]) }
  | .release k => do
    let (_, current) ← seffMemReleaseFrame s.heap (s.coroutines k)
    some
      { s with
        coroutines := Function.update s.coroutines k current
        callers := Function.update s.callers k (s.callers k).dropLast }
  | .delete k fuel => do
    let (_, heap) ← seffCoroutineRelease fuel s.heap (s.coroutines k)
    some
      { s with
        heap := heap
        created := Function.update s.created k []
        callers := Function.update s.callers k [] }

/-- The calls a program may make: `malloc` returns fresh memory, only a coroutine in use grows,
shrinks and is released, and its stack shrinks no further than it grew. The loops of
`seff_coroutine_release` have the fuel to run to their end. -/
def Permitted (minSegmentSize : Word) (s : Stacks) : StackCall → Prop
  | .init _ _ _ frameSize block => FreshBlock s.heap block (frameSize + 16 + segmentHeader)
  | .allocate k frameSize paramSize block _ => s.created k ≠ [] ∧
    FreshBlock s.heap block (newSize minSegmentSize frameSize paramSize + segmentHeader)
  | .release k => s.created k ≠ [] ∧ s.callers k ≠ []
  | .delete k fuel => s.created k ≠ [] ∧ (s.created k).length < fuel

/-- The calls a program may make, of sizes that do not wrap. -/
def PermittedSized (minSegmentSize : Word) (s : Stacks) (call : StackCall) : Prop :=
  s.Permitted minSegmentSize call ∧ call.Sized minSegmentSize

/-- No coroutine is in use yet. -/
def Start (s : Stacks) : Prop := ∀ k, s.created k = []

/-- The runs of the memory functions. -/
def system (coroutinePrelude minSegmentSize : Word) : TransitionSystem Stacks StackCall :=
  TransitionSystem.ofNext Start (next coroutinePrelude minSegmentSize)

/-- The heap of the state is divided into the lists of its coroutines. -/
def Divided (s : Stacks) : Prop :=
  Segmented s.heap (fun k ↦ (s.coroutines k).framePtr) s.created s.callers

variable {coroutinePrelude minSegmentSize : Word} {s after : Stacks}

theorem framePtr_update (coroutines : Word → SeffCoroutine) (k : Word) (current : SeffCoroutine) :
    (fun other ↦ (Function.update coroutines k current other).framePtr) =
      Function.update (fun other ↦ (coroutines other).framePtr) k current.framePtr := by
  funext other
  exact Function.apply_update (fun _ coroutine ↦ coroutine.framePtr) coroutines k current other

/-- A call leaves the other coroutines, and what was recorded of them. -/
theorem next_of_ne {call : StackCall}
    (hnext : s.next coroutinePrelude minSegmentSize call = some after) {other : Word}
    (hother : other ≠ call.coroutine) :
    after.coroutines other = s.coroutines other ∧ after.created other = s.created other ∧
      after.callers other = s.callers other := by
  cases call with
  | init k fn arg frameSize block =>
    obtain ⟨_, -, hafter⟩ := Option.bind_eq_some_iff.mp hnext
    obtain rfl := Option.some.inj hafter
    exact ⟨Function.update_of_ne hother _ _, Function.update_of_ne hother _ _,
      Function.update_of_ne hother _ _⟩
  | allocate k frameSize paramSize block oldStack =>
    obtain ⟨_, -, hafter⟩ := Option.bind_eq_some_iff.mp hnext
    obtain rfl := Option.some.inj hafter
    exact ⟨Function.update_of_ne hother _ _, Function.update_of_ne hother _ _,
      Function.update_of_ne hother _ _⟩
  | release k =>
    obtain ⟨_, -, hafter⟩ := Option.bind_eq_some_iff.mp hnext
    obtain rfl := Option.some.inj hafter
    exact ⟨Function.update_of_ne hother _ _, rfl, Function.update_of_ne hother _ _⟩
  | delete k fuel =>
    obtain ⟨_, -, hafter⟩ := Option.bind_eq_some_iff.mp hnext
    obtain rfl := Option.some.inj hafter
    exact ⟨rfl, Function.update_of_ne hother _ _, Function.update_of_ne hother _ _⟩

theorem Divided.init (h : s.Divided) {k fn arg frameSize block : Word}
    (hallowed : s.PermittedSized minSegmentSize (.init k fn arg frameSize block))
    (hnext : s.next coroutinePrelude minSegmentSize (.init k fn arg frameSize block) =
      some after) : after.Divided := by
  obtain ⟨changed, hinit, hstack, -, hchanged⟩ := StackOf.initFrame hallowed.1 hallowed.2
  simp only [next, hinit, Option.bind_eq_bind, Option.bind_some, Option.some.injEq] at hnext
  subst hnext
  have hresult := Segmented.init h k hallowed.1.fresh hstack hchanged
  unfold Divided
  rw [framePtr_update]
  exact hresult

theorem Divided.allocate (h : s.Divided) {k frameSize paramSize block : Word}
    {oldStack : ℕ → BitVec 8}
    (hallowed : s.PermittedSized minSegmentSize (.allocate k frameSize paramSize block oldStack))
    (hnext : s.next coroutinePrelude minSegmentSize
      (.allocate k frameSize paramSize block oldStack) = some after) : after.Divided := by
  obtain ⟨⟨hused, hblock⟩, hsizes⟩ := hallowed
  obtain ⟨above, hstack, hperm⟩ := h.stack k hused
  obtain ⟨newSegment, changed, rest, segment, hcall, -, hnew, hcases, -, -, hchanged⟩ :=
    hstack.exists_allocateFrame hblock hsizes oldStack
  simp only [next, hcall, Option.bind_eq_bind, Option.bind_some, Option.some.injEq] at hnext
  subst hnext
  have hresult := Segmented.allocate h hblock.nonnull hblock.fresh hstack hperm hnew hcases hchanged
  unfold Divided
  rwa [framePtr_update]

theorem Divided.release (h : s.Divided) {k : Word}
    (hallowed : s.Permitted minSegmentSize (.release k))
    (hnext : s.next coroutinePrelude minSegmentSize (.release k) = some after) :
    after.Divided := by
  obtain ⟨hused, hcalls⟩ := hallowed
  obtain ⟨above, hstack, hperm⟩ := h.stack k hused
  obtain hnil | ⟨front, caller, hcallers⟩ := List.eq_nil_or_concat' (s.callers k)
  · exact absurd hnil hcalls
  · have hcall := (hcallers ▸ hstack).seffMemReleaseFrame
    simp only [next, hcall.1, Option.bind_eq_bind, Option.bind_some, Option.some.injEq, hcallers,
      List.dropLast_concat] at hnext
    subst hnext
    have hresult := Segmented.release h hcallers hperm hcall.2
    unfold Divided
    rwa [framePtr_update]

theorem Divided.delete (h : s.Divided) {k : Word} {fuel : ℕ}
    (hallowed : s.Permitted minSegmentSize (.delete k fuel))
    (hnext : s.next coroutinePrelude minSegmentSize (.delete k fuel) = some after) :
    after.Divided := by
  obtain ⟨hused, hfuel⟩ := hallowed
  obtain ⟨above, hstack, hperm⟩ := h.stack k hused
  have hcall := hstack.seffCoroutineRelease (hperm.length_eq ▸ hfuel)
  simp only [next, hcall, Option.bind_eq_bind, Option.bind_some, Option.some.injEq] at hnext
  subst hnext
  refine Segmented.free h k fun segment hnot ↦ ?_
  exact if_neg fun hmem ↦ hnot (hperm.mem_iff.mp hmem)

/-- Every call a program makes leaves the heap divided. -/
theorem Divided.next (h : s.Divided) {call : StackCall}
    (hallowed : s.PermittedSized minSegmentSize call)
    (hnext : s.next coroutinePrelude minSegmentSize call = some after) : after.Divided := by
  cases call with
  | init k fn arg frameSize block => exact h.init hallowed hnext
  | allocate k frameSize paramSize block oldStack => exact h.allocate hallowed hnext
  | release k => exact h.release hallowed.1 hnext
  | delete k fuel => exact h.delete hallowed.1 hnext

/-- A call leaves the segments of the other coroutines. -/
theorem Divided.heap_next (h : s.Divided) {call : StackCall}
    (hallowed : s.PermittedSized minSegmentSize call)
    (hnext : s.next coroutinePrelude minSegmentSize call = some after) {other segment : Word}
    (hother : other ≠ call.coroutine) (hsegment : segment ∈ s.created other) :
    after.heap segment = s.heap segment := by
  have hfresh : ∀ block, s.heap block = none → segment ≠ block := fun block hnone heq ↦
    h.not_mem_created hnone other (heq ▸ hsegment)
  have hown : segment ∉ s.created call.coroutine := fun hmem ↦
    hother (h.separated.unique _ _ hsegment hmem)
  cases call with
  | init k fn arg frameSize block =>
    obtain ⟨changed, hinit, -, -, hchanged⟩ := StackOf.initFrame hallowed.1 hallowed.2
    simp only [Stacks.next, hinit, Option.bind_eq_bind, Option.bind_some, Option.some.injEq]
      at hnext
    rw [← hnext]
    exact hchanged segment (hfresh block hallowed.1.fresh)
  | allocate k frameSize paramSize block oldStack =>
    obtain ⟨⟨hused, hblock⟩, hsizes⟩ := hallowed
    obtain ⟨above, hstack, hperm⟩ := h.stack k hused
    obtain ⟨_, changed, _, _, hcall, -, -, -, -, -, hchanged⟩ :=
      hstack.exists_allocateFrame hblock hsizes oldStack
    simp only [Stacks.next, hcall, Option.bind_eq_bind, Option.bind_some, Option.some.injEq]
      at hnext
    rw [← hnext]
    exact hchanged segment (hfresh block hblock.fresh) (mt hperm.mem_iff.mp hown)
  | release k =>
    obtain ⟨_, -, hafter⟩ := Option.bind_eq_some_iff.mp hnext
    rw [← Option.some.inj hafter]
  | delete k fuel =>
    obtain ⟨hused, hfuel⟩ := hallowed.1
    obtain ⟨above, hstack, hperm⟩ := h.stack k hused
    have hcall := hstack.seffCoroutineRelease (hperm.length_eq ▸ hfuel)
    simp only [Stacks.next, hcall, Option.bind_eq_bind, Option.bind_some, Option.some.injEq]
      at hnext
    rw [← hnext]
    exact if_neg (mt hperm.mem_iff.mp hown)

theorem Start.divided (h : Start s) : s.Divided where
  separated := ⟨fun k ↦ by simp [h k], fun first _ _ ↦ by simp [h first]⟩
  stack := fun k hused ↦ absurd (h k) hused

/-- At the end of every run the heap is divided. -/
theorem divided_of_run {calls : List StackCall}
    (hrun : (system coroutinePrelude minSegmentSize).Run (PermittedSized minSegmentSize) calls s) :
    s.Divided :=
  hrun.invariant (fun _ ↦ Start.divided) fun _ _ _ h hallowed hnext ↦ h.next hallowed hnext

/-- The segments of a coroutine form one doubly linked list, terminated by `NULL` on both sides, of
exactly the segments created for it, each once, and `frame_ptr` is its element at the call depth. A
call, if it is `allowed`, then gets a segment with room for its frame and parameters that is none of
those up to the call depth; a return goes back to the segment the call came from; and
`seff_coroutine_release` frees each created segment once, nothing else, and stops. -/
def ListKept (minSegmentSize : Word) (allowed : Stacks → StackCall → Prop) (s : Stacks)
    (k : Word) : Prop :=
  ∃ list : List Word,
    DoublyLinked s.heap.links 0 list 0 ∧ 0 ∉ list ∧ list.Nodup ∧ list.Perm (s.created k) ∧
    list[(s.callers k).length]? = some (s.coroutines k).framePtr ∧
    (∀ frameSize paramSize block oldStack,
      allowed s (.allocate k frameSize paramSize block oldStack) →
      ∃ after segment, seffMemAllocateFrame minSegmentSize block frameSize paramSize oldStack s.heap
          (s.coroutines k) = some after ∧
        after.current.framePtr ∉ list.take ((s.callers k).length + 1) ∧
        after.heap after.current.framePtr = some segment ∧
        frameSize.toNat + paramSize.toNat ≤ segment.size.toNat) ∧
    (∀ front caller, s.callers k = front ++ [caller] →
      seffMemReleaseFrame s.heap (s.coroutines k) =
        some (segmentData caller, { s.coroutines k with framePtr := caller })) ∧
    ∀ fuel, list.length < fuel → ∃ freed after,
      seffCoroutineRelease fuel s.heap (s.coroutines k) = some (freed, after) ∧
      freed.Perm (s.created k) ∧
      ∀ address, after address = if address ∈ s.created k then none else s.heap address

/-- **The segment list of a coroutine.** It is kept in every run of calls of sizes that do not wrap,
for every coroutine in use. -/
theorem segmentList_of_run {calls : List StackCall}
    (hrun : (system coroutinePrelude minSegmentSize).Run (PermittedSized minSegmentSize) calls s)
    {k : Word} (hused : s.created k ≠ []) :
    s.ListKept minSegmentSize (PermittedSized minSegmentSize) k := by
  obtain ⟨above, hstack, hperm⟩ := (divided_of_run hrun).stack k hused
  refine ⟨s.callers k ++ (s.coroutines k).framePtr :: above, hstack.linked, hstack.nonnull,
    hstack.nodup, hperm, by simp, ?_, ?_, ?_⟩
  · rintro frameSize paramSize block oldStack ⟨⟨-, hblock⟩, hsizes⟩
    obtain ⟨newSegment, changed, rest, segment, hcall, -, hnew, -, hsegment, hsize, -⟩ :=
      hstack.exists_allocateFrame hblock hsizes oldStack
    refine ⟨_, segment, hcall, ?_, hsegment, ?_⟩
    · have htake : (s.callers k ++ (s.coroutines k).framePtr :: above).take
          ((s.callers k).length + 1) = s.callers k ++ [(s.coroutines k).framePtr] := by
        simp [List.take_append]
      rw [htake]
      exact (List.nodup_cons.mp (List.nodup_middle.mp hnew.nodup)).1 ∘ List.mem_append_left _
    · rwa [BitVec.le_def, hsizes.sum] at hsize
  · intro front caller hcallers
    exact (hcallers ▸ hstack).seffMemReleaseFrame.1
  · intro fuel hfuel
    refine ⟨_, _, hstack.seffCoroutineRelease hfuel, hperm, fun address ↦ ?_⟩
    simp only [hperm.mem_iff]

/-- A memory in which nothing was allocated. -/
def idle : Stacks where
  heap _ := none
  coroutines _ := ⟨0, ⟨0, 0, 0, 0, 0, 0, 0, 0, 0, 0⟩, .finished, 0, 0⟩
  created _ := []
  callers _ := []

/-- A coroutine is initialised and its stack grows by one frame. -/
def growingCalls : List StackCall := [.init 1 2 3 64 4096, .allocate 1 256 16 8192 fun _ ↦ 0]

/-- The state after these calls. -/
def grown : Stacks :=
  (TransitionSystem.execute (next 0x401000 0) (fun _ _ ↦ true) idle growingCalls).getD idle

theorem permitted_init : idle.PermittedSized 0 (.init 1 2 3 64 4096) :=
  ⟨⟨by decide, rfl, by decide⟩, by decide⟩

theorem run_growingCalls :
    (system 0x401000 0).Run (PermittedSized 0) growingCalls grown := by
  have hstart : (system 0x401000 0).Run (PermittedSized 0) [] idle := .start fun _ ↦ rfl
  have hinit := hstart.step permitted_init rfl
  exact hinit.step ⟨⟨by decide, by decide, rfl, by decide⟩, by decide⟩ rfl

theorem segmentList_of_run_growingCalls : ∃ list : List Word, list.Perm [8192, 4096] ∧
    list[1]? = some (8192 : Word) ∧ ∃ freed after,
      seffCoroutineRelease 3 grown.heap (grown.coroutines 1) = some (freed, after) ∧
        freed.Perm [8192, 4096] := by
  obtain ⟨list, -, -, -, hperm, hcurrent, -, -, hrelease⟩ :=
    segmentList_of_run run_growingCalls (k := 1) (by decide)
  obtain ⟨freed, after, hcall, hfreed, -⟩ := hrelease 3 (by rw [hperm.length_eq]; decide)
  exact ⟨list, hperm, hcurrent, freed, after, hcall, hfreed⟩

/-- The stack of a new coroutine grows by a call that needs `2 ^ 64 - 112` bytes, of which 48 are
parameters. -/
def wrappingCalls (oldStack : ℕ → BitVec 8) : List StackCall :=
  [.init 1 2 3 64 4096, .allocate 1 (-160) 48 8192 oldStack]

/-- The state after these calls. -/
def wrapped (oldStack : ℕ → BitVec 8) : Stacks :=
  (TransitionSystem.execute (next 0x401000 0) (fun _ _ ↦ true) idle
    (wrappingCalls oldStack)).getD idle

theorem run_wrappingCalls (oldStack : ℕ → BitVec 8) : (system 0x401000 0).Run
    (fun s call ↦ s.Permitted 0 call ∧ call.Summed) (wrappingCalls oldStack)
      (wrapped oldStack) := by
  have hstart : (system 0x401000 0).Run (fun s call ↦ s.Permitted 0 call ∧ call.Summed) [] idle :=
    .start fun _ ↦ rfl
  have hinit := hstart.step ⟨permitted_init.1, trivial⟩ rfl
  have hsummed : (-160 : Word).toNat + (48 : Word).toNat < 2 ^ 64 := by decide
  exact hinit.step ⟨⟨by decide, by decide, rfl, by decide⟩, hsummed⟩ rfl

/-- `malloc` is asked for 48 bytes, and the parameters, which are all zero here, are copied to the
first of them: the link back to the first segment is gone. -/
theorem not_segmentList : ∃ calls s, (system 0x401000 0).Run
      (fun s call ↦ s.Permitted 0 call ∧ call.Summed) calls s ∧ s.created 1 ≠ [] ∧
    (s.heap 4096).map SeffStackSegment.next = some 8192 ∧
    (s.heap 8192).map SeffStackSegment.prev = some 0 ∧
    ¬ s.ListKept 0 (fun s call ↦ s.Permitted 0 call ∧ call.Summed) 1 := by
  refine ⟨_, _, run_wrappingCalls fun _ ↦ 0, by decide, by decide, by decide, ?_⟩
  rintro ⟨list, hlinked, -, -, hperm, hcurrent, -⟩
  obtain ⟨first, second, rfl⟩ := List.length_eq_two.mp hperm.length_eq
  obtain rfl : second = 8192 := Option.some.inj hcurrent
  have hlinks := hlinked.2.1
  obtain rfl : first = 4096 := by
    have hmem : (4096 : Word) ∈ [first, 8192] := hperm.mem_iff.mpr (by decide)
    exact (List.mem_cons.mp hmem).elim Eq.symm fun hlast ↦ absurd hlast (by decide)
  exact absurd hlinks (by decide)

end Stacks

end Libseff.Stack
