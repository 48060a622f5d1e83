import Libseff.Foundation.LexicographicRank
import Libseff.Stack.SegmentSafety
import Libseff.Stack.SegmentSizes
import Mathlib.Data.Finset.Card

/-!
# How many segments a coroutine gets

A segment is created where the next one is missing or too small for a call, and pushes the smaller
ones one level deeper, where they may now be too small for other calls. When all calls need sizes
from a finite set, a segment matters only by how many of these sizes fit into it (`sizeClass`). The
classes of the segments behind the first, read as the digits of a number, grow with every segment
that is created: the levels above the call keep their segments, and the level of the call gets a
larger class. Where the calls nest at most `depth` deep the number stays below
`(sizes.card + 1) ^ depth`, and no more segments than that are created (`created_le_of_run`).

Where a size wraps on its way to `malloc` nothing of this holds: the parameters of a call may be
copied over the size of its own segment, which is then too small for the same call
(`not_created_le`).
-/

set_option autoImplicit false
set_option relaxedAutoImplicit false

namespace Libseff.Stack

open Foundation Coroutine

/-- How many of the sizes that calls need fit into a segment. -/
def sizeClass (sizes : Finset ℕ) (size : Option Word) : ℕ :=
  match size with
  | none => 0
  | some size => (sizes.filter (· ≤ size.toNat)).card

theorem sizeClass_lt (sizes : Finset ℕ) (size : Option Word) :
    sizeClass sizes size < sizes.card + 1 := by
  cases size with
  | none => exact Nat.succ_pos _
  | some size => exact Nat.lt_succ_of_le (Finset.card_filter_le _ _)

/-- A segment into which a size fits has a larger class than one into which it does not. -/
theorem sizeClass_lt_of_fits {sizes : Finset ℕ} {needed : ℕ} (hneeded : needed ∈ sizes)
    {small large : Word} (hsmall : small.toNat < needed) (hlarge : needed ≤ large.toNat) :
    sizeClass sizes (some small) < sizeClass sizes (some large) := by
  refine Finset.card_lt_card (Finset.ssubset_iff_of_subset ?_ |>.mpr ⟨needed, ?_, ?_⟩)
  · intro size hsize
    rw [Finset.mem_filter] at hsize ⊢
    exact ⟨hsize.1, by omega⟩
  · exact Finset.mem_filter.mpr ⟨hneeded, hlarge⟩
  · rw [Finset.mem_filter]
    omega

theorem sizeClass_pos {sizes : Finset ℕ} {needed : ℕ} (hneeded : needed ∈ sizes) {size : Word}
    (hsize : needed ≤ size.toNat) : 0 < sizeClass sizes (some size) :=
  Finset.card_pos.mpr ⟨needed, Finset.mem_filter.mpr ⟨hneeded, hsize⟩⟩

/-- The classes of the segments of a list. -/
def classes (sizes : Finset ℕ) (heap : Heap) (segments : List Word) : List ℕ :=
  segments.map fun segment ↦ sizeClass sizes (heap.sizes segment)

theorem classes_lt (sizes : Finset ℕ) (heap : Heap) (segments : List Word) :
    ∀ digit ∈ classes sizes heap segments, digit < sizes.card + 1 := by
  intro digit hdigit
  obtain ⟨segment, -, rfl⟩ := List.mem_map.mp hdigit
  exact sizeClass_lt _ _

theorem classes_congr {sizes : Finset ℕ} {heap changed : Heap} {segments : List Word}
    (hsizes : ∀ segment ∈ segments, changed.sizes segment = heap.sizes segment) :
    classes sizes changed segments = classes sizes heap segments :=
  List.map_congr_left fun segment hsegment ↦ by rw [hsizes segment hsegment]

/-- The number that the classes behind the first segment of a coroutine make. -/
def segmentRank (sizes : Finset ℕ) (depth : ℕ) (heap : Heap) (segments : List Word) : ℕ :=
  lexRank (sizes.card + 1) depth (classes sizes heap segments.tail)

theorem segmentRank_lt (sizes : Finset ℕ) (depth : ℕ) (heap : Heap) (segments : List Word) :
    segmentRank sizes depth heap segments < (sizes.card + 1) ^ depth :=
  lexRank_lt (Nat.succ_pos _) depth (classes_lt sizes heap _)

namespace Stacks

/-- The calls made on behalf of one coroutine nest at most `depth` deep, and need sizes from a given
set. -/
def Bounded (k : Word) (depth : ℕ) (sizes : Finset ℕ) (s : Stacks) : StackCall → Prop
  | .allocate other frameSize paramSize _ _ => other = k →
    (s.callers k).length < depth ∧ frameSize.toNat + paramSize.toNat ∈ sizes
  | _ => True

/-- A coroutine has as many segments as its rank accounts for. -/
def Counted (k : Word) (depth : ℕ) (sizes : Finset ℕ) (s : Stacks) : Prop :=
  s.created k ≠ [] → ∃ above,
    StackOf s.heap (s.coroutines k).framePtr (s.callers k) above ∧
    (s.callers k ++ (s.coroutines k).framePtr :: above).Perm (s.created k) ∧
    (s.created k).length ≤ segmentRank sizes depth s.heap
      (s.callers k ++ (s.coroutines k).framePtr :: above) + 1

variable {coroutinePrelude minSegmentSize k : Word} {depth : ℕ} {sizes : Finset ℕ}
  {s after : Stacks}

/-- A segment that is created for a call makes the rank larger. -/
theorem segmentRank_lt_insert {heap changed : Heap} {framePtr block : Word}
    {below above : List Word} {frameSize paramSize : Word}
    (hstack : StackOf heap framePtr below above) (hfresh : heap block = none)
    (hdepth : below.length < depth) (hneeded : frameSize.toNat + paramSize.toNat ∈ sizes)
    (hfit : SizesFit minSegmentSize frameSize paramSize)
    (hneeds : NeedsSegment frameSize paramSize framePtr heap)
    (hsizes : changed.sizes =
      Function.update heap.sizes block (some (newSize minSegmentSize frameSize paramSize))) :
    segmentRank sizes depth heap (below ++ framePtr :: above) <
      segmentRank sizes depth changed (below ++ [framePtr] ++ block :: above) := by
  have hsumNat := hfit.sum
  have hlarge : frameSize.toNat + paramSize.toNat ≤
      (newSize minSegmentSize frameSize paramSize).toNat := by
    have hle := le_newSize minSegmentSize frameSize paramSize
    rwa [BitVec.le_def, hsumNat] at hle
  have hnotMem := hstack.not_mem_of_fresh hfresh
  have hkept : ∀ segment ∈ below ++ framePtr :: above,
      changed.sizes segment = heap.sizes segment := by
    intro segment hsegment
    have hne : segment ≠ block := fun heq ↦ hnotMem (heq ▸ hsegment)
    rw [hsizes, Function.update_of_ne hne]
  obtain ⟨front, hfront, hlength, hsubset⟩ : ∃ front, (below ++ [framePtr]).tail = front ∧
      front.length = below.length ∧ ∀ segment ∈ front, segment ∈ below ++ framePtr :: above := by
    refine ⟨_, rfl, by simp, fun segment hsegment ↦ ?_⟩
    have hmem := List.mem_of_mem_tail hsegment
    simp only [List.mem_append, List.mem_cons] at hmem ⊢
    tauto
  have htail : ∀ behind, (below ++ framePtr :: behind).tail = front ++ behind := by
    intro behind
    rw [← hfront, ← List.tail_append_of_ne_nil (by simp)]
    simp
  have hold : classes sizes heap (front ++ above) =
      classes sizes heap front ++ classes sizes heap above := List.map_append
  have hnew : classes sizes changed (front ++ block :: above) =
      classes sizes heap front ++
        sizeClass sizes (some (newSize minSegmentSize frameSize paramSize)) ::
          classes sizes heap above := by
    rw [← classes_congr fun segment hsegment ↦ hkept segment (hsubset segment hsegment),
      ← classes_congr fun segment hsegment ↦ hkept segment (by simp [hsegment])]
    simp [classes, hsizes]
  rw [segmentRank, segmentRank, List.append_assoc, List.singleton_append, htail, htail, hold, hnew]
  refine lexRank_lt_insert (Nat.succ_pos _) (classes_lt sizes heap above) ?_ ?_
  · simpa [classes, hlength] using hdepth
  · obtain ⟨segment, hsegment, hsmall⟩ := hneeds
    obtain ⟨current, hcurrent, -, hnext⟩ := hstack.current
    obtain rfl := Option.some.inj (hsegment.symm.trans hcurrent)
    cases above with
    | nil => exact sizeClass_pos hneeded hlarge
    | cons next rest =>
      have hnextEq : segment.next = next := hnext
      rcases hsmall with hzero | ⟨size, hsize, hless⟩
      · exact absurd (by simp [← hnextEq, hzero]) hstack.nonnull
      · rw [hnextEq] at hsize
        rw [BitVec.lt_def, hsumNat] at hless
        simpa [classes, hsize] using sizeClass_lt_of_fits hneeded hless hlarge

/-- A call for another coroutine does not count. -/
theorem Counted.next_of_ne (h : s.Counted k depth sizes) (hdivided : s.Divided) {call : StackCall}
    (hallowed : s.PermittedSized minSegmentSize call)
    (hnext : s.next coroutinePrelude minSegmentSize call = some after) (hk : k ≠ call.coroutine) :
    after.Counted k depth sizes := by
  obtain ⟨hcoroutine, hcreated, hcallers⟩ := Stacks.next_of_ne hnext hk
  rw [Counted, hcoroutine, hcreated, hcallers]
  intro hused
  obtain ⟨above, hstack, hperm, hcount⟩ := h hused
  have hkept : ∀ segment ∈ s.callers k ++ (s.coroutines k).framePtr :: above,
      after.heap segment = s.heap segment := fun segment hsegment ↦
    hdivided.heap_next hallowed hnext hk (hperm.mem_iff.mp hsegment)
  refine ⟨above, hstack.congr hkept, hperm, hcount.trans_eq ?_⟩
  rw [segmentRank, segmentRank, classes_congr fun segment hsegment ↦ ?_]
  rw [Heap.sizes, Heap.sizes, hkept segment (List.mem_of_mem_tail hsegment)]

theorem Counted.allocate (h : s.Counted k depth sizes) {frameSize paramSize block : Word}
    {oldStack : ℕ → BitVec 8}
    (hallowed : s.PermittedSized minSegmentSize (.allocate k frameSize paramSize block oldStack))
    (hbounded : s.Bounded k depth sizes (.allocate k frameSize paramSize block oldStack))
    (hnext : s.next coroutinePrelude minSegmentSize
      (.allocate k frameSize paramSize block oldStack) = some after) :
    after.Counted k depth sizes := by
  obtain ⟨⟨hused, hblock⟩, hfit⟩ := hallowed
  have hfresh := hblock.fresh
  obtain ⟨hdepth, hneeded⟩ := hbounded rfl
  obtain ⟨above, hstack, hperm, hcount⟩ := h hused
  obtain ⟨newSegment, changed, rest, segment, hcall, hmoved, hnew, hcases, -, -, -⟩ :=
    hstack.exists_allocateFrame hblock hfit oldStack
  simp only [next, hcall, Option.bind_eq_bind, Option.bind_some, Option.some.injEq] at hnext
  subst hnext
  intro _
  simp only [Function.update_self]
  have hnotMem := hstack.not_mem_of_fresh hfresh
  rcases nextSegment_cases hmoved with
    ⟨hneeds, rfl, hsizes⟩ | ⟨-, rfl, next, size, -, rfl, hsize, -⟩
  · -- the call creates a segment in front of those kept for later calls
    obtain ⟨-, rfl⟩ | ⟨rfl, -⟩ := hcases
    · rw [if_pos (hnew.isSome_of_mem (by simp))]
      refine ⟨rest, hnew, ?_, ?_⟩
      · have hmiddle := @List.perm_middle _ newSegment
          (s.callers k ++ [(s.coroutines k).framePtr]) rest
        refine hmiddle.trans (List.Perm.cons _ ?_)
        simpa using hperm
      · have hrank := segmentRank_lt_insert hstack hfresh hdepth hneeded hfit hneeds hsizes
        exact Nat.succ_le_succ (hcount.trans hrank)
    · exact absurd (by simp) hnotMem
  · -- the call uses the next segment again
    obtain ⟨heq, -⟩ | ⟨rfl, -⟩ := hcases
    · rw [heq, Heap.sizes, hfresh] at hsize
      cases hsize
    · rw [if_neg (by simp [hfresh])]
      exact ⟨rest, hnew, by simpa using hperm, by simpa using hcount⟩

theorem Counted.release (h : s.Counted k depth sizes)
    (hallowed : s.Permitted minSegmentSize (.release k))
    (hnext : s.next coroutinePrelude minSegmentSize (.release k) = some after) :
    after.Counted k depth sizes := by
  obtain ⟨hused, hcalls⟩ := hallowed
  obtain ⟨above, hstack, hperm, hcount⟩ := h hused
  obtain hnil | ⟨front, caller, hcallers⟩ := List.eq_nil_or_concat' (s.callers k)
  · exact absurd hnil hcalls
  · obtain ⟨hcall, hnew⟩ := (hcallers ▸ hstack).seffMemReleaseFrame
    simp only [next, hcall, Option.bind_eq_bind, Option.bind_some, Option.some.injEq, hcallers,
      List.dropLast_concat] at hnext
    subst hnext
    intro _
    simp only [Function.update_self]
    rw [hcallers] at hperm hcount
    exact ⟨_, hnew, by simpa using hperm, by simpa using hcount⟩

theorem Counted.init {fn arg frameSize block : Word}
    (hallowed : s.PermittedSized minSegmentSize (.init k fn arg frameSize block))
    (hnext : s.next coroutinePrelude minSegmentSize (.init k fn arg frameSize block) =
      some after) : after.Counted k depth sizes := by
  obtain ⟨changed, hinit, hstack, -⟩ := StackOf.initFrame hallowed.1 hallowed.2
  simp only [next, hinit, Option.bind_eq_bind, Option.bind_some, Option.some.injEq] at hnext
  subst hnext
  intro _
  simp only [Function.update_self]
  exact ⟨[], hstack, List.Perm.refl _, Nat.le_add_left _ _⟩

theorem Counted.next (h : s.Counted k depth sizes) (hdivided : s.Divided) {call : StackCall}
    (hallowed : s.PermittedSized minSegmentSize call) (hbounded : s.Bounded k depth sizes call)
    (hnext : s.next coroutinePrelude minSegmentSize call = some after) :
    after.Counted k depth sizes := by
  by_cases hk : k = call.coroutine
  · subst hk
    cases call with
    | init k fn arg frameSize block => exact Counted.init hallowed hnext
    | allocate k frameSize paramSize block oldStack => exact h.allocate hallowed hbounded hnext
    | release k => exact h.release hallowed.1 hnext
    | delete k fuel =>
      obtain ⟨_, -, hafter⟩ := Option.bind_eq_some_iff.mp hnext
      rw [← Option.some.inj hafter]
      exact fun hused ↦ absurd (Function.update_self ..) hused
  · exact h.next_of_ne hdivided hallowed hnext hk

/-! ### Repeated calls -/

/-- A call that enters a function with the sizes of its frame and parameters, or a return. -/
abbrev Nesting := Option (Word × Word)

/-- How deep calls are nested after some calls and returns. -/
def depthAfter : ℕ → List Nesting → ℕ
  | depth, [] => depth
  | depth, some _ :: rest => depthAfter (depth + 1) rest
  | depth, none :: rest => depthAfter (depth - 1) rest

theorem depthAfter_append (depth : ℕ) (first second : List Nesting) :
    depthAfter depth (first ++ second) = depthAfter (depthAfter depth first) second := by
  induction first generalizing depth with
  | nil => rfl
  | cons call first ih => cases call <;> exact ih _

theorem depthAfter_le (depth : ℕ) (calls : List Nesting) :
    depthAfter depth calls ≤ depth + calls.length := by
  induction calls generalizing depth with
  | nil => exact le_rfl
  | cons call calls ih =>
    cases call with
    | none => exact (ih _).trans (by rw [List.length_cons]; omega)
    | some sizes => exact (ih _).trans (by rw [List.length_cons]; omega)

/-- While a balanced pattern is repeated the calls nest no deeper than it is long. -/
theorem depthAfter_le_of_repeated {pattern calls : List Nesting} {n : ℕ}
    (hbalanced : depthAfter 0 pattern = 0)
    (hcalls : calls <+: (List.replicate n pattern).flatten) :
    depthAfter 0 calls ≤ pattern.length := by
  induction n generalizing calls with
  | zero =>
    obtain rfl : calls = [] := by simpa using hcalls
    exact Nat.zero_le _
  | succ n ih =>
    rw [List.replicate_succ, List.flatten_cons] at hcalls
    obtain ⟨rest, hrest⟩ := hcalls
    rcases List.append_eq_append_iff.mp hrest with ⟨middle, hpattern, -⟩ | ⟨middle, rfl, hmiddle⟩
    · have hlength : calls.length ≤ pattern.length := by simp [hpattern]
      exact (depthAfter_le 0 calls).trans (by omega)
    · rw [depthAfter_append, hbalanced]
      exact ih ⟨rest, hmiddle.symm⟩

/-- What a call adds to the calls and returns on the stack of a coroutine. -/
def nestingsAfter (k : Word) (before : List Nesting) (call : StackCall) : List Nesting :=
  if k = call.coroutine then
    match call with
    | .init .. => []
    | .allocate _ frameSize paramSize _ _ => before ++ [some (frameSize, paramSize)]
    | .release _ => before ++ [none]
    | .delete .. => []
  else before

/-- The calls and returns on the stack of a coroutine since it was initialised. -/
def nestings (k : Word) (calls : List StackCall) : List Nesting :=
  calls.foldl (nestingsAfter k) []

/-- The sizes that the calls of a pattern need. -/
def neededSizes (pattern : List Nesting) : Finset ℕ :=
  ((pattern.filterMap id).map fun sizes ↦ sizes.1.toNat + sizes.2.toNat).toFinset

/-- Every call of a repeated pattern needs one of its sizes. -/
theorem mem_neededSizes {pattern before : List Nesting} {n : ℕ} {frameSize paramSize : Word}
    (hcalls : before ++ [some (frameSize, paramSize)] <+: (List.replicate n pattern).flatten) :
    frameSize.toNat + paramSize.toNat ∈ neededSizes pattern := by
  have hmem : some (frameSize, paramSize) ∈ (List.replicate n pattern).flatten :=
    hcalls.subset (by simp)
  obtain ⟨repeated, hrepeated, hmem⟩ := List.mem_flatten.mp hmem
  rw [List.eq_of_mem_replicate hrepeated] at hmem
  rw [neededSizes, List.mem_toFinset, List.mem_map]
  exact ⟨(frameSize, paramSize), List.mem_filterMap.mpr ⟨_, hmem, rfl⟩, rfl⟩

/-- The segments are counted, and the coroutine is as deep in calls as they nest. -/
def Nested (k : Word) (depth : ℕ) (sizes : Finset ℕ) (done : List Nesting) (s : Stacks) : Prop :=
  s.Counted k depth sizes ∧ (s.created k ≠ [] → (s.callers k).length = depthAfter 0 done)

theorem Nested.next {pattern before : List Nesting} {n : ℕ} (hdivided : s.Divided)
    (hbalanced : depthAfter 0 pattern = 0)
    (h : before <+: (List.replicate n pattern).flatten →
      s.Nested k pattern.length (neededSizes pattern) before)
    {call : StackCall} (hallowed : s.PermittedSized minSegmentSize call)
    (hnext : s.next coroutinePrelude minSegmentSize call = some after)
    (hrepeated : nestingsAfter k before call <+: (List.replicate n pattern).flatten) :
    after.Nested k pattern.length (neededSizes pattern) (nestingsAfter k before call) := by
  by_cases hk : k = call.coroutine
  · subst hk
    unfold nestingsAfter at hrepeated ⊢
    rw [if_pos rfl] at hrepeated ⊢
    cases call with
    | init k fn arg frameSize block =>
      refine ⟨Counted.init hallowed hnext, fun _ ↦ ?_⟩
      obtain ⟨_, -, hafter⟩ := Option.bind_eq_some_iff.mp hnext
      rw [← Option.some.inj hafter]
      simp [depthAfter, StackCall.coroutine]
    | allocate k frameSize paramSize block oldStack =>
      obtain ⟨hcounted, hdepth⟩ := h ((List.prefix_append _ _).trans hrepeated)
      have hdeeper := depthAfter_le_of_repeated hbalanced hrepeated
      rw [depthAfter_append, ← hdepth hallowed.1.1] at hdeeper
      have hbounded : s.Bounded k pattern.length (neededSizes pattern)
          (.allocate k frameSize paramSize block oldStack) :=
        fun _ ↦ ⟨hdeeper, mem_neededSizes hrepeated⟩
      refine ⟨hcounted.allocate hallowed hbounded hnext, fun _ ↦ ?_⟩
      obtain ⟨_, -, hafter⟩ := Option.bind_eq_some_iff.mp hnext
      rw [← Option.some.inj hafter, depthAfter_append, ← hdepth hallowed.1.1]
      simp [depthAfter, StackCall.coroutine]
    | release k =>
      obtain ⟨hcounted, hdepth⟩ := h ((List.prefix_append _ _).trans hrepeated)
      refine ⟨hcounted.release hallowed.1 hnext, fun _ ↦ ?_⟩
      obtain ⟨_, -, hafter⟩ := Option.bind_eq_some_iff.mp hnext
      rw [← Option.some.inj hafter, depthAfter_append, ← hdepth hallowed.1.1]
      simp [depthAfter, StackCall.coroutine]
    | delete k fuel =>
      obtain ⟨_, -, hafter⟩ := Option.bind_eq_some_iff.mp hnext
      have hnone : after.created k = [] := by
        rw [← Option.some.inj hafter]
        exact Function.update_self ..
      exact ⟨fun hused ↦ absurd hnone hused, fun hused ↦ absurd hnone hused⟩
  · unfold nestingsAfter at hrepeated ⊢
    rw [if_neg hk] at hrepeated ⊢
    obtain ⟨hcounted, hdepth⟩ := h hrepeated
    obtain ⟨-, hcreated, hcallers⟩ := Stacks.next_of_ne hnext hk
    exact ⟨hcounted.next_of_ne hdivided hallowed hnext hk, by rwa [hcreated, hcallers]⟩

/-- The heap is divided, and the segments of a coroutine are counted. -/
def Tracked (k : Word) (depth : ℕ) (sizes : Finset ℕ) (s : Stacks) : Prop :=
  s.Divided ∧ s.Counted k depth sizes

theorem Start.counted (h : Start s) : s.Counted k depth sizes := fun hused ↦ absurd (h k) hused

theorem tracked_of_run {calls : List StackCall}
    (hrun : (system coroutinePrelude minSegmentSize).Run
      (fun s call ↦ s.PermittedSized minSegmentSize call ∧ s.Bounded k depth sizes call) calls s) :
    s.Tracked k depth sizes :=
  hrun.invariant (fun _ hstart ↦ ⟨Start.divided hstart, Start.counted hstart⟩)
    fun _ _ _ h hallowed hnext ↦
      ⟨h.1.next hallowed.1 hnext, h.2.next h.1 hallowed.1 hallowed.2 hnext⟩

/-- The heap is divided, and the segments are counted while the calls repeat a pattern. -/
def Repeating (k : Word) (pattern : List Nesting) (n : ℕ) (calls : List StackCall)
    (s : Stacks) : Prop :=
  s.Divided ∧ (nestings k calls <+: (List.replicate n pattern).flatten →
    s.Nested k pattern.length (neededSizes pattern) (nestings k calls))

theorem repeating_of_run {pattern : List Nesting} (hbalanced : depthAfter 0 pattern = 0)
    {n : ℕ} {calls : List StackCall}
    (hrun : (system coroutinePrelude minSegmentSize).Run (PermittedSized minSegmentSize) calls s) :
    s.Repeating k pattern n calls := by
  refine hrun.history (fun s hstart ↦ ?_) fun calls s call after h hallowed hnext ↦ ?_
  · exact ⟨Start.divided hstart, fun _ ↦
      ⟨Start.counted hstart, fun hused ↦ absurd (hstart k) hused⟩⟩
  · refine ⟨h.1.next hallowed hnext, ?_⟩
    rw [nestings, List.foldl_append]
    exact Nested.next h.1 hbalanced h.2 hallowed hnext

theorem Counted.length_le (h : s.Counted k depth sizes) :
    (s.created k).length ≤ (sizes.card + 1) ^ depth := by
  by_cases hused : s.created k = []
  · rw [hused]
    exact Nat.zero_le _
  · obtain ⟨above, -, -, hcount⟩ := h hused
    have hrank := segmentRank_lt sizes depth s.heap
      (s.callers k ++ (s.coroutines k).framePtr :: above)
    omega

/-- **The number of segments.** In every run in which the calls of a coroutine nest at most `depth`
deep and need sizes from a finite set, at most `(sizes.card + 1) ^ depth` segments are created for
it. In particular the calls may repeat a balanced pattern any number of times, and create no more
segments than the length and the sizes of the pattern allow.

Assumes: the calls are permitted, and no size wraps. -/
theorem created_le_of_run (coroutinePrelude minSegmentSize k : Word) :
    (∀ depth sizes calls s, (system coroutinePrelude minSegmentSize).Run
        (fun s call ↦ s.PermittedSized minSegmentSize call ∧ s.Bounded k depth sizes call)
        calls s →
      (s.created k).length ≤ (sizes.card + 1) ^ depth) ∧
    ∀ pattern, depthAfter 0 pattern = 0 → ∀ n calls s,
      (system coroutinePrelude minSegmentSize).Run (PermittedSized minSegmentSize) calls s →
      nestings k calls <+: (List.replicate n pattern).flatten →
      (s.created k).length ≤ ((neededSizes pattern).card + 1) ^ pattern.length := by
  constructor
  · intro depth sizes calls s hrun
    exact (tracked_of_run hrun).2.length_le
  · intro pattern hbalanced n calls s hrun hrepeated
    exact ((repeating_of_run hbalanced hrun).2 hrepeated).1.length_le

/-- The state after a call that needs a segment and the return from it. -/
def returned : Stacks :=
  (TransitionSystem.execute (next 0x401000 0) (fun _ _ ↦ true) idle
    (growingCalls ++ [.release 1])).getD idle

theorem created_le_of_run_growingCalls :
    (grown.created 1).length ≤ (({272} : Finset ℕ).card + 1) ^ 1 ∧
      (returned.created 1).length ≤ 2 ^ 2 := by
  have hstart : (system 0x401000 0).Run
      (fun s call ↦ s.PermittedSized 0 call ∧ s.Bounded 1 1 {272} call) [] idle :=
    .start fun _ ↦ rfl
  have hinit := hstart.step (show idle.PermittedSized 0 (.init 1 2 3 64 4096) ∧
    idle.Bounded 1 1 {272} (.init 1 2 3 64 4096) from ⟨permitted_init, trivial⟩) rfl
  have hgrow : (system 0x401000 0).Run _ growingCalls grown :=
    hinit.step ⟨⟨⟨by decide, by decide, rfl, by decide⟩, by decide⟩,
      fun _ ↦ ⟨by decide, by decide⟩⟩ rfl
  have hreturn :
      (system 0x401000 0).Run (PermittedSized 0) (growingCalls ++ [.release 1]) returned :=
    run_growingCalls.step ⟨⟨by decide, by decide⟩, trivial⟩ rfl
  exact ⟨(created_le_of_run 0x401000 0 1).1 1 {272} _ _ hgrow,
    (created_le_of_run 0x401000 0 1).2 [some (256, 16), none] rfl 1 _ _ hreturn (by decide)⟩

/-- Parameters of which the first word is `4096`, the address of the first segment, and the others
are zero. -/
def headerLike (index : ℕ) : BitVec 8 := if index = 1 then 16 else 0

/-- The state after the call of `wrappingCalls` has returned and was made again. -/
def repeated : Stacks :=
  (TransitionSystem.execute (next 0x401000 0) (fun _ _ ↦ true) (wrapped headerLike)
    [.release 1, .allocate 1 (-160) 48 12288 headerLike]).getD idle

/-- A call that needs `2 ^ 64 - 112` bytes makes its own segment look empty, so that each call gets
another segment. -/
theorem not_created_le : ∃ calls s, (system 0x401000 0).Run
      (fun s call ↦ s.Permitted 0 call ∧ s.Bounded 1 1 {2 ^ 64 - 112} call) calls s ∧
    s.created 1 = [12288, 8192, 4096] ∧
    ¬ (s.created 1).length ≤ (({2 ^ 64 - 112} : Finset ℕ).card + 1) ^ 1 := by
  have hstart : (system 0x401000 0).Run
      (fun s call ↦ s.Permitted 0 call ∧ s.Bounded 1 1 {2 ^ 64 - 112} call) [] idle :=
    .start fun _ ↦ rfl
  have hneeded : (-160 : Word).toNat + (48 : Word).toNat ∈ ({2 ^ 64 - 112} : Finset ℕ) := by
    decide
  have hinit := hstart.step ⟨permitted_init.1, trivial⟩ rfl
  have hgrow : (system 0x401000 0).Run _ (wrappingCalls headerLike) (wrapped headerLike) :=
    hinit.step ⟨⟨by decide, by decide, rfl, by decide⟩, fun _ ↦ ⟨by decide, hneeded⟩⟩ rfl
  obtain ⟨s, hrelease⟩ : ∃ s, (wrapped headerLike).next 0x401000 0 (.release 1) = some s := ⟨_, rfl⟩
  have hreturn : (system 0x401000 0).Run _ (wrappingCalls headerLike ++ [.release 1]) s :=
    hgrow.step ⟨⟨by decide, by decide⟩, trivial⟩ hrelease
  obtain rfl := Option.some.inj ((show some _ = _ from rfl).trans hrelease)
  have hagain : (system 0x401000 0).Run _ (wrappingCalls headerLike ++ [.release 1] ++
      [.allocate 1 (-160) 48 12288 headerLike]) repeated :=
    hreturn.step ⟨⟨by decide, by decide, by decide, by decide⟩, fun _ ↦ ⟨by decide, hneeded⟩⟩ rfl
  exact ⟨_, _, hagain, by decide, by decide⟩

end Stacks

end Libseff.Stack
