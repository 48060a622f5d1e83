import Libseff.Coroutine.Machine

/-!
# The switching routines implement shallow handlers

One `resume_point` field holds alternately two contexts. In a suspended coroutine it is the context
of the innermost frame the coroutine captured, and `current_coroutine` names the coroutine of that
frame. In a coroutine on a stack it is the context of the frame below, and `parent_coroutine` names
the coroutine of the frame below. `Linked` says so of the frames of one place, and `Represents` of a
whole machine: it is the relation between the machine and the configurations of `ShallowHandlers`.

Every routine writes one coroutine, the one in `%rdi`, and moves frames between two places. Each
operation therefore has one lemma (`Represents.resume`, `Represents.capture`,
`Represents.discard`), in which the frames of every other place keep their links because the written
coroutine has no frame there. `seff_locate_handler` finds the innermost frame that handles the
effect (`locates_iff`).

`seffSwitch_simulates` is the simulation along every run. A coroutine may be resumed when it was
created and is not finished, not active, not enclosed, and not discarded by an exit to an enclosing
handler. The last condition cannot be dropped: an exit marks only the handler as finished, and the
`resume_point` of a coroutine it discarded still holds the context of the code that resumed it
(`not_simulates_of_discarded`).
-/

set_option autoImplicit false
set_option relaxedAutoImplicit false

namespace Libseff.Coroutine

open Foundation Foundation.ShallowHandlers

/-! ### Linked frames -/

section Links

/-- The coroutine and context on top of a list of frames, or those below it. -/
def innermost (below : Word × Context) : List Frame → Word × Context
  | [] => below
  | frame :: _ => (frame.coroutine, frame.context)

/-- The coroutine of a frame on a stack links to the coroutine and context below, and holds the
handled set of the frame. -/
structure Below (coroutines : Word → SeffCoroutine) (frame : Frame) (target : Word × Context) :
    Prop where
  parent : (coroutines frame.coroutine).parentCoroutine = target.1
  context : (coroutines frame.coroutine).resumePoint.context = target.2
  handled : effectSet (coroutines frame.coroutine).handledEffects = frame.handled

/-- Every frame links to the next one, and the outermost to `below`. -/
def Linked (coroutines : Word → SeffCoroutine) (below : Word × Context) : List Frame → Prop
  | [] => True
  | frame :: rest => Below coroutines frame (innermost below rest) ∧ Linked coroutines below rest

variable {coroutines : Word → SeffCoroutine} {below : Word × Context} {frames : List Frame}

@[simp] theorem innermost_nil : innermost below [] = below := rfl

@[simp] theorem innermost_cons (frame : Frame) (rest : List Frame) :
    innermost below (frame :: rest) = (frame.coroutine, frame.context) := rfl

theorem innermost_append (inner : List Frame) (own : Frame) (rest : List Frame) :
    innermost below (inner ++ own :: rest) = innermost (own.coroutine, own.context) inner := by
  cases inner <;> rfl

theorem linked_append (inner : List Frame) (own : Frame) (rest : List Frame) :
    Linked coroutines below (inner ++ own :: rest) ↔
      Linked coroutines (own.coroutine, own.context) inner ∧
        Linked coroutines below (own :: rest) := by
  induction inner with
  | nil => simp [Linked]
  | cons frame inner ih =>
    simp only [List.cons_append, Linked, innermost_append] at ih ⊢
    rw [ih, and_assoc]

/-- Links only read the coroutines of the frames. -/
theorem linked_congr {changed : Word → SeffCoroutine}
    (hparent : ∀ k ∈ names frames, (changed k).parentCoroutine = (coroutines k).parentCoroutine)
    (hcontext : ∀ k ∈ names frames,
      (changed k).resumePoint.context = (coroutines k).resumePoint.context)
    (hhandled : ∀ k ∈ names frames,
      (changed k).handledEffects = (coroutines k).handledEffects)
    (h : Linked coroutines below frames) : Linked changed below frames := by
  induction frames with
  | nil => trivial
  | cons frame rest ih =>
    refine ⟨⟨?_, ?_, ?_⟩, ih (fun k hk ↦ hparent k (List.mem_cons_of_mem _ hk))
      (fun k hk ↦ hcontext k (List.mem_cons_of_mem _ hk))
      (fun k hk ↦ hhandled k (List.mem_cons_of_mem _ hk)) h.2⟩
    · rw [hparent _ (by simp)]
      exact h.1.parent
    · rw [hcontext _ (by simp)]
      exact h.1.context
    · rw [hhandled _ (by simp)]
      exact h.1.handled

/-- Links survive a write to a coroutine that has none of the frames. -/
theorem linked_update {k : Word} (hk : k ∉ names frames) (written : SeffCoroutine)
    (h : Linked coroutines below frames) :
    Linked (Function.update coroutines k written) below frames := by
  have hsame : ∀ other ∈ names frames,
      Function.update coroutines k written other = coroutines other := by
    intro other hother
    refine Function.update_of_ne ?_ _ _
    rintro rfl
    exact hk hother
  exact linked_congr (fun other hother ↦ by rw [hsame other hother])
    (fun other hother ↦ by rw [hsame other hother])
    (fun other hother ↦ by rw [hsame other hother]) h

theorem linked_setContext (context : Context) :
    Linked coroutines below (setContext context frames) ↔ Linked coroutines below frames := by
  cases frames with
  | nil => rfl
  | cons frame rest =>
    exact and_congr_left' ⟨fun h ↦ ⟨h.parent, h.context, h.handled⟩,
      fun h ↦ ⟨h.parent, h.context, h.handled⟩⟩

/-- A list of frames one of which has a property splits at the innermost such frame. -/
theorem exists_innermost {property : Frame → Prop} (h : ∃ frame ∈ frames, property frame) :
    ∃ inner own rest, frames = inner ++ own :: rest ∧ (∀ frame ∈ inner, ¬ property frame) ∧
      property own := by
  induction frames with
  | nil => simp at h
  | cons frame rest ih =>
    by_cases hframe : property frame
    · exact ⟨[], frame, rest, rfl, by simp, hframe⟩
    · obtain ⟨inner, own, outer, rfl, hinner, hown⟩ := ih (by simpa [hframe] using h)
      exact ⟨frame :: inner, own, outer, rfl, by simpa [hframe] using hinner, hown⟩

end Links

/-! ### Locating a handler -/

section Locating

variable {coroutines : Word → SeffCoroutine} {below : Word × Context} {effect : Word}

theorem mem_effectSet (heffect : effect.toNat < 64) (handled : Word) :
    effect ∈ effectSet handled ↔ handled &&& (1#64 <<< effect.toNat) ≠ 0 := by
  simp [effectSet, heffect]

theorem ne_returnEffectId (heffect : effect.toNat < 64) : effect ≠ returnEffectId := by
  rintro rfl
  simp [returnEffectId] at heffect

theorem locateLoop_found {mask k : Word} (h : (coroutines k).handledEffects &&& mask ≠ 0)
    (fuel : ℕ) : locateLoop coroutines mask (fuel + 1) k = some k := by
  rw [locateLoop, if_neg fun hskip ↦ h hskip.2]

theorem locateLoop_skip {mask k : Word} (hk : k ≠ 0)
    (h : (coroutines k).handledEffects &&& mask = 0) (fuel : ℕ) :
    locateLoop coroutines mask (fuel + 1) k =
      locateLoop coroutines mask fuel (coroutines k).parentCoroutine := by
  rw [locateLoop, if_pos ⟨hk, h⟩]

/-- On linked frames the loop of `seff_locate_handler` returns the coroutine of the innermost frame
that handles the effect, after one iteration a frame. -/
theorem locateLoop_eq (heffect : effect.toNat < 64) {inner : List Frame} {own : Frame}
    {rest : List Frame} (hlinked : Linked coroutines below (inner ++ own :: rest))
    (hnonnull : 0 ∉ names (inner ++ own :: rest))
    (hinner : ∀ frame ∈ inner, effect ∉ frame.handled) (hown : effect ∈ own.handled)
    (fuel : ℕ) :
    locateLoop coroutines (1#64 <<< effect.toNat) fuel
        (innermost below (inner ++ own :: rest)).1 =
      if inner.length < fuel then some own.coroutine else none := by
  induction inner generalizing fuel with
  | nil =>
    cases fuel with
    | zero => rfl
    | succ fuel =>
      rw [List.nil_append] at hlinked ⊢
      rw [← hlinked.1.handled, mem_effectSet heffect] at hown
      simpa using locateLoop_found hown fuel
  | cons frame inner ih =>
    cases fuel with
    | zero => rfl
    | succ fuel =>
      have hframe := hinner frame (by simp)
      rw [← hlinked.1.handled, mem_effectSet heffect, not_not] at hframe
      have hne : frame.coroutine ≠ 0 := fun h ↦ hnonnull (by simp [h])
      have hrest := ih hlinked.2 (fun h ↦ hnonnull (List.mem_cons_of_mem _ h))
        (fun other hother ↦ hinner other (List.mem_cons_of_mem _ hother)) fuel
      rw [List.cons_append, innermost_cons, locateLoop_skip hne hframe, hlinked.1.parent]
      simpa using hrest

/-- `seff_locate_handler` returns, and returns the coroutine of the innermost frame that handles the
effect. -/
theorem seffLocateHandler_iff (heffect : effect.toNat < 64) {inner : List Frame} {own : Frame}
    {rest : List Frame} (hlinked : Linked coroutines below (inner ++ own :: rest))
    (hnonnull : 0 ∉ names (inner ++ own :: rest))
    (hinner : ∀ frame ∈ inner, effect ∉ frame.handled) (hown : effect ∈ own.handled)
    {handler : Word} :
    (∃ fuel, seffLocateHandler coroutines (innermost below (inner ++ own :: rest)).1 effect fuel =
      some handler) ↔ handler = own.coroutine := by
  simp only [seffLocateHandler, ne_eq, ne_returnEffectId heffect, not_false_eq_true, ↓reduceIte,
    locateLoop_eq heffect hlinked hnonnull hinner hown]
  constructor
  · rintro ⟨fuel, h⟩
    split_ifs at h
    exact (Option.some.inj h).symm
  · rintro rfl
    exact ⟨inner.length + 1, by simp⟩

end Locating

/-! ### The simulation relation -/

/-- The result registers hold what the last switch delivered. -/
def Delivered (thread : Thread) : Answer Word Word → Prop
  | .nothing => True
  | .argument value => thread.rax = value
  | .request effect payload => thread.rax = effect ∧ thread.rdx = payload

/-- The machine represents the configuration. -/
structure Represents {Id : Type*} (m : Machine Id) (c : Configuration Id) : Prop where
  wellFormed : WellFormed c
  nonnull : ∀ place, 0 ∉ names (c.frames place)
  running : ∀ thread, ((m.threads thread).currentCoroutine, (m.threads thread).context) =
    innermost (0, c.base thread) (c.frames (.active thread))
  active : ∀ thread, Linked m.coroutines (0, c.base thread) (c.frames (.active thread))
  captured : ∀ k inner own, c.frames (.captured k) = inner ++ [own] →
    ((m.coroutines k).resumePoint.currentCoroutine, (m.coroutines k).resumePoint.context) =
      innermost (k, own.context) inner ∧ Linked m.coroutines (k, own.context) inner
  answer : ∀ thread, Delivered (m.threads thread) (c.answer thread)
  finished : ∀ k ∈ c.created, k ∈ c.finished → (m.coroutines k).state = .finished
  paused : ∀ k ∈ c.created, k ∉ c.finished → (m.coroutines k).state = .paused
  entry : ∀ k ∈ c.created, (m.entry k).r13 = k

namespace Represents

variable {Id : Type*} [DecidableEq Id] {m : Machine Id} {c : Configuration Id}

omit [DecidableEq Id] in
/-- A thread that runs no coroutine has no frames. -/
theorem frames_eq_nil_iff (h : Represents m c) (thread : Id) :
    c.frames (.active thread) = [] ↔ (m.threads thread).currentCoroutine = 0 := by
  have hcurrent : (m.threads thread).currentCoroutine = _ := congrArg Prod.fst (h.running thread)
  rw [hcurrent]
  cases hstack : c.frames (.active thread) with
  | nil => simp
  | cons frame rest =>
    have hnonnull := h.nonnull (.active thread)
    simp only [hstack, names_cons, List.mem_cons, not_or] at hnonnull
    simpa using Ne.symm hnonnull.1

theorem compute (h : Represents m c) (thread : Id) (context : Context) (rax rdx : Word) :
    Represents (m.compute thread context rax rdx) (c.compute thread context) := by
  refine ⟨h.wellFormed.compute thread context, fun place ↦ ?_, fun other ↦ ?_, fun other ↦ ?_,
    fun k inner own hframes ↦ ?_, fun other ↦ ?_, h.finished, h.paused, h.entry⟩
  · by_cases hplace : place = .active thread
    · subst hplace
      simpa [Configuration.compute] using h.nonnull (.active thread)
    · rw [c.compute_frames_of_ne hplace]
      exact h.nonnull place
  · by_cases hother : other = thread
    · subst hother
      have hcurrent := congrArg Prod.fst (h.running other)
      simp only [Machine.compute, Configuration.compute, Function.update_self,
        Thread.context_setContext]
      cases hstack : c.frames (.active other) with
      | nil =>
        rw [hstack] at hcurrent
        simpa [setContext, Thread.setContext] using hcurrent
      | cons frame rest =>
        rw [hstack] at hcurrent
        simpa [setContext, Thread.setContext] using hcurrent
    · rw [c.compute_base_of_ne hother, c.compute_frames_of_ne (by simpa using hother)]
      simpa [Machine.compute, hother] using h.running other
  · by_cases hother : other = thread
    · subst hother
      simp only [Machine.compute, Configuration.compute, Function.update_self, linked_setContext]
      split_ifs with hempty
      · rw [hempty]
        trivial
      · exact h.active other
    · rw [c.compute_base_of_ne hother, c.compute_frames_of_ne (by simpa using hother)]
      exact h.active other
  · exact h.captured k inner own (by simpa [Configuration.compute] using hframes)
  · by_cases hother : other = thread
    · subst hother
      simp [Configuration.compute, Delivered]
    · simpa [Configuration.compute, Machine.compute, hother] using h.answer other

omit [DecidableEq Id] in
/-- The coroutine of a frame of another place is not the written one. -/
private theorem notMem_of_ne (h : Represents m c) {k : Word} {place other : Place Id Word}
    (hk : k ∈ names (c.frames place)) (hother : other ≠ place) : k ∉ names (c.frames other) :=
  fun hmem ↦ hother (h.wellFormed.separated.unique _ _ hmem hk)

theorem init (h : Represents m c) {k : Word} (coroutinePrelude fn arg frameSize stack rsp : Word)
    (hk : k ≠ 0) (hfresh : ∀ place, k ∉ names (c.frames place)) :
    Represents (m.init coroutinePrelude k fn arg frameSize stack rsp)
      (c.create k (initialContext coroutinePrelude k fn arg frameSize rsp)) := by
  refine ⟨h.wellFormed.create _ hfresh, fun place ↦ ?_, fun thread ↦ ?_, fun thread ↦ ?_,
    fun other inner own hframes ↦ ?_, h.answer, fun other hcreated hfinished ↦ ?_,
    fun other hcreated hfinished ↦ ?_, fun other hcreated ↦ ?_⟩
  · by_cases hplace : place = .captured k
    · subst hplace
      simpa [Configuration.create] using hk.symm
    · simpa [Configuration.create, Function.update_of_ne hplace] using h.nonnull place
  · simpa [Configuration.create, Machine.init] using h.running thread
  · simpa [Configuration.create, Machine.init] using
      linked_update (hfresh (.active thread)) _ (h.active thread)
  · by_cases hother : other = k
    · subst hother
      simp only [Configuration.create, Function.update_self] at hframes
      obtain ⟨hinner, hown⟩ := List.append_inj' (show [] ++ [_] = inner ++ [own] from hframes) rfl
      obtain rfl := List.singleton_injective hown
      subst hinner
      refine ⟨?_, trivial⟩
      simp only [Machine.init, Function.update_self, seffCoroutineInitSized_context]
      rfl
    · simp only [Configuration.create, ne_eq, Place.captured.injEq, hother, not_false_eq_true,
        Function.update_of_ne] at hframes
      have hold := h.captured other inner own hframes
      have hinner : k ∉ names inner := fun hmem ↦ hfresh (.captured other) (by simp [hframes, hmem])
      simpa [Machine.init, hother] using ⟨hold.1, linked_update hinner _ hold.2⟩
  · by_cases hother : other = k
    · exact absurd hother hfinished.2
    · simpa [Machine.init, hother] using
        h.finished other (Set.mem_of_mem_insert_of_ne hcreated hother) hfinished.1
  · by_cases hother : other = k
    · subst hother
      simp [Machine.init, seffCoroutineInitSized]
    · simpa [Machine.init, hother] using
        h.paused other (Set.mem_of_mem_insert_of_ne hcreated hother)
          fun hmem ↦ hfinished ⟨hmem, hother⟩
  · by_cases hother : other = k
    · subst hother
      simp [Machine.init, Context.calleeSaved, initialContext]
    · simpa [Machine.init, hother] using
        h.entry other (Set.mem_of_mem_insert_of_ne hcreated hother)

theorem resume (h : Represents m c) (thread : Id) {k : Word} (arg handled : Word)
    {inner : List Frame} {own : Frame} (hcaptured : c.frames (.captured k) = inner ++ [own]) :
    Represents (m.switch thread k (seffResume arg handled))
      (c.resume thread k arg (effectSet handled) inner own) := by
  obtain rfl := h.wellFormed.own k inner own hcaptured
  obtain ⟨hpoint, hinner⟩ := h.captured _ inner own hcaptured
  have hk : own.coroutine ∈ names (c.frames (.captured own.coroutine)) := by simp [hcaptured]
  have hnotInner : own.coroutine ∉ names inner := by
    have hnodup := h.wellFormed.separated.nodup (.captured own.coroutine)
    rw [hcaptured, names_append, List.nodup_append] at hnodup
    exact fun hmem ↦ hnodup.2.2 _ hmem own.coroutine (by simp) rfl
  refine ⟨h.wellFormed.resume thread arg _ hcaptured, fun place ↦ ?_, fun other ↦ ?_,
    fun other ↦ ?_, fun other inner' own' hframes ↦ ?_, fun other ↦ ?_,
    fun other hcreated hfinished ↦ ?_, fun other hcreated hfinished ↦ ?_, h.entry⟩
  · by_cases hplace : place = .active thread
    · subst hplace
      have hfront := h.nonnull (.captured own.coroutine)
      have hback := h.nonnull (.active thread)
      simp only [hcaptured, names_append, names_cons, names_nil, List.mem_append,
        List.mem_singleton, not_or] at hfront
      simpa [Configuration.resume] using ⟨hfront.1, hfront.2, hback⟩
    · by_cases hplace' : place = .captured own.coroutine
      · subst hplace'
        simp [Configuration.resume]
      · simpa [Configuration.resume, Function.update_of_ne hplace,
          Function.update_of_ne hplace'] using h.nonnull place
  · by_cases hother : other = thread
    · subst hother
      simpa [Configuration.resume, Machine.switch, innermost_append] using hpoint
    · simpa [Configuration.resume, Machine.switch, hother] using h.running other
  · by_cases hother : other = thread
    · subst hother
      have hrest := linked_update (h.notMem_of_ne hk (by simp))
        (seffResume arg handled (m.threads other) (m.coroutines own.coroutine)).2 (h.active other)
      simp only [Configuration.resume, Machine.switch, Function.update_self]
      refine (linked_append inner _ _).mpr ⟨linked_update hnotInner _ hinner, ⟨?_, ?_, ?_⟩, hrest⟩
      · simpa using congrArg Prod.fst (h.running other)
      · simpa using congrArg Prod.snd (h.running other)
      · simp
    · have hrest := linked_update (h.notMem_of_ne hk (by simp))
        (seffResume arg handled (m.threads thread) (m.coroutines own.coroutine)).2 (h.active other)
      simpa [Configuration.resume, Machine.switch, hother] using hrest
  · by_cases hother : other = own.coroutine
    · subst hother
      simp [Configuration.resume] at hframes
    · simp only [Configuration.resume, ne_eq, reduceCtorEq, not_false_eq_true,
        Function.update_of_ne, Place.captured.injEq, hother] at hframes
      have hold := h.captured other inner' own' hframes
      have hnot : own.coroutine ∉ names inner' := fun hmem ↦
        h.notMem_of_ne hk (show Place.captured other ≠ .captured own.coroutine by simpa) (by
          simp [hframes, hmem])
      simpa [Machine.switch, hother] using ⟨hold.1, linked_update hnot _ hold.2⟩
  · by_cases hother : other = thread
    · subst hother
      simp [Configuration.resume, Machine.switch, Delivered]
    · simpa [Configuration.resume, Machine.switch, hother] using h.answer other
  · rw [Machine.switch_coroutine SeffCoroutine.state fun _ _ ↦ rfl]
    exact h.finished other hcreated hfinished
  · rw [Machine.switch_coroutine SeffCoroutine.state fun _ _ ↦ rfl]
    exact h.paused other hcreated hfinished

omit [DecidableEq Id] in
/-- What the frames above and below a frame of a stack say about its coroutine. -/
theorem split_stack (h : Represents m c) {thread : Id} {inner : List Frame} {own : Frame}
    {rest : List Frame} (hstack : c.frames (.active thread) = inner ++ own :: rest) :
    own.coroutine ∉ names inner ∧ own.coroutine ∉ names rest ∧
      Linked m.coroutines (own.coroutine, own.context) inner ∧
      Below m.coroutines own (innermost (0, c.base thread) rest) ∧
      Linked m.coroutines (0, c.base thread) rest := by
  have hnodup := h.wellFormed.separated.nodup (.active thread)
  have hlinked := h.active thread
  rw [hstack, names_append, names_cons, List.nodup_append, List.nodup_cons] at hnodup
  rw [hstack, linked_append] at hlinked
  exact ⟨fun hmem ↦ hnodup.2.2 _ hmem own.coroutine (by simp) rfl, hnodup.2.1.1, hlinked.1,
    hlinked.2.1, hlinked.2.2⟩

theorem capture (h : Represents m c) {thread : Id} {inner : List Frame} {own : Frame}
    {rest : List Frame} (hstack : c.frames (.active thread) = inner ++ own :: rest)
    (effect payload : Word) :
    Represents (m.switch thread own.coroutine (seffYield effect payload))
      (c.capture thread inner own rest effect payload) := by
  obtain ⟨hnotInner, hnotRest, hinner, hown, hrest⟩ := h.split_stack hstack
  have hk : own.coroutine ∈ names (c.frames (.active thread)) := by simp [hstack]
  have hnull := h.nonnull (.active thread)
  simp only [hstack, names_append, names_cons, List.mem_append, List.mem_cons, not_or] at hnull
  refine ⟨h.wellFormed.capture hstack effect payload, fun place ↦ ?_, fun other ↦ ?_,
    fun other ↦ ?_, fun other inner' own' hframes ↦ ?_, fun other ↦ ?_,
    fun other hcreated hfinished ↦ ?_, fun other hcreated hfinished ↦ ?_, h.entry⟩
  · by_cases hplace : place = .captured own.coroutine
    · subst hplace
      simpa [Configuration.capture] using ⟨hnull.1, hnull.2.1⟩
    · by_cases hplace' : place = .active thread
      · subst hplace'
        simpa [Configuration.capture] using hnull.2.2
      · simpa [Configuration.capture, Function.update_of_ne hplace,
          Function.update_of_ne hplace'] using h.nonnull place
  · by_cases hother : other = thread
    · subst hother
      simp only [Configuration.capture, Machine.switch, Function.update_self,
        seffYield_thread_currentCoroutine, seffYield_thread_context, hown.parent, hown.context]
      simp
    · simpa [Configuration.capture, Machine.switch, hother] using h.running other
  · by_cases hother : other = thread
    · subst hother
      simpa [Configuration.capture, Machine.switch] using linked_update hnotRest _ hrest
    · simpa [Configuration.capture, Machine.switch, hother] using
        linked_update (h.notMem_of_ne hk (by simpa using hother)) _ (h.active other)
  · by_cases hother : other = own.coroutine
    · subst hother
      simp only [Configuration.capture, Function.update_self] at hframes
      obtain ⟨rfl, hlast⟩ := List.append_inj' hframes rfl
      obtain rfl := List.singleton_injective hlast
      have hrunning := h.running thread
      rw [hstack, innermost_append] at hrunning
      simpa [Machine.switch] using ⟨hrunning, linked_update hnotInner _ hinner⟩
    · simp only [Configuration.capture, ne_eq, reduceCtorEq, not_false_eq_true,
        Function.update_of_ne, Place.captured.injEq, hother] at hframes
      have hold := h.captured other inner' own' hframes
      have hnot : own.coroutine ∉ names inner' := fun hmem ↦
        h.notMem_of_ne hk (show Place.captured other ≠ .active thread by simp) (by
          simp [hframes, hmem])
      simpa [Machine.switch, hother] using ⟨hold.1, linked_update hnot _ hold.2⟩
  · by_cases hother : other = thread
    · subst hother
      simp [Configuration.capture, Machine.switch, Delivered]
    · simpa [Configuration.capture, Machine.switch, hother] using h.answer other
  · rw [Machine.switch_coroutine SeffCoroutine.state fun _ _ ↦ rfl]
    exact h.finished other hcreated hfinished
  · rw [Machine.switch_coroutine SeffCoroutine.state fun _ _ ↦ rfl]
    exact h.paused other hcreated hfinished

theorem discard (h : Represents m c) (ndebug : Bool) {thread : Id} {inner : List Frame}
    {own : Frame} {rest : List Frame}
    (hstack : c.frames (.active thread) = inner ++ own :: rest) (effect payload : Word) :
    Represents (m.switch thread own.coroutine (seffExit ndebug effect payload))
      (c.discard thread inner own rest effect payload) := by
  obtain ⟨-, hnotRest, -, hown, hrest⟩ := h.split_stack hstack
  have hk : own.coroutine ∈ names (c.frames (.active thread)) := by simp [hstack]
  have hnull := h.nonnull (.active thread)
  simp only [hstack, names_append, names_cons, List.mem_append, List.mem_cons, not_or] at hnull
  refine ⟨h.wellFormed.discard hstack effect payload, fun place ↦ ?_, fun other ↦ ?_,
    fun other ↦ ?_, fun other inner' own' hframes ↦ ?_, fun other ↦ ?_,
    fun other hcreated hfinished ↦ ?_, fun other hcreated hfinished ↦ ?_, h.entry⟩
  · by_cases hplace : place = .active thread
    · subst hplace
      simpa [Configuration.discard] using hnull.2.2
    · simpa [Configuration.discard, Function.update_of_ne hplace] using h.nonnull place
  · by_cases hother : other = thread
    · subst hother
      simp only [Configuration.discard, Machine.switch, Function.update_self,
        seffExit_thread_currentCoroutine, seffExit_thread_context, hown.parent, hown.context]
    · simpa [Configuration.discard, Machine.switch, hother] using h.running other
  · by_cases hother : other = thread
    · subst hother
      simpa [Configuration.discard, Machine.switch] using linked_update hnotRest _ hrest
    · simpa [Configuration.discard, Machine.switch, hother] using
        linked_update (h.notMem_of_ne hk (by simpa using hother)) _ (h.active other)
  · simp only [Configuration.discard, ne_eq, reduceCtorEq, not_false_eq_true,
      Function.update_of_ne] at hframes
    have hold := h.captured other inner' own' hframes
    have hnot : own.coroutine ∉ names (c.frames (.captured other)) :=
      h.notMem_of_ne hk (by simp)
    have hother : other ≠ own.coroutine := by
      rintro rfl
      exact hnot (h.wellFormed.mem_names_captured fun hnil ↦ by simp [hnil] at hframes)
    have hnotInner : own.coroutine ∉ names inner' := fun hmem ↦ hnot (by simp [hframes, hmem])
    simpa [Machine.switch, hother] using ⟨hold.1, linked_update hnotInner _ hold.2⟩
  · by_cases hother : other = thread
    · subst hother
      simp [Configuration.discard, Machine.switch, Delivered]
    · simpa [Configuration.discard, Machine.switch, hother] using h.answer other
  · by_cases hother : other = own.coroutine
    · subst hother
      simp [Machine.switch]
    · simpa [Machine.switch, hother] using
        h.finished other hcreated (Set.mem_of_mem_insert_of_ne hfinished hother)
  · by_cases hother : other = own.coroutine
    · subst hother
      exact absurd (Set.mem_insert _ _) hfinished
    · simpa [Machine.switch, hother] using
        h.paused other hcreated fun hmem ↦ hfinished (Set.mem_insert_of_mem _ hmem)

end Represents

/-! ### Runs -/

section Runs

variable {Id : Type*} [DecidableEq Id] (coroutinePrelude : Word) (ndebug : Bool)

/-- All threads are at the top level and no coroutine exists. -/
structure Start (m : Machine Id) (c : Configuration Id) : Prop where
  topLevel : ∀ thread, (m.threads thread).currentCoroutine = 0
  frames : ∀ place, c.frames place = []
  base : ∀ thread, c.base thread = (m.threads thread).context
  answer : ∀ thread, c.answer thread = .nothing
  created : c.created = ∅

/-- The operations a program may do besides resuming: a coroutine is initialised in memory that
holds no live coroutine, an active coroutine is yielded to or exited, an effect is performed or
thrown that an active coroutine handles, and a start function returns with the callee-saved
registers it was entered with. -/
def Permitted (resumable : Machine Id → Configuration Id → Word → Prop) (m : Machine Id)
    (c : Configuration Id) : Operation Id → Prop
  | .compute .. => True
  | .init k .. => k ≠ 0 ∧ ∀ place, k ∉ names (c.frames place)
  | .resume _ k _ _ => resumable m c k
  | .yield thread k _ _ | .exit thread k _ _ => k ∈ names (c.frames (.active thread))
  | .perform thread effect _ | .throw thread effect _ =>
    effect.toNat < 64 ∧ ∃ frame ∈ c.frames (.active thread), effect ∈ frame.handled
  | .ret thread _ => ∃ own rest, c.frames (.active thread) = own :: rest ∧
    (m.threads thread).context.calleeSaved = m.entry own.coroutine

/-- A coroutine that its own `state` field and the frames of the others allow to be resumed: it is
not finished, not active and not enclosed in the frames of another suspended coroutine. -/
def NotFinished (m : Machine Id) (c : Configuration Id) (k : Word) : Prop :=
  k ∈ c.created ∧ (m.coroutines k).state ≠ .finished ∧ ¬ c.Active k ∧ ¬ c.Enclosed k

/-- A coroutine that moreover no exit to an enclosing handler discarded. -/
def Resumable (m : Machine Id) (c : Configuration Id) (k : Word) : Prop :=
  NotFinished m c k ∧ k ∉ c.discarded

/-- The machine and the configuration it represents, run side by side. -/
def pairedSystem : TransitionSystem (Machine Id × Configuration Id) (Operation Id) where
  initial state := Start state.1 state.2
  step state operation next := state.1.Step coroutinePrelude ndebug operation next.1 ∧
    Step state.2 (operation.action coroutinePrelude) next.2

/-- Along every run of permitted operations the machine represents the configuration, every
permitted operation takes a step, and every step it takes is one of the handler semantics. -/
def Simulates (resumable : Machine Id → Configuration Id → Word → Prop) : Prop :=
  ∀ operations m c, (pairedSystem coroutinePrelude ndebug).Run
      (fun state operation ↦ Permitted resumable state.1 state.2 operation) operations (m, c) →
    Represents m c ∧ ∀ operation, Permitted resumable m c operation →
      (∃ next, m.Step coroutinePrelude ndebug operation next) ∧
      ∀ next, m.Step coroutinePrelude ndebug operation next →
        ∃ c', Step c (operation.action coroutinePrelude) c' ∧ Represents next c'

variable {coroutinePrelude ndebug} {m : Machine Id} {c : Configuration Id}

omit [DecidableEq Id] in
theorem Represents.start (h : Start m c) : Represents m c where
  wellFormed :=
    { separated := ⟨fun place ↦ by simp [h.frames], fun _ _ _ ↦ by simp [h.frames]⟩
      own := fun k inner own hframes ↦ by simp [h.frames] at hframes
      present := fun k ⟨place, hmem⟩ ↦ by simp [h.frames] at hmem
      accounted := fun k hcreated ↦ by simp [h.created] at hcreated
      gone := fun k ⟨place, hmem⟩ ↦ by simp [h.frames] at hmem }
  nonnull place := by simp [h.frames]
  running thread := by simp [h.frames, h.base, h.topLevel]
  active thread := by simp [h.frames, Linked]
  captured k inner own hframes := by simp [h.frames] at hframes
  answer thread := by simp [h.answer, Delivered]
  finished k hcreated := by simp [h.created] at hcreated
  paused k hcreated := by simp [h.created] at hcreated
  entry k hcreated := by simp [h.created] at hcreated

omit [DecidableEq Id] in
/-- A resumable coroutine is suspended. -/
theorem Represents.suspended (h : Represents m c) {k : Word} (hk : Resumable m c k) :
    ∃ inner own, c.frames (.captured k) = inner ++ [own] := by
  obtain ⟨⟨hcreated, hstate, hactive, henclosed⟩, hdiscarded⟩ := hk
  have hfinished : k ∉ c.finished := fun hmem ↦ hstate (h.finished k hcreated hmem)
  have hsuspended := h.wellFormed.suspended_of_not hcreated hactive henclosed hfinished hdiscarded
  exact List.eq_nil_or_concat' _ |>.resolve_left hsuspended

omit [DecidableEq Id] in
/-- On a represented machine `seff_locate_handler` finds the innermost handler. -/
theorem Represents.locates_iff (h : Represents m c) {thread : Id} {effect : Word}
    (heffect : effect.toNat < 64) {inner : List Frame} {own : Frame} {rest : List Frame}
    (hstack : c.frames (.active thread) = inner ++ own :: rest)
    (hinner : ∀ frame ∈ inner, effect ∉ frame.handled) (hown : effect ∈ own.handled)
    (handler : Word) : m.Locates thread effect handler ↔ handler = own.coroutine := by
  have hlinked := h.active thread
  have hnonnull := h.nonnull (.active thread)
  rw [hstack] at hlinked hnonnull
  have hcurrent : (m.threads thread).currentCoroutine = _ := congrArg Prod.fst (h.running thread)
  rw [Machine.Locates, hcurrent, hstack]
  exact seffLocateHandler_iff heffect hlinked hnonnull hinner hown

/-- A run goes on with a permitted operation that both take. -/
theorem run_step {resumable : Machine Id → Configuration Id → Word → Prop}
    {operations : List (Operation Id)} (operation : Operation Id) {next : Machine Id}
    {c' : Configuration Id}
    (hrun : (pairedSystem coroutinePrelude ndebug).Run
      (fun state operation ↦ Permitted resumable state.1 state.2 operation) operations (m, c))
    (hpermitted : Permitted resumable m c operation)
    (hmachine : m.Step coroutinePrelude ndebug operation next)
    (hstep : Step c (operation.action coroutinePrelude) c') :
    (pairedSystem coroutinePrelude ndebug).Run
      (fun state operation ↦ Permitted resumable state.1 state.2 operation)
      (operations ++ [operation]) (next, c') :=
  hrun.step hpermitted ⟨hmachine, hstep⟩

/-- A permitted operation takes a step of the machine and one of the handler semantics. -/
theorem Represents.enabled (h : Represents m c) {operation : Operation Id}
    (hpermitted : Permitted Resumable m c operation) :
    (∃ next, m.Step coroutinePrelude ndebug operation next) ∧
      ∃ c', Step c (operation.action coroutinePrelude) c' := by
  have hlocated : ∀ thread effect, effect.toNat < 64 →
      (∃ frame ∈ c.frames (.active thread), effect ∈ frame.handled) →
        ∃ inner own rest, c.frames (.active thread) = inner ++ own :: rest ∧
          (∀ frame ∈ inner, effect ∉ frame.handled) ∧ effect ∈ own.handled ∧
          m.Locates thread effect own.coroutine ∧ own.coroutine ≠ 0 := by
    intro thread effect heffect hhandled
    obtain ⟨inner, own, rest, hstack, hinner, hown⟩ := exists_innermost hhandled
    refine ⟨inner, own, rest, hstack, hinner, hown,
      (h.locates_iff heffect hstack hinner hown _).mpr rfl, fun hnull ↦ ?_⟩
    exact h.nonnull (.active thread) (by simp [hstack, hnull])
  cases operation with
  | compute thread context rax rdx => exact ⟨⟨_, rfl⟩, _, .compute thread context⟩
  | init k fn arg frameSize stack rsp => exact ⟨⟨_, rfl⟩, _, .create k _ hpermitted.2⟩
  | resume thread k arg handled =>
    obtain ⟨inner, own, hcaptured⟩ := h.suspended hpermitted
    exact ⟨⟨_, rfl⟩, _, .resume thread k arg _ hcaptured⟩
  | yield thread k effect payload =>
    obtain ⟨own, hmem, rfl⟩ := List.mem_map.mp hpermitted
    obtain ⟨inner, rest, hstack⟩ := List.append_of_mem hmem
    exact ⟨⟨_, rfl⟩, _, .yield thread effect payload hstack⟩
  | perform thread effect payload =>
    obtain ⟨inner, own, rest, hstack, hinner, hown, hlocates, hnonnull⟩ :=
      hlocated thread effect hpermitted.1 hpermitted.2
    exact ⟨⟨_, own.coroutine, hlocates, hnonnull, rfl⟩, _,
      .perform thread effect payload hstack hinner hown⟩
  | exit thread k effect payload =>
    obtain ⟨own, hmem, rfl⟩ := List.mem_map.mp hpermitted
    obtain ⟨inner, rest, hstack⟩ := List.append_of_mem hmem
    exact ⟨⟨_, rfl⟩, _, .exit thread effect payload hstack⟩
  | throw thread effect payload =>
    obtain ⟨inner, own, rest, hstack, hinner, hown, hlocates, hnonnull⟩ :=
      hlocated thread effect hpermitted.1 hpermitted.2
    exact ⟨⟨_, own.coroutine, hlocates, hnonnull, rfl⟩, _,
      .throw thread effect payload hstack hinner hown⟩
  | ret thread result =>
    obtain ⟨own, rest, hstack, -⟩ := hpermitted
    exact ⟨⟨_, rfl⟩, _, .finish thread returnEffectId result hstack⟩

/-- A permitted operation keeps the machine and the configuration related. -/
theorem Represents.step (h : Represents m c) {operation : Operation Id}
    (hpermitted : Permitted Resumable m c operation) {next : Machine Id} {c' : Configuration Id}
    (hmachine : m.Step coroutinePrelude ndebug operation next)
    (hstep : Step c (operation.action coroutinePrelude) c') : Represents next c' := by
  cases operation with
  | compute thread context rax rdx =>
    cases hmachine
    cases hstep
    exact h.compute thread context rax rdx
  | init k fn arg frameSize stack rsp =>
    cases hmachine
    cases hstep with
    | create _ _ hfresh =>
      exact h.init coroutinePrelude fn arg frameSize stack rsp hpermitted.1 hfresh
  | resume thread k arg handled =>
    cases hmachine
    cases hstep with
    | resume _ _ _ _ hcaptured => exact h.resume thread arg handled hcaptured
  | yield thread k effect payload =>
    cases hmachine
    cases hstep with
    | yield _ _ _ hstack => exact h.capture hstack effect payload
  | perform thread effect payload =>
    obtain ⟨handler, hlocates, -, rfl⟩ := hmachine
    cases hstep with
    | perform _ _ _ hstack hinner hown =>
      obtain rfl := (h.locates_iff hpermitted.1 hstack hinner hown handler).mp hlocates
      exact h.capture hstack effect payload
  | exit thread k effect payload =>
    cases hmachine
    cases hstep with
    | exit _ _ _ hstack => exact h.discard ndebug hstack effect payload
  | throw thread effect payload =>
    obtain ⟨handler, hlocates, -, rfl⟩ := hmachine
    cases hstep with
    | throw _ _ _ hstack hinner hown =>
      obtain rfl := (h.locates_iff hpermitted.1 hstack hinner hown handler).mp hlocates
      exact h.discard ndebug hstack effect payload
  | ret thread result =>
    cases hmachine
    cases hstep with
    | @finish _ _ _ own rest hstack =>
      obtain ⟨own', rest', hstack', hsaved⟩ := hpermitted
      obtain ⟨rfl, rfl⟩ := List.cons.inj (hstack.symm.trans hstack')
      have hcreated : own.coroutine ∈ c.created :=
        h.wellFormed.present _ ⟨.active thread, by simp [hstack]⟩
      -- the start function restored `%r13`, which `coroutine_prelude` entered with the coroutine
      have hself : (m.threads thread).r13 = own.coroutine := by
        rw [← h.entry _ hcreated, ← hsaved]
        rfl
      rw [hself]
      exact h.discard ndebug (show _ = [] ++ _ from hstack) returnEffectId result

/-- Along a run of permitted operations the machine represents the configuration. -/
theorem represents_of_run {operations : List (Operation Id)}
    (hrun : (pairedSystem coroutinePrelude ndebug).Run
      (fun state operation ↦ Permitted Resumable state.1 state.2 operation) operations (m, c)) :
    Represents m c :=
  hrun.invariant (fun _ hstart ↦ Represents.start hstart)
    fun _ _ _ h hpermitted hstep ↦ h.step hpermitted hstep.1 hstep.2

/-- The switching routines implement shallow handlers along every run of permitted operations, for
any number of threads. -/
theorem seffSwitch_simulates (Id : Type*) [DecidableEq Id] (coroutinePrelude : Word)
    (ndebug : Bool) : Simulates coroutinePrelude ndebug (@Resumable Id) := by
  intro operations m c hrun
  have h := represents_of_run hrun
  refine ⟨h, fun operation hpermitted ↦ ?_⟩
  obtain ⟨hmachine, c', hstep⟩ := h.enabled hpermitted
  exact ⟨hmachine, fun next hnext ↦ ⟨c', hstep, h.step hpermitted hnext hstep⟩⟩

end Runs

/-! ### A discarded coroutine -/

section Discarded

/-- A machine of one thread at the top level, with zeroed memory. -/
def zeroMachine : Machine Unit where
  threads _ := ⟨0, 0, 0, 0, 0, 0, 0, 0, 0, 0, 0, 0, 0⟩
  coroutines _ := ⟨0, ⟨0, 0, 0, 0, 0, 0, 0, 0, 0, 0⟩, .finished, 0, 0⟩
  entry _ := ⟨0, 0, 0, 0, 0, 0⟩

/-- The configuration of a machine at the top level. -/
def zeroConfiguration : Configuration Unit where
  frames _ := []
  base _ := ⟨0, 0, 0, 0, 0, 0, 0, 0, 0⟩
  answer _ := .nothing
  created := ∅
  finished := ∅
  discarded := ∅

/-- The frame of a new coroutine. -/
def newFrame (k : Word) : Frame := ⟨k, ∅, initialContext 0 k 0 0 0 0⟩

/-- A coroutine that is neither active nor enclosed. -/
def Idle (c : Configuration Unit) (k : Word) : Prop :=
  k ∈ c.created ∧ ¬ c.Active k ∧ ¬ c.Enclosed k

/-- A coroutine is idle when no other place holds a frame of it. -/
theorem idle_of_frames {c : Configuration Unit} {k : Word} (hcreated : k ∈ c.created)
    (hframes : ∀ place, place ≠ .captured k → k ∉ names (c.frames place)) : Idle c k := by
  refine ⟨hcreated, ?_, ?_⟩
  · rintro ⟨thread, hmem⟩
    exact hframes _ (by simp) hmem
  · rintro ⟨other, hother, hmem⟩
    exact hframes _ (by simpa using hother) hmem

/-- Coroutine 1 resumes coroutine 2, which exits coroutine 1. Coroutine 2 is idle then, and owns no
frames. -/
theorem exists_exitEnclosing (first second : Context) : ∃ c₁ c₂ c₃ c₄ c₅ : Configuration Unit,
    Step zeroConfiguration (.create 1 first) c₁ ∧ Step c₁ (.resume () 1 0 (effectSet 0)) c₂ ∧
    Step c₂ (.create 2 second) c₃ ∧ Step c₃ (.resume () 2 0 (effectSet 0)) c₄ ∧
    Step c₄ (.exit () 1 0 0) c₅ ∧ Idle c₁ 1 ∧ (∀ place, 2 ∉ names (c₂.frames place)) ∧
    Idle c₃ 2 ∧ 1 ∈ names (c₄.frames (.active ())) ∧ Idle c₅ 2 ∧
    c₅.frames (.captured 2) = [] := by
  let outer : Frame := ⟨1, effectSet 0, first⟩
  let inner : Frame := ⟨2, effectSet 0, second⟩
  let c₁ := zeroConfiguration.create 1 first
  let c₂ := c₁.resume () 1 0 (effectSet 0) [] ⟨1, ∅, first⟩
  let c₃ := c₂.create 2 second
  let c₄ := c₃.resume () 2 0 (effectSet 0) [] ⟨2, ∅, second⟩
  let c₅ := c₄.discard () [inner] outer [] 0 0
  have hframes₁ : ∀ place, c₁.frames place =
      if place = .captured 1 then [⟨1, ∅, first⟩] else [] := by
    intro place
    simp [c₁, Configuration.create, zeroConfiguration, Function.update_apply]
  have hframes₂ : ∀ place, c₂.frames place = if place = .active () then [outer] else [] := by
    intro place
    simp only [c₂, Configuration.resume, Function.update_apply, hframes₁]
    split_ifs <;> simp_all [outer]
  have hframes₃ : ∀ place, c₃.frames place = if place = .captured 2 then [⟨2, ∅, second⟩] else
      if place = .active () then [outer] else [] := by
    intro place
    simp [c₃, Configuration.create, Function.update_apply, hframes₂]
  have hframes₄ : ∀ place, c₄.frames place =
      if place = .active () then [inner, outer] else [] := by
    intro place
    simp only [c₄, Configuration.resume, Function.update_apply, hframes₃]
    split_ifs <;> simp_all [outer, inner]
  have hframes₅ : ∀ place, c₅.frames place = [] := by
    intro place
    simp only [c₅, Configuration.discard, Function.update_apply, hframes₄]
    split_ifs <;> rfl
  have hcreated : ∀ k ∈ c₃.created, k ∈ c₅.created := fun _ hmem ↦ hmem
  have hfresh : ∀ place, (2 : Word) ∉ names (c₂.frames place) := by
    intro place
    rw [hframes₂]
    split_ifs <;> simp [outer]
  refine ⟨c₁, c₂, c₃, c₄, c₅, .create 1 _ fun place ↦ by simp [zeroConfiguration],
    .resume () 1 0 _ (show _ = [] ++ [_] by simp [hframes₁]), .create 2 _ hfresh,
    .resume () 2 0 _ (show _ = [] ++ [_] by simp [hframes₃]),
    .exit () 0 0 (show _ = [inner] ++ outer :: [] by simp [hframes₄]),
    idle_of_frames (Set.mem_insert _ _) fun place hplace ↦ ?_, hfresh,
    idle_of_frames (Set.mem_insert _ _) fun place hplace ↦ ?_, ?_,
    idle_of_frames (hcreated _ (Set.mem_insert _ _)) fun place _ ↦ ?_, hframes₅ _⟩
  · rw [hframes₁, if_neg hplace]
    simp
  · rw [hframes₃, if_neg hplace]
    split_ifs <;> simp [outer]
  · simp [hframes₄, outer, inner]
  · simp [hframes₅]

/-- The operations of this scenario. -/
def exitEnclosing : List (Operation Unit) :=
  [.init 1 0 0 0 0 0, .resume () 1 0 0, .init 2 0 0 0 0 0, .resume () 2 0 0, .exit () 1 0 0]

theorem run_exitEnclosing : ∃ m c, (pairedSystem 0 false).Run
    (fun state operation ↦ Permitted NotFinished state.1 state.2 operation) exitEnclosing (m, c) ∧
      NotFinished m c 2 ∧ c.frames (.captured 2) = [] := by
  obtain ⟨c₁, c₂, c₃, c₄, c₅, h₁, h₂, h₃, h₄, h₅, hidle₁, hfresh, hidle₃, hactive, hidle₅,
    hempty⟩ := exists_exitEnclosing (newFrame 1).context (newFrame 2).context
  have hstart : (pairedSystem 0 false).Run
      (fun state operation ↦ Permitted NotFinished state.1 state.2 operation) []
        (zeroMachine, zeroConfiguration) :=
    .start ⟨fun _ ↦ rfl, fun _ ↦ rfl, fun _ ↦ rfl, fun _ ↦ rfl, rfl⟩
  have hrun₁ := run_step (.init 1 0 0 0 0 0) hstart
    ⟨by decide, fun place ↦ by simp [zeroConfiguration]⟩ rfl h₁
  have hrun₂ := run_step (.resume () 1 0 0) hrun₁ ⟨hidle₁.1, by decide, hidle₁.2⟩ rfl h₂
  have hrun₃ := run_step (.init 2 0 0 0 0 0) hrun₂ ⟨by decide, hfresh⟩ rfl h₃
  have hrun₄ := run_step (.resume () 2 0 0) hrun₃ ⟨hidle₃.1, by decide, hidle₃.2⟩ rfl h₄
  have hrun₅ := run_step (.exit () 1 0 0) hrun₄ hactive rfl h₅
  exact ⟨_, c₅, hrun₅, ⟨hidle₅.1, by decide, hidle₅.2⟩, hempty⟩

/-- Without the condition on discarded coroutines the switching routines do not implement shallow
handlers: a coroutine whose resumer was exited has no frames to put back, and yet neither its state
field nor the frames of the others forbid to resume it. -/
theorem not_simulates_of_discarded : ¬ Simulates 0 false (@NotFinished Unit) := by
  intro h
  obtain ⟨m, c, hrun, hresumable, hempty⟩ := run_exitEnclosing
  obtain ⟨⟨next, hnext⟩, hstep⟩ := (h _ _ _ hrun).2 (.resume () 2 0 0) hresumable
  obtain ⟨c', hresume, -⟩ := hstep next hnext
  cases hresume with
  | resume _ _ _ _ hcaptured => exact absurd (hempty.symm.trans hcaptured) (by simp)

end Discarded

end Libseff.Coroutine
