import Libseff.Foundation.Runs
import Libseff.Foundation.SeparatedLists
import Mathlib.Data.Set.Insert

/-!
# Shallow effect handlers over lists of frames

The semantics of asymmetric coroutines with shallow effect handlers and one-shot delimited
continuations. Every thread runs a stack of frames, innermost first, over a base context. A frame
belongs to a coroutine and carries the set of effects its resumer handles and the context of its
code. A suspended coroutine owns the list of frames it captured: they end in its own frame.

`Configuration.resume` puts the captured frames of a coroutine back on top of a stack and replaces
the handled set of the coroutine's own frame. `Configuration.capture` takes the frames from the top
of a stack down to and including one frame away and gives them to the coroutine of that frame, and
`Configuration.discard` throws them away: the coroutine of that last frame is finished, and those of
the frames above it are discarded. `Step` says which frame each action picks: performing an effect
picks the innermost frame that handles it.

In a well-formed configuration no coroutine has two frames (`WellFormed`), every step keeps it so
(`WellFormed.step`), and a created coroutine is exactly one of active, suspended, enclosed in the
frames of another suspended coroutine, finished, and discarded. What is none of the other four is
suspended (`WellFormed.suspended_of_not`).
-/

set_option autoImplicit false
set_option relaxedAutoImplicit false

namespace Libseff.Foundation.ShallowHandlers

/-- One activation of a coroutine: the effects its resumer handles, and the context of its code. -/
@[ext] structure Frame (Coroutine Effect Context : Type*) where
  coroutine : Coroutine
  handled : Set Effect
  context : Context

/-- Where a frame can be: on the stack of a thread, or captured by a suspended coroutine. -/
inductive Place (Thread Coroutine : Type*)
  | active (thread : Thread)
  | captured (coroutine : Coroutine)
  deriving DecidableEq

/-- What the last switch delivered to the code it switched to: the argument of a resumption, or the
effect and payload of a request. -/
inductive Answer (Effect Value : Type*)
  | nothing
  | argument (value : Value)
  | request (effect : Effect) (payload : Value)

/-- The frames of every place, innermost first, with the context below every stack, what was last
delivered to every thread, and the coroutines created, finished and discarded so far. -/
structure Configuration (Thread Coroutine Effect Context Value : Type*) where
  frames : Place Thread Coroutine → List (Frame Coroutine Effect Context)
  base : Thread → Context
  answer : Thread → Answer Effect Value
  created : Set Coroutine
  finished : Set Coroutine
  discarded : Set Coroutine

/-- The actions of a run. -/
inductive Action (Thread Coroutine Effect Context Value : Type*)
  | compute (thread : Thread) (context : Context)
  | create (coroutine : Coroutine) (context : Context)
  | resume (thread : Thread) (coroutine : Coroutine) (value : Value) (handled : Set Effect)
  | yield (thread : Thread) (coroutine : Coroutine) (effect : Effect) (payload : Value)
  | perform (thread : Thread) (effect : Effect) (payload : Value)
  | exit (thread : Thread) (coroutine : Coroutine) (effect : Effect) (payload : Value)
  | throw (thread : Thread) (effect : Effect) (payload : Value)
  | finish (thread : Thread) (effect : Effect) (payload : Value)

section Lists

variable {Coroutine Effect Context : Type*}

/-- The coroutines of a list of frames. -/
def names (frames : List (Frame Coroutine Effect Context)) : List Coroutine :=
  frames.map Frame.coroutine

/-- The innermost frame gets a new context. -/
def setContext (context : Context) :
    List (Frame Coroutine Effect Context) → List (Frame Coroutine Effect Context)
  | [] => []
  | frame :: rest => { frame with context := context } :: rest

@[simp] theorem names_nil : names ([] : List (Frame Coroutine Effect Context)) = [] := rfl

@[simp] theorem names_cons (frame : Frame Coroutine Effect Context)
    (rest : List (Frame Coroutine Effect Context)) :
    names (frame :: rest) = frame.coroutine :: names rest := rfl

@[simp] theorem names_append (inner outer : List (Frame Coroutine Effect Context)) :
    names (inner ++ outer) = names inner ++ names outer := List.map_append

theorem last_eq {inner outer : List (Frame Coroutine Effect Context)}
    {first second : Frame Coroutine Effect Context} (h : inner ++ [first] = outer ++ [second]) :
    first = second :=
  List.singleton_injective (List.append_inj' h rfl).2

@[simp] theorem names_setContext (context : Context)
    (frames : List (Frame Coroutine Effect Context)) :
    names (setContext context frames) = names frames := by
  cases frames <;> rfl

end Lists

variable {Thread Coroutine Effect Context Value : Type*} [DecidableEq Thread]
  [DecidableEq Coroutine]

namespace Configuration

/-- The code that runs on a thread computes: its context changes. -/
def compute (c : Configuration Thread Coroutine Effect Context Value) (thread : Thread)
    (context : Context) : Configuration Thread Coroutine Effect Context Value :=
  { c with
    frames := Function.update c.frames (.active thread)
      (setContext context (c.frames (.active thread)))
    base := if c.frames (.active thread) = [] then Function.update c.base thread context
      else c.base
    answer := Function.update c.answer thread .nothing }

theorem compute_base_of_ne (c : Configuration Thread Coroutine Effect Context Value)
    {thread other : Thread} (hother : other ≠ thread) (context : Context) :
    (c.compute thread context).base other = c.base other := by
  simp only [compute]
  split_ifs
  · exact Function.update_of_ne hother _ _
  · rfl

theorem compute_frames_of_ne (c : Configuration Thread Coroutine Effect Context Value)
    {thread : Thread} {place : Place Thread Coroutine} (hplace : place ≠ .active thread)
    (context : Context) : (c.compute thread context).frames place = c.frames place :=
  Function.update_of_ne hplace _ _

/-- Code at the top level has no frame. -/
theorem compute_frames_of_nil (c : Configuration Thread Coroutine Effect Context Value)
    {thread : Thread} (hstack : c.frames (.active thread) = []) (context : Context) :
    (c.compute thread context).frames = c.frames := by
  simp only [compute, hstack, setContext]
  rw [← hstack, Function.update_eq_self]

/-- A new coroutine is suspended with one frame, its own. -/
def create (c : Configuration Thread Coroutine Effect Context Value) (coroutine : Coroutine)
    (context : Context) : Configuration Thread Coroutine Effect Context Value :=
  { c with
    frames := Function.update c.frames (.captured coroutine) [⟨coroutine, ∅, context⟩]
    created := insert coroutine c.created
    finished := c.finished \ {coroutine}
    discarded := c.discarded \ {coroutine} }

/-- The captured frames `inner ++ [own]` of a coroutine are put back on top of a stack, and its own
frame gets a new handled set. -/
def resume (c : Configuration Thread Coroutine Effect Context Value) (thread : Thread)
    (coroutine : Coroutine) (value : Value) (handled : Set Effect)
    (inner : List (Frame Coroutine Effect Context)) (own : Frame Coroutine Effect Context) :
    Configuration Thread Coroutine Effect Context Value :=
  { c with
    frames := Function.update (Function.update c.frames (.captured coroutine) []) (.active thread)
      (inner ++ { own with handled := handled } :: c.frames (.active thread))
    answer := Function.update c.answer thread (.argument value) }

/-- The frames `inner ++ [own]` on top of a stack are captured by the coroutine of `own`. -/
def capture (c : Configuration Thread Coroutine Effect Context Value) (thread : Thread)
    (inner : List (Frame Coroutine Effect Context)) (own : Frame Coroutine Effect Context)
    (rest : List (Frame Coroutine Effect Context)) (effect : Effect) (payload : Value) :
    Configuration Thread Coroutine Effect Context Value :=
  { c with
    frames := Function.update (Function.update c.frames (.active thread) rest)
      (.captured own.coroutine) (inner ++ [own])
    answer := Function.update c.answer thread (.request effect payload) }

/-- The frames `inner ++ [own]` on top of a stack are thrown away. -/
def discard (c : Configuration Thread Coroutine Effect Context Value) (thread : Thread)
    (inner : List (Frame Coroutine Effect Context)) (own : Frame Coroutine Effect Context)
    (rest : List (Frame Coroutine Effect Context)) (effect : Effect) (payload : Value) :
    Configuration Thread Coroutine Effect Context Value :=
  { c with
    frames := Function.update c.frames (.active thread) rest
    answer := Function.update c.answer thread (.request effect payload)
    finished := insert own.coroutine c.finished
    discarded := c.discarded ∪ {coroutine | coroutine ∈ names inner} }

/-- The coroutine has a frame on the stack of some thread. -/
def Active (c : Configuration Thread Coroutine Effect Context Value) (coroutine : Coroutine) :
    Prop :=
  ∃ thread, coroutine ∈ names (c.frames (.active thread))

/-- The coroutine owns captured frames. -/
def Suspended (c : Configuration Thread Coroutine Effect Context Value) (coroutine : Coroutine) :
    Prop :=
  c.frames (.captured coroutine) ≠ []

/-- The coroutine has a frame among those another suspended coroutine captured. -/
def Enclosed (c : Configuration Thread Coroutine Effect Context Value) (coroutine : Coroutine) :
    Prop :=
  ∃ other, other ≠ coroutine ∧ coroutine ∈ names (c.frames (.captured other))

end Configuration

open ShallowHandlers.Configuration

/-- The steps of the semantics. -/
inductive Step : Configuration Thread Coroutine Effect Context Value →
    Action Thread Coroutine Effect Context Value →
    Configuration Thread Coroutine Effect Context Value → Prop
  | compute {c : Configuration Thread Coroutine Effect Context Value} (thread : Thread)
      (context : Context) : Step c (.compute thread context) (c.compute thread context)
  | create {c : Configuration Thread Coroutine Effect Context Value} (coroutine : Coroutine)
      (context : Context) (hfresh : ∀ place, coroutine ∉ names (c.frames place)) :
      Step c (.create coroutine context) (c.create coroutine context)
  | resume {c : Configuration Thread Coroutine Effect Context Value} (thread : Thread)
      (coroutine : Coroutine) (value : Value) (handled : Set Effect)
      {inner : List (Frame Coroutine Effect Context)} {own : Frame Coroutine Effect Context}
      (hcaptured : c.frames (.captured coroutine) = inner ++ [own]) :
      Step c (.resume thread coroutine value handled)
        (c.resume thread coroutine value handled inner own)
  | yield {c : Configuration Thread Coroutine Effect Context Value} (thread : Thread)
      (effect : Effect) (payload : Value)
      {inner : List (Frame Coroutine Effect Context)} {own : Frame Coroutine Effect Context}
      {rest : List (Frame Coroutine Effect Context)}
      (hstack : c.frames (.active thread) = inner ++ own :: rest) :
      Step c (.yield thread own.coroutine effect payload)
        (c.capture thread inner own rest effect payload)
  | perform {c : Configuration Thread Coroutine Effect Context Value} (thread : Thread)
      (effect : Effect) (payload : Value)
      {inner : List (Frame Coroutine Effect Context)} {own : Frame Coroutine Effect Context}
      {rest : List (Frame Coroutine Effect Context)}
      (hstack : c.frames (.active thread) = inner ++ own :: rest)
      (hinner : ∀ frame ∈ inner, effect ∉ frame.handled) (hown : effect ∈ own.handled) :
      Step c (.perform thread effect payload) (c.capture thread inner own rest effect payload)
  | exit {c : Configuration Thread Coroutine Effect Context Value} (thread : Thread)
      (effect : Effect) (payload : Value)
      {inner : List (Frame Coroutine Effect Context)} {own : Frame Coroutine Effect Context}
      {rest : List (Frame Coroutine Effect Context)}
      (hstack : c.frames (.active thread) = inner ++ own :: rest) :
      Step c (.exit thread own.coroutine effect payload)
        (c.discard thread inner own rest effect payload)
  | throw {c : Configuration Thread Coroutine Effect Context Value} (thread : Thread)
      (effect : Effect) (payload : Value)
      {inner : List (Frame Coroutine Effect Context)} {own : Frame Coroutine Effect Context}
      {rest : List (Frame Coroutine Effect Context)}
      (hstack : c.frames (.active thread) = inner ++ own :: rest)
      (hinner : ∀ frame ∈ inner, effect ∉ frame.handled) (hown : effect ∈ own.handled) :
      Step c (.throw thread effect payload) (c.discard thread inner own rest effect payload)
  | finish {c : Configuration Thread Coroutine Effect Context Value} (thread : Thread)
      (effect : Effect) (payload : Value) {own : Frame Coroutine Effect Context}
      {rest : List (Frame Coroutine Effect Context)}
      (hstack : c.frames (.active thread) = own :: rest) :
      Step c (.finish thread effect payload) (c.discard thread [] own rest effect payload)

/-! ### Well-formed configurations -/

/-- No coroutine has two frames, the frames captured by a coroutine end in its own, and every
created coroutine has a frame or is finished or discarded. -/
structure WellFormed (c : Configuration Thread Coroutine Effect Context Value) : Prop where
  separated : Separated fun place ↦ names (c.frames place)
  own : ∀ coroutine inner own, c.frames (.captured coroutine) = inner ++ [own] →
    own.coroutine = coroutine
  present : ∀ coroutine, (∃ place, coroutine ∈ names (c.frames place)) → coroutine ∈ c.created
  accounted : ∀ coroutine ∈ c.created, (∃ place, coroutine ∈ names (c.frames place)) ∨
    coroutine ∈ c.finished ∨ coroutine ∈ c.discarded
  gone : ∀ coroutine, (∃ place, coroutine ∈ names (c.frames place)) →
    coroutine ∉ c.finished ∧ coroutine ∉ c.discarded

namespace WellFormed

section Classification

omit [DecidableEq Thread] [DecidableEq Coroutine]

variable {c : Configuration Thread Coroutine Effect Context Value}

/-- A suspended coroutine is the coroutine of the last frame it captured. -/
theorem mem_names_captured (h : WellFormed c) {coroutine : Coroutine}
    (hsuspended : c.Suspended coroutine) : coroutine ∈ names (c.frames (.captured coroutine)) := by
  obtain ⟨inner, own, hframes⟩ := List.eq_nil_or_concat'
    (c.frames (.captured coroutine)) |>.resolve_left hsuspended
  rw [hframes, ← h.own coroutine inner own hframes]
  simp

/-- A created coroutine that is not active, not enclosed, not finished and not discarded is
suspended. -/
theorem suspended_of_not (h : WellFormed c) {coroutine : Coroutine}
    (hcreated : coroutine ∈ c.created) (hactive : ¬ c.Active coroutine)
    (henclosed : ¬ c.Enclosed coroutine) (hfinished : coroutine ∉ c.finished)
    (hdiscarded : coroutine ∉ c.discarded) : c.Suspended coroutine := by
  rcases h.accounted coroutine hcreated with ⟨place, hplace⟩ | hgone | hgone
  · cases place with
    | active thread => exact absurd ⟨thread, hplace⟩ hactive
    | captured other =>
      by_cases hother : other = coroutine
      · subst hother
        intro hempty
        rw [hempty] at hplace
        simp at hplace
      · exact absurd ⟨other, hother, hplace⟩ henclosed
  · exact absurd hgone hfinished
  · exact absurd hgone hdiscarded

/-- A suspended coroutine is neither active nor enclosed nor finished nor discarded. -/
theorem not_of_suspended (h : WellFormed c) {coroutine : Coroutine}
    (hsuspended : c.Suspended coroutine) : ¬ c.Active coroutine ∧ ¬ c.Enclosed coroutine ∧
      coroutine ∉ c.finished ∧ coroutine ∉ c.discarded := by
  have hmem := h.mem_names_captured hsuspended
  refine ⟨?_, ?_, h.gone _ ⟨_, hmem⟩⟩
  · rintro ⟨thread, hactive⟩
    exact absurd (h.separated.unique (.captured coroutine) (.active thread) hmem hactive) (by simp)
  · rintro ⟨other, hother, henclosed⟩
    have hplace := h.separated.unique (.captured coroutine) (.captured other) hmem henclosed
    simp only [Place.captured.injEq] at hplace
    exact hother hplace.symm

/-- A coroutine with a frame on a stack owns no captured frames. -/
theorem captured_eq_nil (h : WellFormed c) (thread : Thread) {coroutine : Coroutine}
    (hactive : coroutine ∈ names (c.frames (.active thread))) :
    c.frames (.captured coroutine) = [] := by
  by_contra hsuspended
  exact (h.not_of_suspended hsuspended).1 ⟨thread, hactive⟩

end Classification

omit [DecidableEq Thread] [DecidableEq Coroutine] in
private theorem names_update [DecidableEq (Place Thread Coroutine)]
    (frames : Place Thread Coroutine → List (Frame Coroutine Effect Context))
    (place : Place Thread Coroutine) (changed : List (Frame Coroutine Effect Context)) :
    (fun other ↦ names (Function.update frames place changed other)) =
      Function.update (fun other ↦ names (frames other)) place (names changed) := by
  funext other
  by_cases hother : other = place
  · subst hother
    simp
  · simp [Function.update_of_ne hother]

variable {c : Configuration Thread Coroutine Effect Context Value}

theorem compute (h : WellFormed c) (thread : Thread) (context : Context) :
    WellFormed (c.compute thread context) := by
  have hnames : ∀ place, names ((c.compute thread context).frames place) =
      names (c.frames place) := by
    intro place
    simp only [Configuration.compute]
    by_cases hplace : place = .active thread
    · subst hplace
      simp
    · rw [Function.update_of_ne hplace]
  refine ⟨?_, ?_, ?_, ?_, ?_⟩
  · simpa only [hnames] using h.separated
  · intro coroutine inner own hframes
    refine h.own coroutine inner own ?_
    simpa [Configuration.compute] using hframes
  · intro coroutine hmem
    exact h.present coroutine (by simpa only [hnames] using hmem)
  · intro coroutine hcreated
    simp only [hnames]
    exact h.accounted coroutine hcreated
  · intro coroutine hmem
    exact h.gone coroutine (by simpa only [hnames] using hmem)

theorem create (h : WellFormed c) {coroutine : Coroutine} (context : Context)
    (hfresh : ∀ place, coroutine ∉ names (c.frames place)) :
    WellFormed (c.create coroutine context) := by
  have hempty : names (c.frames (.captured coroutine)) = [] := by
    by_contra hne
    exact hfresh _ (h.mem_names_captured fun hnil ↦ hne (by rw [hnil]; rfl))
  have hnames : (fun place ↦ names ((c.create coroutine context).frames place)) =
      Function.update (fun place ↦ names (c.frames place)) (.captured coroutine) [coroutine] :=
    names_update _ _ _
  have hiff : ∀ other, (∃ place, other ∈ names ((c.create coroutine context).frames place)) ↔
      other = coroutine ∨ ∃ place, other ∈ names (c.frames place) := by
    intro other
    simp only [fun place ↦ congrFun hnames place]
    constructor
    · rintro ⟨place, hmem⟩
      by_cases hplace : place = .captured coroutine
      · subst hplace
        exact .inl (by simpa using hmem)
      · exact .inr ⟨place, by rwa [Function.update_of_ne hplace] at hmem⟩
    · rintro (rfl | ⟨place, hmem⟩)
      · exact ⟨.captured other, by simp⟩
      · refine ⟨place, ?_⟩
        rwa [Function.update_of_ne]
        rintro rfl
        simp [hempty] at hmem
  refine ⟨?_, ?_, ?_, ?_, ?_⟩
  · rw [hnames]
    exact h.separated.replace (by simp) fun index _ ↦ by simpa using hfresh index
  · intro other inner own hframes
    by_cases hother : other = coroutine
    · subst hother
      simp only [Configuration.create, Function.update_self] at hframes
      exact congrArg Frame.coroutine (last_eq (show [] ++ [_] = inner ++ [own] from hframes)).symm
    · exact h.own other inner own (by simpa [Configuration.create, hother] using hframes)
  · intro other hmem
    rcases (hiff other).mp hmem with rfl | hmem
    · exact Set.mem_insert _ _
    · exact Set.mem_insert_of_mem _ (h.present other hmem)
  · intro other hcreated
    rw [hiff]
    by_cases hother : other = coroutine
    · exact .inl (.inl hother)
    · have hold := h.accounted other (Set.mem_of_mem_insert_of_ne hcreated hother)
      exact hold.imp .inr fun hgone ↦ hgone.imp (⟨·, hother⟩) (⟨·, hother⟩)
  · intro other hmem
    rcases (hiff other).mp hmem with rfl | hmem
    · exact ⟨fun hfinished ↦ hfinished.2 rfl, fun hdiscarded ↦ hdiscarded.2 rfl⟩
    · have hold := h.gone other hmem
      exact ⟨fun hfinished ↦ hold.1 hfinished.1, fun hdiscarded ↦ hold.2 hdiscarded.1⟩

theorem resume (h : WellFormed c) (thread : Thread) {coroutine : Coroutine} (value : Value)
    (handled : Set Effect) {inner : List (Frame Coroutine Effect Context)}
    {own : Frame Coroutine Effect Context}
    (hcaptured : c.frames (.captured coroutine) = inner ++ [own]) :
    WellFormed (c.resume thread coroutine value handled inner own) := by
  have hne : Place.captured coroutine ≠ (Place.active thread : Place Thread Coroutine) := by simp
  have hnames : (fun place ↦ names ((c.resume thread coroutine value handled inner own).frames
      place)) = Function.update (Function.update (fun place ↦ names (c.frames place))
        (.captured coroutine) []) (.active thread)
        (names (c.frames (.captured coroutine)) ++ names (c.frames (.active thread))) := by
    simp only [Configuration.resume, names_update, names_append, names_cons, names_nil, hcaptured,
      List.append_assoc, List.singleton_append]
  have hiff : ∀ other, (∃ place, other ∈ names
      ((c.resume thread coroutine value handled inner own).frames place)) ↔
        ∃ place, other ∈ names (c.frames place) := by
    intro other
    simp only [fun place ↦ congrFun hnames place]
    exact exists_mem_move_iff fun place ↦ names (c.frames place)
  refine ⟨hnames ▸ h.separated.move hne, ?_, ?_, ?_, ?_⟩
  · intro other inner' own' hframes
    by_cases hother : other = coroutine
    · subst hother
      simp [Configuration.resume] at hframes
    · exact h.own other inner' own' (by simpa [Configuration.resume, hother] using hframes)
  · exact fun other hmem ↦ h.present other ((hiff other).mp hmem)
  · exact fun other hcreated ↦ (h.accounted other hcreated).imp_left (hiff other).mpr
  · exact fun other hmem ↦ h.gone other ((hiff other).mp hmem)

theorem capture (h : WellFormed c) {thread : Thread}
    {inner : List (Frame Coroutine Effect Context)} {own : Frame Coroutine Effect Context}
    {rest : List (Frame Coroutine Effect Context)}
    (hstack : c.frames (.active thread) = inner ++ own :: rest) (effect : Effect)
    (payload : Value) : WellFormed (c.capture thread inner own rest effect payload) := by
  have hne : (Place.active thread : Place Thread Coroutine) ≠ Place.captured own.coroutine := by
    simp
  have hempty : names (c.frames (.captured own.coroutine)) = [] := by
    rw [h.captured_eq_nil thread (by simp [hstack])]
    rfl
  have hsplit : names (c.frames (.active thread)) = names (inner ++ [own]) ++ names rest := by
    simp [hstack]
  have hnames : (fun place ↦ names ((c.capture thread inner own rest effect payload).frames
      place)) = Function.update (Function.update (fun place ↦ names (c.frames place))
        (.active thread) (names rest)) (.captured own.coroutine) (names (inner ++ [own])) := by
    simp only [Configuration.capture, names_update]
  have hiff : ∀ other, (∃ place, other ∈ names
      ((c.capture thread inner own rest effect payload).frames place)) ↔
        ∃ place, other ∈ names (c.frames place) := by
    intro other
    simp only [fun place ↦ congrFun hnames place]
    exact exists_mem_split_iff (fun place ↦ names (c.frames place)) hne hsplit hempty
  refine ⟨hnames ▸ h.separated.split hsplit, ?_, ?_, ?_, ?_⟩
  · intro other inner' own' hframes
    by_cases hother : other = own.coroutine
    · subst hother
      simp only [Configuration.capture, Function.update_self] at hframes
      exact congrArg Frame.coroutine (last_eq hframes).symm
    · exact h.own other inner' own' (by simpa [Configuration.capture, hother] using hframes)
  · exact fun other hmem ↦ h.present other ((hiff other).mp hmem)
  · exact fun other hcreated ↦ (h.accounted other hcreated).imp_left (hiff other).mpr
  · exact fun other hmem ↦ h.gone other ((hiff other).mp hmem)

theorem discard (h : WellFormed c) {thread : Thread}
    {inner : List (Frame Coroutine Effect Context)} {own : Frame Coroutine Effect Context}
    {rest : List (Frame Coroutine Effect Context)}
    (hstack : c.frames (.active thread) = inner ++ own :: rest) (effect : Effect)
    (payload : Value) : WellFormed (c.discard thread inner own rest effect payload) := by
  have hsplit : names (c.frames (.active thread)) = names (inner ++ [own]) ++ names rest := by
    simp [hstack]
  have hnames : (fun place ↦ names ((c.discard thread inner own rest effect payload).frames
      place)) = Function.update (fun place ↦ names (c.frames place)) (.active thread)
        (names rest) := names_update _ _ _
  have hstays : ∀ other place, other ∈ names
      ((c.discard thread inner own rest effect payload).frames place) →
        other ∈ names (c.frames place) := by
    intro other place hmem
    rw [congrFun hnames place] at hmem
    exact mem_of_mem_drop (fun place ↦ names (c.frames place)) hsplit hmem
  have hfront : ∀ other, other ∈ names (inner ++ [own]) → ∀ place, other ∉ names
      ((c.discard thread inner own rest effect payload).frames place) := by
    intro other hin place hmem
    have hactive : other ∈ names (c.frames (.active thread)) :=
      hsplit ▸ List.mem_append_left _ hin
    obtain rfl := h.separated.unique _ _ (hstays other place hmem) hactive
    rw [congrFun hnames, Function.update_self] at hmem
    exact (List.nodup_append.mp (hsplit ▸ h.separated.nodup _)).2.2 other hin other hmem rfl
  refine ⟨hnames ▸ h.separated.drop hsplit, ?_, ?_, ?_, ?_⟩
  · intro other inner' own' hframes
    exact h.own other inner' own' (by simpa [Configuration.discard] using hframes)
  · exact fun other ⟨place, hmem⟩ ↦ h.present other ⟨place, hstays other place hmem⟩
  · intro other hcreated
    rcases h.accounted other hcreated with ⟨place, hmem⟩ | hgone | hgone
    · rcases mem_front_or_exists_mem_drop (fun place ↦ names (c.frames place)) hsplit
        hmem with hin | hin
      · rw [names_append, List.mem_append] at hin
        rcases hin with hin | hin
        · exact .inr (.inr (.inr hin))
        · exact .inr (.inl (.inl (by simpa using hin)))
      · exact .inl (by simpa only [fun place ↦ congrFun hnames place] using hin)
    · exact .inr (.inl (.inr hgone))
    · exact .inr (.inr (.inl hgone))
  · rintro other ⟨place, hmem⟩
    have hold := h.gone other ⟨place, hstays other place hmem⟩
    refine ⟨?_, ?_⟩
    · rintro (rfl | hfinished)
      · exact hfront _ (by simp) place hmem
      · exact hold.1 hfinished
    · rintro (hdiscarded | hin)
      · exact hold.2 hdiscarded
      · exact hfront other (by simpa using Or.inl hin) place hmem

/-- Every step keeps a configuration well-formed. -/
theorem step (h : WellFormed c) {action : Action Thread Coroutine Effect Context Value}
    {next : Configuration Thread Coroutine Effect Context Value} (hstep : Step c action next) :
    WellFormed next := by
  cases hstep with
  | compute thread context => exact h.compute thread context
  | create coroutine context hfresh => exact h.create context hfresh
  | resume thread coroutine value handled hcaptured => exact h.resume thread value handled hcaptured
  | yield thread effect payload hstack => exact h.capture hstack effect payload
  | perform thread effect payload hstack _ _ => exact h.capture hstack effect payload
  | exit thread effect payload hstack => exact h.discard hstack effect payload
  | throw thread effect payload hstack _ _ => exact h.discard hstack effect payload
  | finish thread effect payload hstack => exact h.discard (hstack : _ = [] ++ _) effect payload

end WellFormed

/-! ### Properties of all frames -/

/-- Resuming, yielding and exiting only move frames. -/
def Action.Moves : Action Thread Coroutine Effect Context Value → Prop
  | .compute .. | .create .. => False
  | _ => True

namespace Configuration

variable {c next : Configuration Thread Coroutine Effect Context Value}
  {property changed : Coroutine → Context → Prop}

/-- The coroutine and the context of every frame have a property. -/
def AllFrames (c : Configuration Thread Coroutine Effect Context Value)
    (property : Coroutine → Context → Prop) : Prop :=
  ∀ place, ∀ frame ∈ c.frames place, property frame.coroutine frame.context

/-- Moving frames keeps their coroutines and contexts. -/
theorem AllFrames.move (h : c.AllFrames property)
    {action : Action Thread Coroutine Effect Context Value} (hstep : Step c action next)
    (hmoves : action.Moves) : next.AllFrames property ∧ next.base = c.base := by
  have hcapture : ∀ thread inner own rest effect payload,
      c.frames (.active thread) = inner ++ own :: rest →
        (c.capture thread inner own rest effect payload).AllFrames property := by
    intro thread inner own rest effect payload hstack place frame hmem
    have hold := h (.active thread)
    rw [hstack] at hold
    simp only [capture, Function.update_apply] at hmem
    split_ifs at hmem
    · exact hold frame (by simp at hmem ⊢; tauto)
    · exact hold frame (by simp [hmem])
    · exact h place frame hmem
  have hdiscard : ∀ thread inner own rest effect payload,
      c.frames (.active thread) = inner ++ own :: rest →
        (c.discard thread inner own rest effect payload).AllFrames property := by
    intro thread inner own rest effect payload hstack place frame hmem
    have hold := h (.active thread)
    rw [hstack] at hold
    simp only [discard, Function.update_apply] at hmem
    split_ifs at hmem
    · exact hold frame (by simp [hmem])
    · exact h place frame hmem
  cases hstep with
  | compute => exact hmoves.elim
  | create => exact hmoves.elim
  | @resume thread coroutine value handled inner own hcaptured =>
    refine ⟨fun place frame hmem ↦ ?_, rfl⟩
    have hold := h (.captured coroutine)
    rw [hcaptured] at hold
    simp only [resume, Function.update_apply] at hmem
    split_ifs at hmem
    · rcases List.mem_append.mp hmem with hin | hin
      · exact hold frame (List.mem_append_left _ hin)
      · rcases List.mem_cons.mp hin with rfl | hrest
        · exact hold own (by simp)
        · exact h _ frame hrest
    · simp at hmem
    · exact h place frame hmem
  | yield thread effect payload hstack => exact ⟨hcapture _ _ _ _ _ _ hstack, rfl⟩
  | perform thread effect payload hstack _ _ => exact ⟨hcapture _ _ _ _ _ _ hstack, rfl⟩
  | exit thread effect payload hstack => exact ⟨hdiscard _ _ _ _ _ _ hstack, rfl⟩
  | throw thread effect payload hstack _ _ => exact ⟨hdiscard _ _ _ _ _ _ hstack, rfl⟩
  | finish thread effect payload hstack => exact ⟨hdiscard _ [] _ _ _ _ hstack, rfl⟩

/-- A new frame joins the others. -/
theorem AllFrames.create (h : c.AllFrames property) {coroutine : Coroutine} {context : Context}
    (hfresh : ∀ place, coroutine ∉ names (c.frames place)) (hnew : changed coroutine context)
    (hother : ∀ other context, other ≠ coroutine → property other context →
      changed other context) : (c.create coroutine context).AllFrames changed := by
  intro place frame hmem
  simp only [Configuration.create, Function.update_apply] at hmem
  split_ifs at hmem
  · obtain rfl := List.mem_singleton.mp hmem
    exact hnew
  · refine hother _ _ (fun heq ↦ hfresh place ?_) (h place frame hmem)
    exact heq ▸ List.mem_map_of_mem hmem

/-- The code of the innermost frame of a stack gets a new context. -/
theorem AllFrames.compute (h : c.AllFrames property) (hwellFormed : WellFormed c) {thread : Thread}
    {context : Context} {frame : Frame Coroutine Effect Context}
    {rest : List (Frame Coroutine Effect Context)}
    (hstack : c.frames (.active thread) = frame :: rest) (hnew : changed frame.coroutine context)
    (hother : ∀ other context, other ≠ frame.coroutine → property other context →
      changed other context) : (c.compute thread context).AllFrames changed := by
  have hactive : frame.coroutine ∈ names (c.frames (.active thread)) := by simp [hstack]
  intro place other hmem
  by_cases hplace : place = .active thread
  · subst hplace
    simp only [Configuration.compute, Function.update_self, hstack, setContext, List.mem_cons]
      at hmem
    rcases hmem with rfl | hrest
    · exact hnew
    · have hnodup := hwellFormed.separated.nodup (.active thread)
      rw [hstack, names_cons, List.nodup_cons] at hnodup
      refine hother _ _ (fun heq ↦ hnodup.1 (heq ▸ List.mem_map_of_mem hrest)) ?_
      exact h _ other (hstack ▸ List.mem_cons_of_mem _ hrest)
  · rw [c.compute_frames_of_ne hplace] at hmem
    refine hother _ _ (fun heq ↦ hplace ?_) (h place other hmem)
    exact hwellFormed.separated.unique _ _ (heq ▸ List.mem_map_of_mem hmem) hactive

end Configuration

end Libseff.Foundation.ShallowHandlers
