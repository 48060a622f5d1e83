import Libseff.Foundation.Linearizability
import Mathlib.Data.List.ReduceOption

/-!
# Clients of objects

A client is a program of many threads with a memory of their own, which call the operations of some
objects. It runs with the objects of a sequential specification, where an operation is one step
(`Client.atomic`), and with an implementation of them, where a thread calls the operation, the
implementation takes its steps, and the thread goes on with the result (`Client.calling`).

Where the implementation is related to the atomic object step by step, as linearizability is proved,
every run of the client with the implementation is one with the atomic objects, which shows the same
steps of the client and ends in the same memory (`Client.exists_atomic_run`): the operation takes
effect where the atomic object applies it.
-/

set_option autoImplicit false
set_option relaxedAutoImplicit false

namespace Libseff.Foundation

/-- A program whose threads call operations. At each point a thread either calls an operation of an
object and goes on with its result, or takes a step of its own. -/
structure Client (Thread Index Point Memory Operation Result Label : Type*) where
  /-- The operation that is called at a point. -/
  calls : Thread → Point → Option (Index × Operation)
  /-- The point after the operation has returned. -/
  returns : Thread → Point → Result → Point
  /-- The steps of the thread. -/
  step : Thread → Point → Memory → Label → Point → Memory → Prop

/-- A client with objects, each operation of which is one step. -/
structure AtomicClientState (Thread Index Point Memory State : Type*) where
  memory : Memory
  objects : Index → State
  points : Thread → Point

/-- Where a thread is: at a point, or in the operation that it has called there. -/
inductive Phase (Point : Type*)
  | ready (point : Point)
  | waiting (point : Point)

/-- A client with implementations of the objects. -/
structure CallingClientState (Thread Index Point Memory Concrete : Type*) where
  memory : Memory
  objects : Index → Concrete
  phases : Thread → Phase Point

namespace Client

variable {Thread Index Point Memory Operation Result Label State Concrete ObjectLabel : Type*}
  {ObjectThread : Type*} [DecidableEq Thread] [DecidableEq Index] [DecidableEq ObjectThread]

/-- The steps of a client with atomic objects. The label is that of a step of the client. -/
inductive AtomicStep (client : Client Thread Index Point Memory Operation Result Label)
    (object : SequentialObject State Operation Result) :
    AtomicClientState Thread Index Point Memory State → Option (Thread × Label) →
      AtomicClientState Thread Index Point Memory State → Prop
  | step {s : AtomicClientState Thread Index Point Memory State} {thread : Thread} {label : Label}
      {point : Point} {memory : Memory} (hcalls : client.calls thread (s.points thread) = none)
      (hstep : client.step thread (s.points thread) s.memory label point memory) :
      AtomicStep client object s (some (thread, label))
        { s with memory := memory, points := Function.update s.points thread point }
  | operate {s : AtomicClientState Thread Index Point Memory State} {thread : Thread}
      {index : Index} {operation : Operation}
      (hcalls : client.calls thread (s.points thread) = some (index, operation)) :
      AtomicStep client object s none
        { s with
          objects :=
            Function.update s.objects index (object.apply operation (s.objects index)).1
          points :=
            Function.update s.points thread
              (client.returns thread (s.points thread)
                (object.apply operation (s.objects index)).2) }

/-- The steps of a client with implementations of the objects. The threads of a client have names as
users of each object. -/
inductive CallingStep (client : Client Thread Index Point Memory Operation Result Label)
    (implementation : TransitionSystem Concrete ObjectLabel)
    (event : ObjectLabel → Option (Event ObjectThread Operation Result))
    (user : Index → Thread → ObjectThread) :
    CallingClientState Thread Index Point Memory Concrete → Option (Thread × Label) →
      CallingClientState Thread Index Point Memory Concrete → Prop
  | step {s : CallingClientState Thread Index Point Memory Concrete} {thread : Thread}
      {label : Label} {point next : Point} {memory : Memory}
      (hphase : s.phases thread = .ready point) (hcalls : client.calls thread point = none)
      (hstep : client.step thread point s.memory label next memory) :
      CallingStep client implementation event user s (some (thread, label))
        { s with memory := memory, phases := Function.update s.phases thread (.ready next) }
  | call {s : CallingClientState Thread Index Point Memory Concrete} {thread : Thread}
      {point : Point} {index : Index} {operation : Operation} {label : ObjectLabel}
      {next : Concrete}
      (hphase : s.phases thread = .ready point)
      (hcalls : client.calls thread point = some (index, operation))
      (hevent : event label = some (.call (user index thread) operation))
      (hstep : implementation.step (s.objects index) label next) :
      CallingStep client implementation event user s none
        { s with
          objects := Function.update s.objects index next
          phases := Function.update s.phases thread (.waiting point) }
  | advance {s : CallingClientState Thread Index Point Memory Concrete} {index : Index}
      {label : ObjectLabel} {next : Concrete} (hevent : event label = none)
      (hstep : implementation.step (s.objects index) label next) :
      CallingStep client implementation event user s none
        { s with objects := Function.update s.objects index next }
  | finish {s : CallingClientState Thread Index Point Memory Concrete} {thread : Thread}
      {point : Point} {index : Index} {operation : Operation} {result : Result}
      {label : ObjectLabel} {next : Concrete} (hphase : s.phases thread = .waiting point)
      (hcalls : client.calls thread point = some (index, operation))
      (hevent : event label = some (.finish (user index thread) result))
      (hstep : implementation.step (s.objects index) label next) :
      CallingStep client implementation event user s none
        { s with
          objects := Function.update s.objects index next
          phases :=
            Function.update s.phases thread (.ready (client.returns thread point result)) }

/-- A client with atomic objects. -/
def atomic (client : Client Thread Index Point Memory Operation Result Label)
    (object : SequentialObject State Operation Result)
    (initial : AtomicClientState Thread Index Point Memory State → Prop) :
    TransitionSystem (AtomicClientState Thread Index Point Memory State)
      (Option (Thread × Label)) where
  initial := initial
  step := AtomicStep client object

/-- A client with implementations of the objects. -/
def calling (client : Client Thread Index Point Memory Operation Result Label)
    (implementation : TransitionSystem Concrete ObjectLabel)
    (event : ObjectLabel → Option (Event ObjectThread Operation Result))
    (user : Index → Thread → ObjectThread)
    (initial : CallingClientState Thread Index Point Memory Concrete → Prop) :
    TransitionSystem (CallingClientState Thread Index Point Memory Concrete)
      (Option (Thread × Label)) where
  initial := initial
  step := CallingStep client implementation event user

/-! ### The relation -/

section Relation

variable (client : Client Thread Index Point Memory Operation Result Label)
  (user : Index → Thread → ObjectThread) (related : Concrete →
    AtomicState ObjectThread State Operation Result → Prop)

/-- The progress of a thread in the objects is that of the operation it has called. -/
inductive ThreadMatches (thread : Thread) (progress : Index → Progress Operation Result) :
    Phase Point → Point → Prop
  | ready (point : Point) (hidle : ∀ index, progress index = .idle) :
      ThreadMatches thread progress (.ready point) point
  | called (point : Point) {index : Index} {operation : Operation}
      (hcalls : client.calls thread point = some (index, operation))
      (hidle : ∀ other, other ≠ index → progress other = .idle)
      (hcalled : progress index = .called operation) :
      ThreadMatches thread progress (.waiting point) point
  | applied (point : Point) {index : Index} {operation : Operation} {result : Result}
      (hcalls : client.calls thread point = some (index, operation))
      (hidle : ∀ other, other ≠ index → progress other = .idle)
      (happlied : progress index = .applied result) :
      ThreadMatches thread progress (.waiting point) (client.returns thread point result)

/-- The implementations are in the states of atomic objects, and the threads with them. -/
structure Matches (s : CallingClientState Thread Index Point Memory Concrete)
    (t : AtomicClientState Thread Index Point Memory State)
    (views : Index → AtomicState ObjectThread State Operation Result) : Prop where
  memory : t.memory = s.memory
  related : ∀ index, related (s.objects index) (views index)
  objects : ∀ index, (views index).object = t.objects index
  threads : ∀ thread, client.ThreadMatches thread
    (fun index ↦ (views index).progress (user index thread)) (s.phases thread) (t.points thread)
  strangers : ∀ index stranger, (∀ thread, user index thread ≠ stranger) →
    (views index).progress stranger = .idle

end Relation

/-! ### The steps -/

section Steps

variable {client : Client Thread Index Point Memory Operation Result Label}
  {object : SequentialObject State Operation Result}
  {implementation : TransitionSystem Concrete ObjectLabel}
  {event : ObjectLabel → Option (Event ObjectThread Operation Result)}
  {user : Index → Thread → ObjectThread}
  {related : Concrete → AtomicState ObjectThread State Operation Result → Prop}
  {s after : CallingClientState Thread Index Point Memory Concrete}
  {t : AtomicClientState Thread Index Point Memory State}
  {views : Index → AtomicState ObjectThread State Operation Result}

omit [DecidableEq Thread] [DecidableEq Index] [DecidableEq ObjectThread] in
/-- A thread at a point uses no object. -/
theorem ThreadMatches.of_ready {thread : Thread} {progress : Index → Progress Operation Result}
    {point current : Point} (h : client.ThreadMatches thread progress (.ready point) current) :
    current = point ∧ ∀ index, progress index = .idle := by
  cases h with
  | ready _ hidle => exact ⟨rfl, hidle⟩

omit [DecidableEq Thread] [DecidableEq Index] [DecidableEq ObjectThread] in
/-- An operation that has not taken effect is the one that the thread has called. -/
theorem ThreadMatches.of_called {thread : Thread} {progress : Index → Progress Operation Result}
    {phase : Phase Point} {point : Point} {index : Index} {operation : Operation}
    (h : client.ThreadMatches thread progress phase point)
    (hcalled : progress index = .called operation) :
    phase = .waiting point ∧ client.calls thread point = some (index, operation) ∧
      ∀ other, other ≠ index → progress other = .idle := by
  cases h with
  | ready _ hidle => exact absurd (hcalled.symm.trans (hidle index)) nofun
  | @called _ used requested hcalls hidle hrequested =>
    obtain rfl : index = used := by_contra fun hne ↦
      absurd (hcalled.symm.trans (hidle index hne)) nofun
    obtain rfl : operation = requested := Progress.called.inj (hcalled.symm.trans hrequested)
    exact ⟨rfl, hcalls, hidle⟩
  | @applied _ used _ result hcalls hidle happlied =>
    by_cases heq : index = used
    · subst heq
      exact absurd (hcalled.symm.trans happlied) nofun
    · exact absurd (hcalled.symm.trans (hidle index heq)) nofun

omit [DecidableEq Thread] [DecidableEq Index] [DecidableEq ObjectThread] in
/-- Where the operation has taken effect, the thread with atomic objects has gone on with its
result. -/
theorem ThreadMatches.of_applied {thread : Thread} {progress : Index → Progress Operation Result}
    {point current : Point} {index : Index} {operation : Operation} {result : Result}
    (h : client.ThreadMatches thread progress (.waiting point) current)
    (hcalls : client.calls thread point = some (index, operation))
    (happlied : progress index = .applied result) :
    current = client.returns thread point result ∧
      ∀ other, other ≠ index → progress other = .idle := by
  cases h with
  | @called _ used _ hused hidle hcalled =>
    obtain ⟨rfl, -⟩ := Prod.mk.inj (Option.some.inj (hcalls.symm.trans hused))
    exact absurd (hcalled.symm.trans happlied) nofun
  | @applied _ used _ returned hused hidle hreturned =>
    obtain ⟨rfl, -⟩ := Prod.mk.inj (Option.some.inj (hcalls.symm.trans hused))
    obtain rfl : returned = result := Progress.applied.inj (hreturned.symm.trans happlied)
    exact ⟨rfl, hidle⟩

omit [DecidableEq Index] [DecidableEq ObjectThread] in
/-- A thread takes a step of its own. -/
theorem Matches.stepped (h : client.Matches user related s t views) {thread : Thread}
    {point : Point} (hphase : s.phases thread = .ready point) (memory : Memory) (next : Point) :
    client.Matches user related
      { s with memory := memory, phases := Function.update s.phases thread (.ready next) }
      { t with memory := memory, points := Function.update t.points thread next } views := by
  have hthread := h.threads thread
  rw [hphase] at hthread
  obtain ⟨-, hidle⟩ := hthread.of_ready
  refine
    { memory := rfl
      related := h.related
      objects := h.objects
      threads := fun other ↦ ?_
      strangers := h.strangers }
  by_cases heq : other = thread
  · subst heq
    simpa using ThreadMatches.ready next hidle
  · simpa [Function.update_of_ne heq] using h.threads other

omit [DecidableEq Thread] [DecidableEq ObjectThread] in
/-- An implementation takes a step that goes unseen. -/
theorem Matches.unseen (h : client.Matches user related s t views) {index : Index}
    {concrete : Concrete} (hrelated : related concrete (views index)) :
    client.Matches user related
      { s with objects := Function.update s.objects index concrete } t views := by
  refine ⟨h.memory, fun other ↦ ?_, h.objects, h.threads, h.strangers⟩
  by_cases heq : other = index
  · subst heq
    simpa using hrelated
  · simpa [Function.update_of_ne heq] using h.related other

/-- Assumes: one thread changes its progress in one object. -/
theorem Matches.update (h : client.Matches user related s t views)
    (huser : ∀ index, Function.Injective (user index)) {index : Index} {thread : Thread}
    {concrete : Concrete} {view : AtomicState ObjectThread State Operation Result}
    {progress : Progress Operation Result} (phase : Phase Point) (point : Point)
    (hrelated : related concrete view)
    (hprogress : view.progress =
      Function.update (views index).progress (user index thread) progress)
    (hthread : client.ThreadMatches thread
      (Function.update (fun other ↦ (views other).progress (user other thread)) index progress)
      phase point) :
    client.Matches user related
      { s with
        objects := Function.update s.objects index concrete
        phases := Function.update s.phases thread phase }
      { t with
        objects := Function.update t.objects index view.object
        points := Function.update t.points thread point }
      (Function.update views index view) := by
  have hviews : ∀ other stranger, user index thread ≠ stranger ∨ other ≠ index →
      (Function.update views index view other).progress stranger =
        (views other).progress stranger := by
    intro other stranger hne
    by_cases heq : other = index
    · subst heq
      rw [Function.update_self, hprogress,
        Function.update_of_ne (hne.resolve_right (not_not_intro rfl)).symm]
    · rw [Function.update_of_ne heq]
  refine
    { memory := h.memory
      related := fun other ↦ ?_
      objects := fun other ↦ ?_
      threads := fun other ↦ ?_
      strangers := fun other stranger hstranger ↦ ?_ }
  · by_cases heq : other = index
    · subst heq
      simpa using hrelated
    · simpa [Function.update_of_ne heq] using h.related other
  · by_cases heq : other = index
    · subst heq
      simp
    · simpa [Function.update_of_ne heq] using h.objects other
  · by_cases heq : other = thread
    · subst heq
      have hown : (fun used ↦ (Function.update views index view used).progress (user used other)) =
          Function.update (fun used ↦ (views used).progress (user used other)) index progress := by
        ext used
        by_cases hused : used = index
        · subst hused
          rw [Function.update_self, Function.update_self, hprogress, Function.update_self]
        · rw [Function.update_of_ne hused, Function.update_of_ne hused]
      simpa [hown] using hthread
    · have hsame : (fun used ↦ (Function.update views index view used).progress (user used other)) =
          fun used ↦ (views used).progress (user used other) := by
        ext used
        refine hviews used _ ?_
        by_cases hused : used = index
        · subst hused
          exact .inl fun hsame ↦ heq (huser used hsame).symm
        · exact .inr hused
      simpa [hsame, Function.update_of_ne heq] using h.threads other
  · rw [hviews other stranger ?_]
    · exact h.strangers other stranger hstranger
    · by_cases heq : other = index
      · subst heq
        exact .inl (hstranger thread)
      · exact .inr heq

/-- A thread calls an operation, which the client with atomic objects does not see yet. -/
theorem Matches.called (h : client.Matches user related s t views)
    (huser : ∀ index, Function.Injective (user index)) {thread : Thread} {point : Point}
    {index : Index} {operation : Operation} {concrete : Concrete}
    (hphase : s.phases thread = .ready point)
    (hcalls : client.calls thread point = some (index, operation))
    (hrelated : related concrete
      { views index with
        progress := Function.update (views index).progress (user index thread)
          (.called operation) }) :
    ∃ views', client.Matches user related
      { s with
        objects := Function.update s.objects index concrete
        phases := Function.update s.phases thread (.waiting point) } t views' := by
  have hthread := h.threads thread
  rw [hphase] at hthread
  obtain ⟨hpoint, hidle⟩ := hthread.of_ready
  have hmatches := h.update huser _ point hrelated rfl
    (.called point hcalls (fun other hne ↦ by
      rw [Function.update_of_ne hne]
      exact hidle other) (Function.update_self ..))
  rw [← hpoint, h.objects, Function.update_eq_self, Function.update_eq_self] at hmatches
  exact ⟨_, hpoint ▸ hmatches⟩

/-- An operation takes effect in the implementation. It is one that a thread of the client has
called, and the atomic object applies it. -/
theorem Matches.applied (h : client.Matches user related s t views)
    (huser : ∀ index, Function.Injective (user index)) {index : Index} {stranger : ObjectThread}
    {operation : Operation} {concrete : Concrete}
    (hcalled : (views index).progress stranger = .called operation)
    (hrelated : related concrete
      { object := (object.apply operation (views index).object).1
        progress := Function.update (views index).progress stranger
          (.applied (object.apply operation (views index).object).2) }) :
    ∃ t', AtomicStep client object t none t' ∧
      ∃ views', client.Matches user related
        { s with objects := Function.update s.objects index concrete } t' views' := by
  obtain ⟨thread, rfl⟩ : ∃ thread, user index thread = stranger := by
    by_contra hnone
    rw [h.strangers index stranger fun thread hthread ↦ hnone ⟨thread, hthread⟩] at hcalled
    exact absurd hcalled nofun
  obtain ⟨hphase, hcalls, hidle⟩ := (h.threads thread).of_called hcalled
  have hmatches := h.update huser _ _ hrelated rfl
    (.applied (t.points thread) hcalls (fun other hne ↦ by
      rw [Function.update_of_ne hne]
      exact hidle other hne) (Function.update_self ..))
  rw [← hphase, Function.update_eq_self, h.objects] at hmatches
  exact ⟨_, .operate hcalls, _, hmatches⟩

/-- A thread goes on with the result, as it has with atomic objects. -/
theorem Matches.finished (h : client.Matches user related s t views)
    (huser : ∀ index, Function.Injective (user index)) {thread : Thread} {point : Point}
    {index : Index} {operation : Operation} {result : Result} {concrete : Concrete}
    (hphase : s.phases thread = .waiting point)
    (hcalls : client.calls thread point = some (index, operation))
    (happlied : (views index).progress (user index thread) = .applied result)
    (hrelated : related concrete
      { views index with
        progress := Function.update (views index).progress (user index thread) .idle }) :
    ∃ views', client.Matches user related
      { s with
        objects := Function.update s.objects index concrete
        phases := Function.update s.phases thread (.ready (client.returns thread point result)) }
      t views' := by
  have hthread := h.threads thread
  rw [hphase] at hthread
  obtain ⟨hpoint, hidle⟩ := hthread.of_applied hcalls happlied
  have hmatches := h.update huser (.ready (client.returns thread point result)) _ hrelated rfl
    (.ready (client.returns thread point result) fun other ↦ by
      by_cases hne : other = index
      · subst hne
        exact Function.update_self ..
      · rw [Function.update_of_ne hne]
        exact hidle other hne)
  rw [← hpoint, h.objects, Function.update_eq_self, Function.update_eq_self] at hmatches
  exact ⟨_, hpoint ▸ hmatches⟩

/-- Assumes: the implementation is related to the atomic object step by step. A step of the client
with the implementation is one with the atomic objects, or goes unseen. -/
theorem Matches.step (h : client.Matches user related s t views)
    (huser : ∀ index, Function.Injective (user index))
    (hrelated : ∀ concrete label next view, related concrete view →
      implementation.step concrete label next →
      (event label = none ∧ related next view) ∨
        ∃ atomicLabel after, object.atomic.step view atomicLabel after ∧
          atomicLabel.event? = event label ∧ related next after)
    {visible : Option (Thread × Label)}
    (hstep : CallingStep client implementation event user s visible after) :
    (visible = none ∧ ∃ views, client.Matches user related after t views) ∨
      ∃ t', AtomicStep client object t visible t' ∧
        ∃ views, client.Matches user related after t' views := by
  cases hstep with
  | @step thread label point next memory hphase hcalls hstep =>
    have hthread := h.threads thread
    rw [hphase] at hthread
    obtain ⟨hpoint, -⟩ := hthread.of_ready
    exact .inr ⟨_, .step (by rw [hpoint]; exact hcalls) (by rw [hpoint, h.memory]; exact hstep),
      views, h.stepped hphase memory next⟩
  | @call thread point index operation label next hphase hcalls hevent hstep =>
    rcases hrelated _ _ _ _ (h.related index) hstep with ⟨hnone, -⟩ | ⟨_, view, hview, heq, hnext⟩
    · exact absurd (hevent.symm.trans hnone) nofun
    · obtain rfl := hview.of_call (heq.trans hevent)
      exact .inl ⟨rfl, h.called huser hphase hcalls hnext⟩
  | @advance index label next hevent hstep =>
    rcases hrelated _ _ _ _ (h.related index) hstep with ⟨-, hnext⟩ | ⟨_, view, hview, heq, hnext⟩
    · exact .inl ⟨rfl, views, h.unseen hnext⟩
    · obtain ⟨_, _, hcalled, rfl⟩ := hview.of_none (heq.trans hevent)
      exact .inr (h.applied huser hcalled hnext)
  | @finish thread point index operation result label next hphase hcalls hevent hstep =>
    rcases hrelated _ _ _ _ (h.related index) hstep with ⟨hnone, -⟩ | ⟨_, view, hview, heq, hnext⟩
    · exact absurd (hevent.symm.trans hnone) nofun
    · obtain ⟨happlied, rfl⟩ := hview.of_finish (heq.trans hevent)
      exact .inl ⟨rfl, h.finished huser hphase hcalls happlied hnext⟩

end Steps

/-! ### Runs -/

section Runs

variable {client : Client Thread Index Point Memory Operation Result Label}
  {object : SequentialObject State Operation Result}
  {implementation : TransitionSystem Concrete ObjectLabel}
  {event : ObjectLabel → Option (Event ObjectThread Operation Result)}
  {user : Index → Thread → ObjectThread}
  {related : Concrete → AtomicState ObjectThread State Operation Result → Prop}
  {callingInitial : CallingClientState Thread Index Point Memory Concrete → Prop}
  {atomicInitial : AtomicClientState Thread Index Point Memory State → Prop}

/-- Assumes: the implementation is related to the atomic object step by step, and the client starts
in states that match. Every run with the implementation is one with the atomic objects, with the
same steps of the client, and the states they reach match. -/
theorem exists_atomic_run (huser : ∀ index, Function.Injective (user index))
    (hrelated : ∀ concrete label next view, related concrete view →
      implementation.step concrete label next →
      (event label = none ∧ related next view) ∨
        ∃ atomicLabel after, object.atomic.step view atomicLabel after ∧
          atomicLabel.event? = event label ∧ related next after)
    (hinitial : ∀ s, callingInitial s → ∃ t, atomicInitial t ∧
      ∃ views, client.Matches user related s t views)
    {labels : List (Option (Thread × Label))}
    {s : CallingClientState Thread Index Point Memory Concrete}
    (hrun : (client.calling implementation event user callingInitial).Run
      (fun _ _ ↦ True) labels s) :
    ∃ atomicLabels t, (client.atomic object atomicInitial).Run (fun _ _ ↦ True) atomicLabels t ∧
      atomicLabels.reduceOption = labels.reduceOption ∧
      ∃ views, client.Matches user related s t views := by
  induction hrun with
  | start h =>
    obtain ⟨t, hstart, hmatches⟩ := hinitial _ h
    exact ⟨[], t, .start hstart, rfl, hmatches⟩
  | @step labels s next visible _ _ hstep ih =>
    obtain ⟨atomicLabels, t, hatomic, hlabels, views, hmatches⟩ := ih
    rcases hmatches.step huser hrelated hstep with ⟨rfl, hnext⟩ | ⟨t', ht', hnext⟩
    · refine ⟨atomicLabels, t, hatomic, ?_, hnext⟩
      rw [hlabels, List.reduceOption_append]
      simp
    · refine ⟨atomicLabels ++ [visible], t', hatomic.step trivial ht', ?_, hnext⟩
      rw [List.reduceOption_append, List.reduceOption_append, hlabels]

end Runs

end Client

/-! ### One call alone -/

section Alone

variable {Concrete ObjectLabel ObjectThread State Operation Result : Type*}
  [DecidableEq ObjectThread]

/-- How far a single call has got from a state: the history and the state of the atomic object. -/
inductive Alone (object : SequentialObject State Operation Result)
    (a : AtomicState ObjectThread State Operation Result) (thread : ObjectThread)
    (operation : Operation) :
    List (Event ObjectThread Operation Result) →
      AtomicState ObjectThread State Operation Result → Prop
  | before : Alone object a thread operation [] a
  | called : Alone object a thread operation [.call thread operation]
      { a with progress := Function.update a.progress thread (.called operation) }
  | applied : Alone object a thread operation [.call thread operation]
      { object := (object.apply operation a.object).1
        progress := Function.update a.progress thread
          (.applied (object.apply operation a.object).2) }
  | after : Alone object a thread operation
      [.call thread operation, .finish thread (object.apply operation a.object).2]
      { a with object := (object.apply operation a.object).1 }

variable {object : SequentialObject State Operation Result}
  {a b next : AtomicState ObjectThread State Operation Result} {thread : ObjectThread}
  {operation : Operation} {result : Result}

/-- Assumes: all threads were idle. A step keeps to the call, or makes another history. -/
theorem Alone.step {history : List (Event ObjectThread Operation Result)}
    {label : AtomicLabel ObjectThread Operation Result}
    (h : Alone object a thread operation history b) (hidle : ∀ other, a.progress other = .idle)
    (hstep : AtomicStep object b label next)
    (hlabels : history ++ label.event?.toList <+:
      [.call thread operation, .finish thread result]) :
    Alone object a thread operation (history ++ label.event?.toList) next := by
  have hback : ∀ {progress : Progress Operation Result},
      Function.update (Function.update a.progress thread progress) thread .idle = a.progress := by
    intro progress
    rw [Function.update_idem, ← hidle thread, Function.update_eq_self]
  have hothers : ∀ {progress : Progress Operation Result} {other : ObjectThread},
      other ≠ thread → Function.update a.progress thread progress other = .idle := by
    intro progress other hne
    rw [Function.update_of_ne hne, hidle]
  cases h with
  | before =>
    cases hstep with
    | apply hcalled => exact absurd ((hidle _).symm.trans hcalled) (by simp)
    | finish happlied => exact absurd ((hidle _).symm.trans happlied) (by simp)
    | call called hcalled =>
      have heq := (List.cons_prefix_cons.mp hlabels).1
      obtain ⟨rfl, rfl⟩ := Event.call.inj heq
      exact .called
  | called =>
    cases hstep with
    | call called hcalled =>
      have heq := (List.cons_prefix_cons.mp (List.cons_prefix_cons.mp hlabels).2).1
      exact absurd heq (by simp)
    | @finish other _ happlied =>
      by_cases heq : other = thread
      · subst heq
        exact absurd happlied (by simp)
      · exact absurd ((hothers heq).symm.trans happlied) (by simp)
    | @apply other requested hcalled =>
      obtain rfl : other = thread := by_contra fun hne ↦
        absurd ((hothers hne).symm.trans hcalled) (by simp)
      obtain rfl : operation = requested := by simpa using hcalled
      rw [Function.update_idem]
      exact .applied
  | applied =>
    cases hstep with
    | call called hcalled =>
      have heq := (List.cons_prefix_cons.mp (List.cons_prefix_cons.mp hlabels).2).1
      exact absurd heq (by simp)
    | @apply other requested hcalled =>
      by_cases heq : other = thread
      · subst heq
        exact absurd hcalled (by simp)
      · exact absurd ((hothers heq).symm.trans hcalled) (by simp)
    | @finish other given happlied =>
      obtain rfl : other = thread := by_contra fun hne ↦
        absurd ((hothers hne).symm.trans happlied) (by simp)
      obtain rfl : (object.apply operation a.object).2 = given := by simpa using happlied
      rw [hback]
      exact .after
  | after =>
    cases hstep with
    | call called hcalled =>
      have hlength := hlabels.length_le
      simp [AtomicLabel.event?] at hlength
    | apply hcalled => exact absurd ((hidle _).symm.trans hcalled) (by simp)
    | finish happlied => exact absurd ((hidle _).symm.trans happlied) (by simp)

omit [DecidableEq ObjectThread] in
theorem filterMap_concat {Element Image : Type*} (f : Element → Option Image)
    (elements : List Element) (element : Element) :
    (elements ++ [element]).filterMap f = elements.filterMap f ++ (f element).toList := by
  rw [List.filterMap_append, List.filterMap_cons]
  cases f element <;> rfl

/-- Assumes: the implementation is related to the atomic object step by step, and starts where no
thread is in an operation. A run that is one call and its return applies the operation. -/
theorem exists_applied_of_alone {implementation : TransitionSystem Concrete ObjectLabel}
    {event : ObjectLabel → Option (Event ObjectThread Operation Result)}
    {related : Concrete → AtomicState ObjectThread State Operation Result → Prop}
    (hrelated : ∀ concrete label next view, related concrete view →
      implementation.step concrete label next →
      (event label = none ∧ related next view) ∨
        ∃ atomicLabel after, object.atomic.step view atomicLabel after ∧
          atomicLabel.event? = event label ∧ related next after)
    {concrete after : Concrete} {labels : List ObjectLabel} (hstart : related concrete a)
    (hidle : ∀ other, a.progress other = .idle)
    (hrun : (implementation.startedIn concrete).Run (fun _ _ ↦ True) labels after)
    (halone : labels.filterMap event = [.call thread operation, .finish thread result]) :
    result = (object.apply operation a.object).2 ∧
      related after { a with object := (object.apply operation a.object).1 } := by
  have hends : labels.filterMap event <+: [.call thread operation, .finish thread result] →
      ∃ b, related after b ∧ Alone object a thread operation (labels.filterMap event) b := by
    clear halone
    induction hrun with
    | @start state hstate =>
      obtain rfl : state = concrete := hstate
      exact fun _ ↦ ⟨a, hstart, .before⟩
    | @step labels state next label _ _ hstep ih =>
      intro hlabels
      rw [filterMap_concat] at hlabels ⊢
      obtain ⟨b, hb, hhistory⟩ := ih ((List.prefix_append ..).trans hlabels)
      rcases hrelated _ _ _ _ hb hstep with ⟨hnone, hnext⟩ | ⟨_, view, hview, heq, hnext⟩
      · exact ⟨b, hnext, by simpa [hnone] using hhistory⟩
      · rw [← heq] at hlabels ⊢
        exact ⟨view, hnext, hhistory.step hidle hview hlabels⟩
  rw [halone] at hends
  obtain ⟨b, hb, hhistory⟩ := hends (List.prefix_refl _)
  cases hhistory with
  | after => exact ⟨rfl, hb⟩

end Alone

end Libseff.Foundation
