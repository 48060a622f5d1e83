import Libseff.Foundation.Runs

/-!
# Linearizability

A concurrent implementation of an object is linearizable when each operation seems to take effect at
one instant between its call and its return. The atomic object of a sequential specification is the
system that works so: a call is recorded, some time later the whole operation is applied in one
step, and later still its result is returned (`SequentialObject.atomic`). An implementation is
linearizable when every history of its calls and returns is one of the atomic object.

`exists_atomic_of_simulation` proves it from a relation between the states of the two systems, with
at most one step of the atomic object for each step of the implementation.
-/

set_option autoImplicit false
set_option relaxedAutoImplicit false

namespace Libseff.Foundation

/-- What the operations of an object do to its state, one after another. -/
structure SequentialObject (State Operation Result : Type*) where
  start : State
  apply : Operation → State → State × Result

/-- What a client of an object sees. -/
inductive Event (Thread Operation Result : Type*)
  | call (thread : Thread) (operation : Operation)
  | finish (thread : Thread) (result : Result)

/-- How far the operation of a thread has got. -/
inductive Progress (Operation Result : Type*)
  | idle
  | called (operation : Operation)
  | applied (result : Result)

/-- A state of the atomic object. -/
structure AtomicState (Thread State Operation Result : Type*) where
  object : State
  progress : Thread → Progress Operation Result

/-- A step of the atomic object: an event, or the application of the operation of a thread. -/
inductive AtomicLabel (Thread Operation Result : Type*)
  | event (visible : Event Thread Operation Result)
  | apply (thread : Thread)

/-- The event of a step. -/
def AtomicLabel.event? {Thread Operation Result : Type*} :
    AtomicLabel Thread Operation Result → Option (Event Thread Operation Result)
  | .event visible => some visible
  | .apply _ => none

variable {Thread State Operation Result : Type*} [DecidableEq Thread]

/-- The steps of the atomic object. -/
inductive AtomicStep (object : SequentialObject State Operation Result) :
    AtomicState Thread State Operation Result → AtomicLabel Thread Operation Result →
      AtomicState Thread State Operation Result → Prop
  | call {state : AtomicState Thread State Operation Result} {thread : Thread}
      (operation : Operation) (hidle : state.progress thread = .idle) :
      AtomicStep object state (.event (.call thread operation))
        { state with progress := Function.update state.progress thread (.called operation) }
  | apply {state : AtomicState Thread State Operation Result} {thread : Thread}
      {operation : Operation} (hcalled : state.progress thread = .called operation) :
      AtomicStep object state (.apply thread)
        { object := (object.apply operation state.object).1
          progress := Function.update state.progress thread
            (.applied (object.apply operation state.object).2) }
  | finish {state : AtomicState Thread State Operation Result} {thread : Thread} {result : Result}
      (happlied : state.progress thread = .applied result) :
      AtomicStep object state (.event (.finish thread result))
        { state with progress := Function.update state.progress thread .idle }

/-- The atomic object. -/
def SequentialObject.atomic (object : SequentialObject State Operation Result) :
    TransitionSystem (AtomicState Thread State Operation Result)
      (AtomicLabel Thread Operation Result) where
  initial state := state.object = object.start ∧ ∀ thread, state.progress thread = .idle
  step := AtomicStep object

section Inversion

variable {object : SequentialObject State Operation Result}
  {state after : AtomicState Thread State Operation Result}
  {label : AtomicLabel Thread Operation Result} {thread : Thread}

/-- A call only records the operation. -/
theorem AtomicStep.of_call {operation : Operation} (hstep : AtomicStep object state label after)
    (hevent : label.event? = some (.call thread operation)) :
    after =
      { state with progress := Function.update state.progress thread (.called operation) } := by
  cases hstep with
  | call =>
    obtain ⟨rfl, rfl⟩ := Event.call.inj (Option.some.inj hevent)
    rfl
  | apply => exact absurd hevent nofun
  | finish => exact absurd (Option.some.inj hevent) nofun

/-- Only an operation that has taken effect finishes, with its result. -/
theorem AtomicStep.of_finish {result : Result} (hstep : AtomicStep object state label after)
    (hevent : label.event? = some (.finish thread result)) :
    state.progress thread = .applied result ∧
      after = { state with progress := Function.update state.progress thread .idle } := by
  cases hstep with
  | call => exact absurd (Option.some.inj hevent) nofun
  | apply => exact absurd hevent nofun
  | finish happlied =>
    obtain ⟨rfl, rfl⟩ := Event.finish.inj (Option.some.inj hevent)
    exact ⟨happlied, rfl⟩

/-- A step without an event applies an operation that was called. -/
theorem AtomicStep.of_none (hstep : AtomicStep object state label after)
    (hevent : label.event? = none) :
    ∃ thread operation, state.progress thread = .called operation ∧
      after =
        { object := (object.apply operation state.object).1
          progress := Function.update state.progress thread
            (.applied (object.apply operation state.object).2) } := by
  cases hstep with
  | call => exact absurd hevent nofun
  | apply hcalled => exact ⟨_, _, hcalled, rfl⟩
  | finish => exact absurd hevent nofun

end Inversion

/-- Assumes: a relation between the states of an implementation and of the atomic object, which
holds at the start and, with every allowed step, of the states that follow when the atomic object
either does nothing or takes a step with the same event. It holds at the end of every run, for a
state that the atomic object reaches with the same history. -/
theorem exists_atomic_of_simulation {Concrete Label : Type*}
    {object : SequentialObject State Operation Result} {system : TransitionSystem Concrete Label}
    {allowed : Concrete → Label → Prop} {event : Label → Option (Event Thread Operation Result)}
    {related : Concrete → AtomicState Thread State Operation Result → Prop}
    (hinitial : ∀ s, system.initial s → ∃ state, object.atomic.initial state ∧ related s state)
    (hstep : ∀ s label next state, related s state → allowed s label → system.step s label next →
      (event label = none ∧ related next state) ∨
        ∃ atomicLabel after, object.atomic.step state atomicLabel after ∧
          atomicLabel.event? = event label ∧ related next after)
    {labels : List Label} {s : Concrete} (hrun : system.Run allowed labels s) :
    ∃ atomicLabels state, object.atomic.Run (fun _ _ ↦ True) atomicLabels state ∧
      atomicLabels.filterMap AtomicLabel.event? = labels.filterMap event ∧ related s state := by
  induction hrun with
  | start h =>
    obtain ⟨state, hstart, hrelated⟩ := hinitial _ h
    exact ⟨[], state, .start hstart, rfl, hrelated⟩
  | @step labels s next label _ hallowed h ih =>
    obtain ⟨atomicLabels, state, hatomic, hhistory, hrelated⟩ := ih
    rcases hstep s label next state hrelated hallowed h with
      ⟨hsilent, hnext⟩ | ⟨atomicLabel, after, hafter, hevent, hnext⟩
    · refine ⟨atomicLabels, state, hatomic, ?_, hnext⟩
      simp [hhistory, List.filterMap_append, hsilent]
    · refine ⟨atomicLabels ++ [atomicLabel], after, hatomic.step trivial hafter, ?_, hnext⟩
      simp [hhistory, List.filterMap_append, List.filterMap_cons, hevent]

end Libseff.Foundation
