import Mathlib.Logic.Function.Basic
import Mathlib.Tactic.Common

/-!
# Runs of a labelled transition system

A system is a set of initial states and a labelled step relation. A run is a list of labels
together with the state it ends in, and it may be restricted to steps that meet a condition on the
state before the step and the label (`Run`). What one step preserves a run preserves
(`Run.invariant`), also where it concerns the labels taken so far (`Run.history`).

A system whose steps are computed by a partial function (`ofNext`) can be executed along a list of
labels (`execute`).
-/

set_option autoImplicit false
set_option relaxedAutoImplicit false

namespace Libseff.Foundation

/-- A labelled transition system. -/
structure TransitionSystem (State Label : Type*) where
  /-- The states a run may start in. -/
  initial : State → Prop
  /-- The steps, each with its label. -/
  step : State → Label → State → Prop

namespace TransitionSystem

variable {State Label : Type*}

/-- The runs all of whose steps are allowed, with the labels in the order they were taken. -/
inductive Run (system : TransitionSystem State Label) (allowed : State → Label → Prop) :
    List Label → State → Prop
  | start {state : State} (hinitial : system.initial state) : Run system allowed [] state
  | step {labels : List Label} {state next : State} {label : Label}
      (hrun : Run system allowed labels state) (hallowed : allowed state label)
      (hstep : system.step state label next) : Run system allowed (labels ++ [label]) next

variable {system : TransitionSystem State Label} {allowed : State → Label → Prop}

/-- Assumes: a property of the labels taken and the state reached, which holds at the start and
which every allowed step preserves. It holds at the end of every run. -/
theorem Run.history {property : List Label → State → Prop} {labels : List Label} {state : State}
    (hrun : system.Run allowed labels state)
    (hinitial : ∀ state, system.initial state → property [] state)
    (hstep : ∀ labels state label next, property labels state → allowed state label →
      system.step state label next → property (labels ++ [label]) next) :
    property labels state := by
  induction hrun with
  | start h => exact hinitial _ h
  | step _ hallowed h ih => exact hstep _ _ _ _ ih hallowed h

/-- Assumes: a property of the initial states that every allowed step preserves. It holds at the
end of every run. -/
theorem Run.invariant {property : State → Prop} {labels : List Label} {state : State}
    (hrun : system.Run allowed labels state)
    (hinitial : ∀ state, system.initial state → property state)
    (hstep : ∀ state label next, property state → allowed state label →
      system.step state label next → property next) : property state :=
  Run.history hrun hinitial fun _ ↦ hstep

/-- The system with its steps, started in a given state. -/
def startedIn (system : TransitionSystem State Label) (state : State) :
    TransitionSystem State Label where
  initial := (· = state)
  step := system.step

/-- Assumes: a run that starts where another ends. They make one run. -/
theorem Run.append {allowedAfter : State → Label → Prop} {labels labelsAfter : List Label}
    {state after : State} (hrun : system.Run allowed labels state)
    (hrunAfter : (system.startedIn state).Run allowedAfter labelsAfter after)
    (hallowed : ∀ state label, allowedAfter state label → allowed state label) :
    system.Run allowed (labels ++ labelsAfter) after := by
  induction hrunAfter with
  | start h =>
    rw [List.append_nil, h]
    exact hrun
  | step _ h hstep ih =>
    rw [← List.append_assoc]
    exact ih.step (hallowed _ _ h) hstep

/-- The system whose steps a partial function computes. -/
def ofNext (initial : State → Prop) (next : State → Label → Option State) :
    TransitionSystem State Label where
  initial := initial
  step state label after := next state label = some after

/-- Runs the labels one after another, as long as each step is allowed. -/
def execute (next : State → Label → Option State) (allowed : State → Label → Bool) :
    State → List Label → Option State
  | state, [] => some state
  | state, label :: labels =>
    if allowed state label then
      (next state label).bind fun after ↦ execute next allowed after labels
    else none

end TransitionSystem

end Libseff.Foundation
