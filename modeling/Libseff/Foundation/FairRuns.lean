import Libseff.Foundation.Runs
import Mathlib.Algebra.Order.Ring.Nat
import Mathlib.Order.Filter.AtTopBot.Basic
import Mathlib.Order.Filter.Finite
import Mathlib.Order.WellFounded
import Mathlib.Data.Nat.Find

/-!
# Fair runs

An infinite run of a system whose steps are taken by agents (`FairRun`): at each moment an agent
takes a step, or nothing happens, and each agent that has not halted takes a step again. A finite
run in which all agents have halted is one too, in which nothing happens any more.

What an agent has for itself, and only its own steps change, stays until its next turn
(`FairRun.exists_turn`). So an agent whose every step lowers a rank comes to where it has none
(`FairRun.exists_goal`). A view of the state that changes only where a rank falls comes to rest
(`FairRun.exists_stable`).
-/

set_option autoImplicit false
set_option relaxedAutoImplicit false

namespace Libseff.Foundation

variable {State Label Agent : Type*}

/-- An infinite run in which every agent that has not halted takes a step again. -/
structure FairRun (system : TransitionSystem State Label) (agent : Label → Agent)
    (halted : State → Agent → Prop) where
  states : ℕ → State
  turns : ℕ → Option Label
  initial : system.initial (states 0)
  idle : ∀ moment, turns moment = none → states (moment + 1) = states moment
  step : ∀ moment label, turns moment = some label →
    system.step (states moment) label (states (moment + 1))
  fair : ∀ moment self, halted (states moment) self ∨
    ∃ later ≥ moment, ∃ label, turns later = some label ∧ agent label = self

namespace FairRun

variable {system : TransitionSystem State Label} {agent : Label → Agent}
  {halted : State → Agent → Prop} (run : FairRun system agent halted)

/-- Every state of the run is reached by a finite one. -/
theorem exists_run (moment : ℕ) :
    ∃ labels, system.Run (fun _ _ ↦ True) labels (run.states moment) := by
  induction moment with
  | zero => exact ⟨[], .start run.initial⟩
  | succ moment ih =>
    obtain ⟨labels, hrun⟩ := ih
    cases hturn : run.turns moment with
    | none =>
      rw [run.idle moment hturn]
      exact ⟨labels, hrun⟩
    | some label => exact ⟨labels ++ [label], hrun.step trivial (run.step moment label hturn)⟩

/-- Assumes: a property that every step of the run preserves, from some moment on. It holds
afterwards. -/
theorem preserved (property : State → Prop) {start : ℕ} (hstart : property (run.states start))
    (hstep : ∀ moment label, start ≤ moment → property (run.states moment) →
      run.turns moment = some label → property (run.states (moment + 1)))
    {moment : ℕ} (hle : start ≤ moment) : property (run.states moment) := by
  induction moment, hle using Nat.le_induction with
  | base => exact hstart
  | succ moment hle ih =>
    cases hturn : run.turns moment with
    | none => rwa [run.idle moment hturn]
    | some label => exact hstep moment label hle ih hturn

/-- Assumes: a view of the state that a step leaves, or lowers in rank. It comes to rest. -/
theorem exists_stable {View : Type*} (view : State → View) (rank : View → ℕ)
    (hstep : ∀ moment label, run.turns moment = some label →
      view (run.states (moment + 1)) = view (run.states moment) ∨
        rank (view (run.states (moment + 1))) < rank (view (run.states moment))) :
    ∃ start, ∀ moment ≥ start, view (run.states moment) = view (run.states start) := by
  -- Rest begins where the rank is least.
  obtain ⟨start, hleast⟩ : ∃ start, ∀ moment, rank (view (run.states start)) ≤
      rank (view (run.states moment)) := by
    obtain ⟨start, hstart⟩ := WellFounded.has_min (InvImage.wf
      (fun moment ↦ rank (view (run.states moment))) Nat.lt_wfRel.wf) Set.univ ⟨0, trivial⟩
    exact ⟨start, fun moment ↦ not_lt.mp (hstart.2 moment trivial)⟩
  refine ⟨start, fun moment hle ↦ ?_⟩
  induction moment, hle using Nat.le_induction with
  | base => rfl
  | succ moment hle ih =>
    cases hturn : run.turns moment with
    | none => rw [run.idle moment hturn, ih]
    | some label =>
      rcases hstep moment label hturn with heq | hlt
      · rw [heq, ih]
      · rw [ih] at hlt
        exact absurd (hleast (moment + 1)) (not_le.mpr hlt)

variable {Own : Type*} {own : State → Agent → Own}

/-- Assumes: what an agent has for itself, which the steps of the others leave. An agent that has
not halted has it still when it takes its next step. -/
theorem exists_turn (hothers : ∀ moment label self, run.turns moment = some label →
      agent label ≠ self → own (run.states (moment + 1)) self = own (run.states moment) self)
    {self : Agent} {moment : ℕ} (hhalted : ¬ halted (run.states moment) self) :
    ∃ later ≥ moment, ∃ label, run.turns later = some label ∧ agent label = self ∧
      own (run.states later) self = own (run.states moment) self := by
  classical
  have hexists := (run.fair moment self).resolve_left hhalted
  obtain ⟨hle, label, hturn, hself⟩ := Nat.find_spec hexists
  refine ⟨Nat.find hexists, hle, label, hturn, hself, ?_⟩
  have hbefore : ∀ current, moment ≤ current → current ≤ Nat.find hexists →
      own (run.states current) self = own (run.states moment) self := by
    intro current hcurrent
    induction current, hcurrent using Nat.le_induction with
    | base => exact fun _ ↦ rfl
    | succ current hcurrent ih =>
      intro hlt
      rw [← ih (Nat.le_of_succ_le hlt)]
      cases hother : run.turns current with
      | none => rw [run.idle current hother]
      | some label =>
        refine hothers current label self hother fun heq ↦ ?_
        exact Nat.find_min hexists hlt ⟨hcurrent, label, hother, heq⟩
  exact hbefore _ hle le_rfl

/-- Assumes: what an agent has for itself, which the steps of the others leave, and whose rank its
own steps lower until it is at a goal; before that it does not halt. It comes to the goal. -/
theorem exists_goal (hothers : ∀ moment label self, run.turns moment = some label →
      agent label ≠ self → own (run.states (moment + 1)) self = own (run.states moment) self)
    (goal : Own → Prop) (rank : Own → ℕ) {self : Agent} {start : ℕ}
    (hhalted : ∀ moment ≥ start, halted (run.states moment) self →
      goal (own (run.states moment) self))
    (hstep : ∀ moment ≥ start, ∀ label, run.turns moment = some label → agent label = self →
      ¬ goal (own (run.states moment) self) → goal (own (run.states (moment + 1)) self) ∨
        rank (own (run.states (moment + 1)) self) < rank (own (run.states moment) self))
    {moment : ℕ} (hle : start ≤ moment) :
    ∃ later ≥ moment, goal (own (run.states later) self) := by
  obtain ⟨bound, hbound⟩ : ∃ bound, rank (own (run.states moment) self) ≤ bound := ⟨_, le_rfl⟩
  induction bound using Nat.strong_induction_on generalizing moment with
  | _ bound ih =>
    by_cases hgoal : goal (own (run.states moment) self)
    · exact ⟨moment, le_rfl, hgoal⟩
    obtain ⟨later, hlater, label, hturn, hself, hown⟩ :=
      run.exists_turn hothers fun h ↦ hgoal (hhalted moment hle h)
    rw [← hown] at hgoal hbound
    have hlaterLe : start ≤ later := hle.trans hlater
    rcases hstep later hlaterLe label hturn hself hgoal with hreached | hlt
    · exact ⟨later + 1, hlater.trans (Nat.le_succ later), hreached⟩
    · obtain ⟨final, hfinal, hreached⟩ := ih _ (lt_of_lt_of_le hlt hbound)
        (hlaterLe.trans (Nat.le_succ later)) le_rfl
      exact ⟨final, (hlater.trans (Nat.le_succ later)).trans hfinal, hreached⟩

end FairRun

section Existence

variable {n : ℕ} [NeZero n] {system : TransitionSystem State Label} {agent : Label → Fin n}
  {halted : State → Fin n → Prop}

/-- Assumes: in every state that is reached, each agent that has not halted has a step, and the
steps of the others do not make it halt. When the agents take turns the run is fair. -/
theorem exists_fairRun {state : State} (hinitial : system.initial state)
    (hprogress : ∀ labels state self, system.Run (fun _ _ ↦ True) labels state →
      ¬ halted state self → ∃ label next, agent label = self ∧ system.step state label next)
    (hothers : ∀ state label next self, system.step state label next → agent label ≠ self →
      ¬ halted state self → ¬ halted next self) :
    ∃ run : FairRun system agent halted, run.states 0 = state := by
  classical
  have hturn : ∀ (current : {state // ∃ labels, system.Run (fun _ _ ↦ True) labels state})
      (self : Fin n), ∃ (label : Option Label)
      (next : {state // ∃ labels, system.Run (fun _ _ ↦ True) labels state}),
      (label = none → next = current ∧ halted current.1 self) ∧
        ∀ given, label = some given → agent given = self ∧ system.step current.1 given next.1 := by
    rintro ⟨current, labels, hrun⟩ self
    by_cases hhalted : halted current self
    · exact ⟨none, ⟨current, labels, hrun⟩, fun _ ↦ ⟨rfl, hhalted⟩,
        fun given hgiven ↦ absurd hgiven.symm (Option.some_ne_none given)⟩
    · obtain ⟨label, next, hself, hstep⟩ := hprogress labels current self hrun hhalted
      refine ⟨some label, ⟨next, labels ++ [label], hrun.step trivial hstep⟩,
        fun hnone ↦ absurd hnone (Option.some_ne_none label), fun given hgiven ↦ ?_⟩
      rw [← Option.some.inj hgiven]
      exact ⟨hself, hstep⟩
  choose label next hidle htakes using hturn
  let turnOf (moment : ℕ) : Fin n := ⟨moment % n, Nat.mod_lt _ (Nat.pos_of_ne_zero (NeZero.ne n))⟩
  let states : ℕ → {state // ∃ labels, system.Run (fun _ _ ↦ True) labels state} := fun moment ↦
    Nat.rec ⟨state, [], .start hinitial⟩ (fun moment current ↦ next current (turnOf moment)) moment
  refine ⟨
    { states := fun moment ↦ (states moment).1
      turns := fun moment ↦ label (states moment) (turnOf moment)
      initial := hinitial
      idle := fun moment hnone ↦ congrArg Subtype.val (hidle _ _ hnone).1
      step := fun moment given hgiven ↦ (htakes _ _ given hgiven).2
      fair := fun moment self ↦ ?_ }, rfl⟩
  by_contra hunfair
  obtain ⟨hhalted, hnever⟩ := not_or.mp hunfair
  -- The agent would not have halted when its turn comes.
  have hstays : ∀ later ≥ moment, ¬ halted (states later).1 self := by
    intro later hlater
    induction later, hlater using Nat.le_induction with
    | base => exact hhalted
    | succ later hlater ih =>
      cases hlabel : label (states later) (turnOf later) with
      | none =>
        have hsame : states (later + 1) = states later := (hidle _ _ hlabel).1
        rwa [hsame]
      | some given =>
        refine hothers _ given _ self (htakes _ _ given hlabel).2 (fun heq ↦ hnever ?_) ih
        exact ⟨later, hlater, given, hlabel, heq⟩
  have hle : moment ≤ n * moment + self :=
    (Nat.le_mul_of_pos_left moment (Nat.pos_of_ne_zero (NeZero.ne n))).trans (Nat.le_add_right ..)
  have hself : turnOf (n * moment + self) = self := by
    refine Fin.ext ?_
    change (n * moment + self) % n = self
    rw [Nat.mul_add_mod, Nat.mod_eq_of_lt self.isLt]
  cases hlabel : label (states (n * moment + self)) (turnOf (n * moment + self)) with
  | none =>
    have hdone := (hidle _ _ hlabel).2
    rw [hself] at hdone
    exact hstays _ hle hdone
  | some given =>
    have hagent := (htakes _ _ given hlabel).1
    rw [hself] at hagent
    exact hnever ⟨_, hle, given, hlabel, hagent⟩

end Existence

/-- What comes to hold for each agent for good comes to hold for all of them at once. -/
theorem exists_forall_ge [Finite Agent] {property : ℕ → Agent → Prop}
    (h : ∀ self, ∃ start, ∀ moment ≥ start, property moment self) :
    ∃ start, ∀ moment ≥ start, ∀ self, property moment self :=
  Filter.eventually_atTop.mp (Filter.eventually_all.mpr fun self ↦
    Filter.eventually_atTop.mpr (h self))

end Libseff.Foundation
