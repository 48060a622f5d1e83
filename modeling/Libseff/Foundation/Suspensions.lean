import Libseff.Foundation.SystemCalls
import Libseff.Foundation.Totals

/-!
# Programs that are suspended at their calls

Where the answer to a call depends on the call alone, a program has one result
(`Program.answered`) and one list of calls (`Program.asked`). A coroutine that runs it is ready, or
is suspended at a call; to resume it with an answer runs it to its next call or to its end. Whatever
else is resumed in between, its result, the answers that it still takes and the number of times that
it is still resumed are those of the program (`Suspension.of_resume_done`,
`Suspension.of_resume_call`).

The members of a pool are made, changed and deleted one at a time, and a sum over all of them
changes by what the one of them contributes (`sum_update`). Steps that lower a measure as long as
there is something to do come to an end (`exists_iterate_of_measure`).
-/

set_option autoImplicit false
set_option relaxedAutoImplicit false

namespace Libseff.Foundation.SystemCalls

section Suspensions

variable {Call Answer Result : Type} (answer : Call → Answer)

/-- The result, when each call has its answer. -/
def Program.answered : Program Call (fun _ ↦ Answer) Result → Result
  | .done result => result
  | .call request next => (next (answer request)).answered

/-- The calls in their order, when each has its answer. -/
def Program.asked : Program Call (fun _ ↦ Answer) Result → List Call
  | .done _ => []
  | .call request next => request :: (next (answer request)).asked

/-- A program that is not running. -/
inductive Suspension (Call Answer Result : Type)
  | ready (program : Program Call (fun _ ↦ Answer) Result)
  | waits (request : Call) (next : Answer → Program Call (fun _ ↦ Answer) Result)

namespace Suspension

/-- What goes on when it is resumed. One that is ready takes no answer. -/
def resume (value : Answer) : Suspension Call Answer Result →
    Program Call (fun _ ↦ Answer) Result
  | ready program => program
  | waits _ next => next value

/-- The call at which it is suspended. -/
def request? : Suspension Call Answer Result → Option Call
  | ready _ => none
  | waits request _ => some request

/-- What goes on when it is resumed with the answer to its call. -/
def rest : Suspension Call Answer Result → Program Call (fun _ ↦ Answer) Result
  | ready program => program
  | waits request next => next (answer request)

/-- The calls whose answers it will take. -/
def asked (suspension : Suspension Call Answer Result) : List Call :=
  suspension.request?.toList ++ (suspension.rest answer).asked answer

/-- How often it will be resumed. -/
def resumptions (suspension : Suspension Call Answer Result) : ℕ :=
  ((suspension.rest answer).asked answer).length + 1

variable {answer} {suspension : Suspension Call Answer Result} {value : Answer}

/-- Assumes: the value is the answer to the call, if there is one. -/
theorem resume_eq_rest (hvalue : ∀ request ∈ suspension.request?, value = answer request) :
    suspension.resume value = suspension.rest answer := by
  cases suspension with
  | ready program => rfl
  | waits request next => exact congrArg next (hvalue request rfl)

/-- Assumes: the value is the answer to the call, and the program ends. -/
theorem of_resume_done (hvalue : ∀ request ∈ suspension.request?, value = answer request)
    {result : Result} (hresume : suspension.resume value = .done result) :
    (suspension.rest answer).answered answer = result ∧
      suspension.asked answer = suspension.request?.toList ∧
        suspension.resumptions answer = 1 := by
  rw [resume_eq_rest hvalue] at hresume
  rw [asked, resumptions, hresume]
  exact ⟨rfl, List.append_nil _, rfl⟩

/-- Assumes: the value is the answer to the call, and the program makes its next call. -/
theorem of_resume_call (hvalue : ∀ request ∈ suspension.request?, value = answer request)
    {request : Call} {next : Answer → Program Call (fun _ ↦ Answer) Result}
    (hresume : suspension.resume value = .call request next) :
    (suspension.rest answer).answered answer = ((waits request next).rest answer).answered answer ∧
      suspension.asked answer =
        suspension.request?.toList ++ (waits request next).asked answer ∧
        suspension.resumptions answer = (waits request next).resumptions answer + 1 := by
  rw [resume_eq_rest hvalue] at hresume
  rw [asked, resumptions, hresume]
  exact ⟨rfl, rfl, rfl⟩

end Suspension

end Suspensions

section Pools

variable {Key Value M : Type*} [Fintype Key] [DecidableEq Key] [AddCommMonoid M]

/-- One member changes, and its contribution with it. -/
theorem sum_update (weight : Key → Value → M) (members : Key → Value) (key : Key) (value : Value) :
    ∑ other, weight other (Function.update members key value other) + weight key (members key) =
      ∑ other, weight other (members other) + weight key value := by
  have hpair : (fun other ↦ (other, Function.update members key value other)) =
      Function.update (fun other ↦ (other, members other)) key (key, value) := by
    funext other
    rcases eq_or_ne other key with rfl | hne
    · rw [Function.update_self, Function.update_self]
    · rw [Function.update_of_ne hne, Function.update_of_ne hne]
  have htotal := total_update (fun pair : Key × Value ↦ weight pair.1 pair.2)
    (fun other ↦ (other, members other)) key (key, value)
  rwa [← hpair] at htotal

end Pools

/-- Assumes: each step from a state of the invariant keeps it and lowers the measure, unless that
state is a goal. -/
theorem exists_iterate_of_measure {State : Type*} (step : State → State)
    (invariant goal : State → Prop) (measure : State → ℕ)
    (hstep : ∀ state, invariant state →
      goal state ∨ invariant (step state) ∧ measure (step state) < measure state)
    {state : State} (hinvariant : invariant state) : ∃ moment, goal (step^[moment] state) := by
  induction hmeasure : measure state using Nat.strong_induction_on generalizing state with
  | _ bound ih =>
    rcases hstep state hinvariant with hgoal | ⟨hnext, hlt⟩
    · exact ⟨0, hgoal⟩
    · obtain ⟨moment, hmoment⟩ := ih _ (hmeasure ▸ hlt) hnext rfl
      exact ⟨moment + 1, hmoment⟩

/-- A thing that is made once and deleted once. -/
inductive Lifetime (Value : Type*)
  | unmade
  | live (value : Value)
  | deleted

end Libseff.Foundation.SystemCalls
