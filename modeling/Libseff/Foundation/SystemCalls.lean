import Libseff.Foundation.Runs
import Mathlib.Logic.Relation

/-!
# Programs that make system calls

A program ends with a result or makes a call and goes on with its answer. What answers it has a
state of its own, which also changes by events between the calls. A loop repeats a program on its
variables until a round gives a result; a run of it is labelled with the answers and the events.

A program ensures a condition if, whatever is answered, each call it makes is one that may be made
and its result is a right one (`Program.Ensures`); a call or a result is judged by the labels so
far. Conditions of a program follow its structure (`ensures_bind`), and a condition on the variables
that every round keeps holds of every run (`Loop.meets_of_run`).
-/

set_option autoImplicit false
set_option relaxedAutoImplicit false

namespace Libseff.Foundation.SystemCalls

/-! ### Programs -/

/-- A program with calls, each of which has answers of its own. -/
inductive Program (Call : Type) (Answer : Call → Type) (Result : Type) : Type
  | done (result : Result)
  | call (request : Call) (next : Answer request → Program Call Answer Result)

variable {Call : Type} {Answer : Call → Type} {Result Next : Type}

/-- Goes on with the result. -/
def Program.bind (program : Program Call Answer Result)
    (next : Result → Program Call Answer Next) : Program Call Answer Next :=
  match program with
  | .done result => next result
  | .call request after => .call request fun answer ↦ (after answer).bind next

instance : Monad (Program Call Answer) where
  pure := .done
  bind := Program.bind

@[simp] theorem Program.done_bind (result : Result) (next : Result → Program Call Answer Next) :
    (Program.done result >>= next : Program Call Answer Next) = next result := rfl

@[simp] theorem Program.call_bind (request : Call)
    (after : Answer request → Program Call Answer Result)
    (next : Result → Program Call Answer Next) :
    (Program.call request after >>= next : Program Call Answer Next) =
      .call request fun answer ↦ after answer >>= next := rfl

theorem Program.bind_bind {Last : Type} (program : Program Call Answer Result)
    (next : Result → Program Call Answer Next) (last : Next → Program Call Answer Last) :
    (program >>= next) >>= last = program >>= fun result ↦ next result >>= last := by
  induction program with
  | done result => rfl
  | call request after ih => exact congrArg _ (funext ih)

theorem Program.bind_done (program : Program Call Answer Result) :
    program >>= Program.done = program := by
  induction program with
  | done result => rfl
  | call request after ih => exact congrArg _ (funext ih)

/-- One call. -/
def ask (Answer : Call → Type) (request : Call) : Program Call Answer (Answer request) :=
  .call request .done

/-! ### Runs -/

/-- What answers the calls, and what happens to it besides. -/
structure Surroundings (Call : Type) (Answer : Call → Type) (State Event : Type) where
  answers : State → (request : Call) → Answer request → State → Prop
  happens : State → Event → State → Prop

inductive Label (Call : Type) (Answer : Call → Type) (Event : Type)
  | answer (request : Call) (answer : Answer request)
  | event (event : Event)

/-- A program that is repeated: a round ends with the variables of the next one or with a result. -/
abbrev Loop (Call : Type) (Answer : Call → Type) (Locals Result : Type) :=
  Locals → Program Call Answer (Locals ⊕ Result)

/-- A program that runs once. -/
def Program.once (program : Program Call Answer Result) : Loop Call Answer Unit Result :=
  fun _ ↦ program.bind fun result ↦ .done (.inr result)

/-- What a loop is at: a call, or its end. -/
inductive Activity (Call : Type) (Answer : Call → Type) (Locals Result : Type)
  | calling (request : Call) (next : Answer request → Program Call Answer (Locals ⊕ Result))
  | returned (result : Result)

variable {Locals State Event : Type}

/-- The next call or the end, which may be some rounds away. -/
inductive Resumes (loop : Loop Call Answer Locals Result) :
    Program Call Answer (Locals ⊕ Result) → Activity Call Answer Locals Result → Prop
  | call (request : Call) (next : Answer request → Program Call Answer (Locals ⊕ Result)) :
    Resumes loop (.call request next) (.calling request next)
  | returned (result : Result) : Resumes loop (.done (.inr result)) (.returned result)
  | round {locals : Locals} {activity : Activity Call Answer Locals Result}
    (h : Resumes loop (loop locals) activity) : Resumes loop (.done (.inl locals)) activity

inductive Step (loop : Loop Call Answer Locals Result)
    (surroundings : Surroundings Call Answer State Event) :
    Activity Call Answer Locals Result × State → Label Call Answer Event →
      Activity Call Answer Locals Result × State → Prop
  | answer {request : Call} {next : Answer request → Program Call Answer (Locals ⊕ Result)}
    {answer : Answer request} {state after : State} {activity : Activity Call Answer Locals Result}
    (hanswer : surroundings.answers state request answer after)
    (hresumes : Resumes loop (next answer) activity) :
    Step loop surroundings (.calling request next, state) (.answer request answer)
      (activity, after)
  | event {activity : Activity Call Answer Locals Result} {state after : State} {event : Event}
    (hevent : surroundings.happens state event after) :
    Step loop surroundings (activity, state) (.event event) (activity, after)

/-- The runs of a loop that starts with some variables and in one of some states. -/
def Loop.system (loop : Loop Call Answer Locals Result)
    (surroundings : Surroundings Call Answer State Event) (start : Locals)
    (initial : State → Prop) :
    TransitionSystem (Activity Call Answer Locals Result × State) (Label Call Answer Event) where
  initial := fun (activity, state) ↦ Resumes loop (loop start) activity ∧ initial state
  step := Step loop surroundings

/-! ### Conditions -/

/-- The labels so far, and the state they lead to. -/
abbrev History (Call : Type) (Answer : Call → Type) (State Event : Type) :=
  List (Label Call Answer Event) × State

section Conditions

variable (surroundings : Surroundings Call Answer State Event)
  (allowed : State → Label Call Answer Event → Prop)

/-- One more event. -/
def Happens (history later : History Call Answer State Event) : Prop :=
  ∃ event, surroundings.happens history.2 event later.2 ∧ later.1 = history.1 ++ [.event event]

/-- No event takes a condition away. -/
def Stable (condition : History Call Answer State Event → Prop) : Prop :=
  ∀ history later, condition history → Happens surroundings history later → condition later

/-- Every call is one that may be made, and the result is right, whatever happens. -/
def Program.Ensures (may : History Call Answer State Event → Call → Prop)
    (right : History Call Answer State Event → Result → Prop) :
    Program Call Answer Result → History Call Answer State Event → Prop
  | .done result, history => ∀ later, Relation.ReflTransGen (Happens surroundings) history later →
    right later result
  | .call request next, history => ∀ later,
    Relation.ReflTransGen (Happens surroundings) history later →
      may later request ∧ ∀ answer after, surroundings.answers later.2 request answer after →
        allowed later.2 (.answer request answer) →
          (next answer).Ensures may right (later.1 ++ [.answer request answer], after)

/-- The call that a loop is at may be made, or its result is right. -/
def Activity.Meets (may : History Call Answer State Event → Call → Prop)
    (right : History Call Answer State Event → Result → Prop)
    (history : History Call Answer State Event) : Activity Call Answer Locals Result → Prop
  | .calling request _ => may history request
  | .returned result => right history result

/-- A round keeps a condition on the variables, and a result is right. -/
def Keeps (keep : History Call Answer State Event → Locals → Prop)
    (right : History Call Answer State Event → Result → Prop)
    (history : History Call Answer State Event) : Locals ⊕ Result → Prop
  | .inl locals => keep history locals
  | .inr result => right history result

/-- From what a loop is at on, it ensures the conditions. -/
def Activity.Ensures (may : History Call Answer State Event → Call → Prop)
    (keep : History Call Answer State Event → Locals → Prop)
    (right : History Call Answer State Event → Result → Prop)
    (history : History Call Answer State Event) : Activity Call Answer Locals Result → Prop
  | .calling request next =>
    (Program.call request next).Ensures surroundings allowed may (Keeps keep right) history
  | .returned result => ∀ later, Relation.ReflTransGen (Happens surroundings) history later →
    right later result

variable {surroundings allowed} {may : History Call Answer State Event → Call → Prop}
  {right : History Call Answer State Event → Result → Prop}
  {keep : History Call Answer State Event → Locals → Prop}
  {history later : History Call Answer State Event}

/-! #### Programs -/

/-- The conditions of a program go on with its result. -/
theorem ensures_bind {program : Program Call Answer Result}
    {next : Result → Program Call Answer Next}
    {rightNext : History Call Answer State Event → Next → Prop}
    (h : program.Ensures surroundings allowed may (fun history result ↦
      (next result).Ensures surroundings allowed may rightNext history) history) :
    (program >>= next).Ensures surroundings allowed may rightNext history := by
  induction program generalizing history with
  | done result => exact h history .refl
  | call request after ih =>
    intro later hlater
    obtain ⟨hmay, hafter⟩ := h later hlater
    exact ⟨hmay, fun answer state hanswer hallowed ↦
      ih answer (hafter answer state hanswer hallowed)⟩

theorem Program.Ensures.mono {program : Program Call Answer Result}
    {weaker : History Call Answer State Event → Result → Prop}
    (h : program.Ensures surroundings allowed may right history)
    (hweaker : ∀ history result, right history result → weaker history result) :
    program.Ensures surroundings allowed may weaker history := by
  induction program generalizing history with
  | done result => exact fun later hlater ↦ hweaker _ _ (h later hlater)
  | call request after ih =>
    intro later hlater
    obtain ⟨hmay, hafter⟩ := h later hlater
    exact ⟨hmay, fun answer state hanswer hallowed ↦
      ih answer (hafter answer state hanswer hallowed)⟩

theorem Program.Ensures.mono_may {program : Program Call Answer Result}
    {weaker : History Call Answer State Event → Call → Prop}
    (h : program.Ensures surroundings allowed may right history)
    (hweaker : ∀ history request, may history request → weaker history request) :
    program.Ensures surroundings allowed weaker right history := by
  induction program generalizing history with
  | done result => exact h
  | call request after ih =>
    intro later hlater
    obtain ⟨hmay, hafter⟩ := h later hlater
    exact ⟨hweaker later request hmay, fun answer state hanswer hallowed ↦
      ih answer (hafter answer state hanswer hallowed)⟩

theorem ensures_map {program : Program Call Answer Result} {value : Result → Next}
    {rightNext : History Call Answer State Event → Next → Prop}
    (h : program.Ensures surroundings allowed may right history)
    (hright : ∀ history result, right history result → rightNext history (value result)) :
    (program.bind fun result ↦ .done (value result)).Ensures surroundings allowed may rightNext
      history := by
  induction program generalizing history with
  | done result => exact fun later hlater ↦ hright _ _ (h later hlater)
  | call request after ih =>
    intro later hlater
    obtain ⟨hmay, hafter⟩ := h later hlater
    exact ⟨hmay, fun answer state hanswer hallowed ↦
      ih answer (hafter answer state hanswer hallowed)⟩

theorem Stable.of_reflTransGen {condition : History Call Answer State Event → Prop}
    (hstable : Stable surroundings condition) (hcondition : condition history)
    (hlater : Relation.ReflTransGen (Happens surroundings) history later) : condition later := by
  induction hlater with
  | refl => exact hcondition
  | tail _ hhappens ih => exact hstable _ _ ih hhappens

/-- Assumes: what every answer and every event keep. It holds at each call and with the result. -/
theorem Program.Ensures.and_invariant {program : Program Call Answer Result}
    (invariant : History Call Answer State Event → Prop)
    (hstable : Stable surroundings invariant)
    (hanswer : ∀ history request answer after, invariant history →
      surroundings.answers history.2 request answer after →
        invariant (history.1 ++ [.answer request answer], after))
    (h : program.Ensures surroundings allowed may right history) (hinvariant : invariant history) :
    program.Ensures surroundings allowed
      (fun history request ↦ may history request ∧ invariant history)
      (fun history result ↦ right history result ∧ invariant history) history := by
  induction program generalizing history with
  | done result =>
    exact fun later hlater ↦ ⟨h later hlater, hstable.of_reflTransGen hinvariant hlater⟩
  | call request after ih =>
    intro later hlater
    obtain ⟨hmay, hafter⟩ := h later hlater
    have hlaterInvariant := hstable.of_reflTransGen hinvariant hlater
    exact ⟨⟨hmay, hlaterInvariant⟩, fun answer state hgiven hallowed ↦
      ih answer (hafter answer state hgiven hallowed)
        (hanswer later request answer state hlaterInvariant hgiven)⟩

/-- What is ensured stays so when something happens. -/
theorem Program.Ensures.of_happens {program : Program Call Answer Result}
    (h : program.Ensures surroundings allowed may right history)
    (hlater : Happens surroundings history later) :
    program.Ensures surroundings allowed may right later := by
  cases program with
  | done result => exact fun last hlast ↦ h last (hlast.head hlater)
  | call request next => exact fun last hlast ↦ h last (hlast.head hlater)

theorem Stable.and {condition other : History Call Answer State Event → Prop}
    (hcondition : Stable surroundings condition) (hother : Stable surroundings other) :
    Stable surroundings fun history ↦ condition history ∧ other history :=
  fun _ _ h hhappens ↦ ⟨hcondition _ _ h.1 hhappens, hother _ _ h.2 hhappens⟩

/-- Assumes: a condition that no event takes away. A call is judged where it holds. -/
theorem ensures_ask_of_stable {condition : History Call Answer State Event → Prop}
    {request : Call} {next : Answer request → Program Call Answer Result}
    (hstable : Stable surroundings condition) (hcondition : condition history)
    (h : ∀ history, condition history → may history request ∧ ∀ answer after,
      surroundings.answers history.2 request answer after →
        allowed history.2 (.answer request answer) →
          (next answer).Ensures surroundings allowed may right
            (history.1 ++ [.answer request answer], after)) :
    (ask Answer request >>= next).Ensures surroundings allowed may right history :=
  fun later hlater ↦ h later (hstable.of_reflTransGen hcondition hlater)

/-- Assumes: a condition that no event takes away. A result is right if the condition says so. -/
theorem ensures_done_of_stable {condition : History Call Answer State Event → Prop}
    {result : Result} (hstable : Stable surroundings condition) (hcondition : condition history)
    (h : ∀ history, condition history → right history result) :
    (Program.done result : Program Call Answer Result).Ensures surroundings allowed may right
      history :=
  fun later hlater ↦ h later (hstable.of_reflTransGen hcondition hlater)

theorem eq_of_reflTransGen_happens [IsEmpty Event]
    (hlater : Relation.ReflTransGen (Happens surroundings) history later) : later = history := by
  induction hlater with
  | refl => rfl
  | tail _ hhappens _ => exact isEmptyElim hhappens.choose

/-- Where there are no events, a call is judged when it is made. -/
theorem ensures_call_iff [IsEmpty Event] {request : Call}
    {next : Answer request → Program Call Answer Result} :
    (Program.call request next).Ensures surroundings allowed may right history ↔
      may history request ∧ ∀ answer after,
        surroundings.answers history.2 request answer after →
          allowed history.2 (.answer request answer) →
            (next answer).Ensures surroundings allowed may right
              (history.1 ++ [.answer request answer], after) := by
  constructor
  · exact fun h ↦ h history .refl
  · intro h later hlater
    rwa [eq_of_reflTransGen_happens hlater]

theorem ensures_ask_iff [IsEmpty Event] {request : Call}
    {next : Answer request → Program Call Answer Result} :
    (ask Answer request >>= next).Ensures surroundings allowed may right history ↔
      may history request ∧ ∀ answer after,
        surroundings.answers history.2 request answer after →
          allowed history.2 (.answer request answer) →
            (next answer).Ensures surroundings allowed may right
              (history.1 ++ [.answer request answer], after) :=
  ensures_call_iff

theorem ensures_done_iff [IsEmpty Event] {result : Result} :
    (Program.done result : Program Call Answer Result).Ensures surroundings allowed may right
      history ↔ right history result := by
  constructor
  · exact fun h ↦ h history .refl
  · intro h later hlater
    rwa [eq_of_reflTransGen_happens hlater]

/-! #### Loops -/

/-- Assumes: every round keeps the condition on the variables. What has been ensured up to the next
call is ensured from there on. -/
theorem Resumes.ensures {loop : Loop Call Answer Locals Result}
    (hround : ∀ history locals, keep history locals →
      (loop locals).Ensures surroundings allowed may (Keeps keep right) history)
    {program : Program Call Answer (Locals ⊕ Result)}
    {activity : Activity Call Answer Locals Result} (hresumes : Resumes loop program activity)
    (h : program.Ensures surroundings allowed may (Keeps keep right) history) :
    activity.Ensures surroundings allowed may keep right history := by
  induction hresumes with
  | call request next => exact h
  | returned result => exact h
  | round _ ih => exact ih (hround _ _ (h history .refl))

theorem Activity.Ensures.meets {activity : Activity Call Answer Locals Result}
    (h : activity.Ensures surroundings allowed may keep right history) :
    activity.Meets may right history := by
  cases activity with
  | calling request next => exact (h history .refl).1
  | returned result => exact h history .refl

/-- One step keeps what is ensured. -/
theorem Step.ensures {loop : Loop Call Answer Locals Result}
    (hround : ∀ history locals, keep history locals →
      (loop locals).Ensures surroundings allowed may (Keeps keep right) history)
    {labels : List (Label Call Answer Event)} {label : Label Call Answer Event}
    {before after : Activity Call Answer Locals Result × State}
    (hstep : Step loop surroundings before label after) (hallowed : allowed before.2 label)
    (h : before.1.Ensures surroundings allowed may keep right (labels, before.2)) :
    after.1.Ensures surroundings allowed may keep right (labels ++ [label], after.2) := by
  cases hstep with
  | answer hanswer hresumes =>
    exact hresumes.ensures hround ((h _ .refl).2 _ _ hanswer hallowed)
  | @event activity state _ event hevent =>
    have hhappens : Happens surroundings (labels, state) (labels ++ [.event event], _) :=
      ⟨event, hevent, rfl⟩
    cases activity with
    | calling request next => exact Program.Ensures.of_happens h hhappens
    | returned result => exact fun last hlast ↦ h last (hlast.head hhappens)

/-- Assumes: a condition on the variables that holds at the start and that every round keeps. At
the end of every run the next call is one that may be made, or the result is right. -/
theorem Loop.meets_of_run (allowed : State → Label Call Answer Event → Prop)
    {loop : Loop Call Answer Locals Result} {start : Locals}
    {initial : State → Prop} {labels : List (Label Call Answer Event)}
    {reached : Activity Call Answer Locals Result × State}
    (hrun : (loop.system surroundings start initial).Run (fun at' ↦ allowed at'.2) labels reached)
    (hstart : ∀ state, initial state → keep ([], state) start)
    (hround : ∀ history locals, keep history locals →
      (loop locals).Ensures surroundings allowed may (Keeps keep right) history) :
    reached.1.Meets may right (labels, reached.2) := by
  have hensures : reached.1.Ensures surroundings allowed may keep right (labels, reached.2) := by
    induction hrun with
    | start hinitial => exact hinitial.1.ensures hround (hround _ _ (hstart _ hinitial.2))
    | step _ hallowed hstep ih => exact hstep.ensures hround hallowed ih
  exact hensures.meets

/-- Assumes: a program that ensures the conditions from every initial state on. They hold at the end
of every run of it. -/
theorem Program.meets_of_run (allowed : State → Label Call Answer Event → Prop)
    {program : Program Call Answer Result} {initial : State → Prop}
    {labels : List (Label Call Answer Event)} {reached : Activity Call Answer Unit Result × State}
    (hrun : (program.once.system surroundings () initial).Run (fun at' ↦ allowed at'.2) labels
      reached)
    (h : ∀ state, initial state → program.Ensures surroundings allowed may right ([], state)) :
    reached.1.Meets may right (labels, reached.2) := by
  have hround : ∀ (history : History Call Answer State Event) (locals : Unit),
      (∃ state, initial state ∧ history = ([], state)) →
        (program.once locals).Ensures surroundings allowed may
          (Keeps (fun history _ ↦ ∃ state, initial state ∧ history = ([], state)) right)
          history := by
    rintro history - ⟨state, hinitial, rfl⟩
    exact ensures_map (h state hinitial) fun _ _ hright ↦ hright
  exact Loop.meets_of_run allowed hrun (fun state hinitial ↦ ⟨state, hinitial, rfl⟩) hround

/-! #### The end of a run -/

/-- A program that runs once is at a call of the program, or at its end. -/
theorem exists_resumes_once (loop : Loop Call Answer Unit Result)
    (program : Program Call Answer Result) :
    ∃ activity, Resumes loop (program.bind fun result ↦ .done (.inr result)) activity := by
  cases program with
  | done result => exact ⟨_, .returned result⟩
  | call request next => exact ⟨_, .call request _⟩

/-- Assumes: a program that ensures the conditions, at a point of a run of it. The rest of the
program ensures them from there on. -/
theorem Program.exists_rest_of_run (allowed : State → Label Call Answer Event → Prop)
    {program : Program Call Answer Result} {initial : State → Prop}
    {labels : List (Label Call Answer Event)} {reached : Activity Call Answer Unit Result × State}
    (hrun : (program.once.system surroundings () initial).Run (fun at' ↦ allowed at'.2) labels
      reached)
    (h : ∀ state, initial state → program.Ensures surroundings allowed may right ([], state)) :
    ∃ rest : Program Call Answer Result,
      Resumes program.once (rest.bind fun result ↦ .done (.inr result)) reached.1 ∧
        rest.Ensures surroundings allowed may right (labels, reached.2) := by
  induction hrun with
  | start hinitial => exact ⟨program, hinitial.1, h _ hinitial.2⟩
  | @step labels state after label _ hallowed hstep ih =>
    obtain ⟨rest, hresumes, hensures⟩ := ih
    cases hstep with
    | answer hanswer hnext =>
      cases rest with
      | done result => nomatch hresumes
      | call request next =>
        cases hresumes
        exact ⟨next _, hnext, (hensures _ .refl).2 _ _ hanswer hallowed⟩
    | @event activity state after event hevent =>
      exact ⟨rest, hresumes, Program.Ensures.of_happens hensures ⟨event, hevent, rfl⟩⟩

/-- Assumes: a program that ensures the conditions, and an allowed answer to every call that may be
made. From every point of a run on, it can be run to its end. -/
theorem Program.exists_returned_of_run (allowed : State → Label Call Answer Event → Prop)
    {program : Program Call Answer Result} {initial : State → Prop}
    {labels : List (Label Call Answer Event)}
    {reached : Activity Call Answer Unit Result × State}
    (hanswer : ∀ history request, may history request → ∃ answer after,
      surroundings.answers history.2 request answer after ∧
        allowed history.2 (.answer request answer))
    (hrun : (program.once.system surroundings () initial).Run (fun at' ↦ allowed at'.2) labels
      reached)
    (h : ∀ state, initial state → program.Ensures surroundings allowed may right ([], state)) :
    ∃ more result state, (program.once.system surroundings () initial).Run
      (fun at' ↦ allowed at'.2) (labels ++ more) (.returned result, state) := by
  obtain ⟨rest, hresumes, hensures⟩ := Program.exists_rest_of_run allowed hrun h
  induction rest generalizing labels reached with
  | done result =>
    obtain ⟨activity, state⟩ := reached
    cases hresumes
    exact ⟨[], result, state, by rwa [List.append_nil]⟩
  | call request next ih =>
    obtain ⟨activity, state⟩ := reached
    cases hresumes
    obtain ⟨hmay, hafter⟩ := hensures _ .refl
    obtain ⟨answer, after, hgiven, hallowed⟩ := hanswer _ _ hmay
    obtain ⟨activity, hnext⟩ := exists_resumes_once program.once (next answer)
    obtain ⟨more, result, last, hlast⟩ := ih answer
      (hrun.step hallowed (.answer hgiven hnext)) hnext (hafter answer after hgiven hallowed)
    exact ⟨_ :: more, result, last, by rwa [List.append_assoc] at hlast⟩

end Conditions

end Libseff.Foundation.SystemCalls
