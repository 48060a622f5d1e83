import Libseff.Coroutine.Switch
import Libseff.Foundation.ShallowHandlers

/-!
# The machine of threads and coroutines

Any number of threads share the coroutines. A thread computes, initialises a coroutine, calls one of
the switching routines, performs or throws an effect, or returns from the start function of the
coroutine it runs (`Operation`). `Machine.Step` executes each of them with the routines of `Switch`.

The field `entry` is a ghost: it records the callee-saved registers with which `coroutine_prelude`
calls the start function of each coroutine, which are those of the resume point that
`seff_coroutine_init_sized` wrote.
-/

set_option autoImplicit false
set_option relaxedAutoImplicit false

namespace Libseff.Coroutine

open Foundation

/-- The threads, the memory of the coroutines, and the registers their start functions are entered
with. -/
structure Machine (Id : Type*) where
  threads : Id → Thread
  coroutines : Word → SeffCoroutine
  entry : Word → CalleeSaved

/-- What a thread does in one step. -/
inductive Operation (Id : Type*)
  | compute (thread : Id) (context : Context) (rax rdx : Word)
  | init (k fn arg frameSize stack rsp : Word)
  | resume (thread : Id) (k arg handled : Word)
  | yield (thread : Id) (k effect payload : Word)
  | perform (thread : Id) (effect payload : Word)
  | exit (thread : Id) (k effect payload : Word)
  | throw (thread : Id) (effect payload : Word)
  | ret (thread : Id) (result : Word)

namespace Machine

variable {Id : Type*} [DecidableEq Id]

/-- A thread computes. -/
def compute (m : Machine Id) (thread : Id) (context : Context) (rax rdx : Word) : Machine Id :=
  { m with threads :=
      Function.update m.threads thread ((m.threads thread).setContext context rax rdx) }

/-- A coroutine is initialised. -/
def init (m : Machine Id) (coroutinePrelude k fn arg frameSize stack rsp : Word) : Machine Id :=
  let initialised := seffCoroutineInitSized coroutinePrelude k fn arg frameSize stack rsp
    (m.coroutines k)
  { m with
    coroutines := Function.update m.coroutines k initialised
    entry := Function.update m.entry k initialised.resumePoint.context.calleeSaved }

/-- A thread runs a switching routine on the coroutine in `%rdi`. -/
def switch (m : Machine Id) (thread : Id) (k : Word)
    (routine : Thread → SeffCoroutine → Thread × SeffCoroutine) : Machine Id :=
  let after := routine (m.threads thread) (m.coroutines k)
  { m with
    threads := Function.update m.threads thread after.1
    coroutines := Function.update m.coroutines k after.2 }

/-- A switch leaves what its routine leaves of a thread. -/
theorem switch_thread {Value : Type*} (field : Thread → Value) {m : Machine Id} {thread : Id}
    {k : Word} {routine : Thread → SeffCoroutine → Thread × SeffCoroutine}
    (hroutine : ∀ thread k, field (routine thread k).1 = field thread) (other : Id) :
    field ((m.switch thread k routine).threads other) = field (m.threads other) := by
  by_cases hother : other = thread
  · subst hother
    simp [switch, hroutine]
  · simp [switch, hother]

/-- A switch leaves what its routine leaves of a coroutine. -/
theorem switch_coroutine {Value : Type*} (field : SeffCoroutine → Value) {m : Machine Id}
    {thread : Id} {k : Word} {routine : Thread → SeffCoroutine → Thread × SeffCoroutine}
    (hroutine : ∀ thread k, field (routine thread k).2 = field k) (other : Word) :
    field ((m.switch thread k routine).coroutines other) = field (m.coroutines other) := by
  by_cases hother : other = k
  · subst hother
    simp [switch, hroutine]
  · simp [switch, hother]

/-- The handler that `seff_locate_handler` returns to a thread. -/
def Locates (m : Machine Id) (thread : Id) (effect handler : Word) : Prop :=
  ∃ fuel, seffLocateHandler m.coroutines (m.threads thread).currentCoroutine effect fuel =
    some handler

/-- One operation. `seff_perform` and `seff_throw` are stated where they find a handler. The return
of a start function continues in `coroutine_prelude`, which exits the coroutine in `%r13`. -/
def Step (coroutinePrelude : Word) (ndebug : Bool) (m : Machine Id) :
    Operation Id → Machine Id → Prop
  | .compute thread context rax rdx, after => after = m.compute thread context rax rdx
  | .init k fn arg frameSize stack rsp, after =>
    after = m.init coroutinePrelude k fn arg frameSize stack rsp
  | .resume thread k arg handled, after => after = m.switch thread k (seffResume arg handled)
  | .yield thread k effect payload, after => after = m.switch thread k (seffYield effect payload)
  | .perform thread effect payload, after =>
    ∃ handler, m.Locates thread effect handler ∧ handler ≠ 0 ∧
      after = m.switch thread handler (seffYield effect payload)
  | .exit thread k effect payload, after =>
    after = m.switch thread k (seffExit ndebug effect payload)
  | .throw thread effect payload, after =>
    ∃ handler, m.Locates thread effect handler ∧ handler ≠ 0 ∧
      after = m.switch thread handler (seffExit ndebug effect payload)
  | .ret thread result, after =>
    after = m.switch thread (m.threads thread).r13 (seffExit ndebug returnEffectId result)

end Machine

/-- The configurations of shallow handlers that the machine implements: coroutines, effects and
values are machine words. -/
abbrev Configuration (Id : Type*) := ShallowHandlers.Configuration Id Word Word Context Word

/-- The frames of such a configuration. -/
abbrev Frame := ShallowHandlers.Frame Word Word Context

/-- The context a new coroutine starts with. -/
def initialContext (coroutinePrelude k fn arg frameSize rsp : Word) : Context :=
  { rsp := rsp - rsp % 16
    rbp := 0
    ip := coroutinePrelude
    rbx := 0xcacabbbb
    r12 := 0xcaca1212
    r13 := k
    r14 := arg
    r15 := fn
    stackTop := rsp - frameSize - 16 }

@[simp] theorem seffCoroutineInitSized_context
    (coroutinePrelude k fn arg frameSize stack rsp : Word) (old : SeffCoroutine) :
    (seffCoroutineInitSized coroutinePrelude k fn arg frameSize stack rsp old).resumePoint.context =
      initialContext coroutinePrelude k fn arg frameSize rsp := rfl

/-- The action of the handler semantics that an operation implements. -/
def Operation.action {Id : Type*} (coroutinePrelude : Word) :
    Operation Id → ShallowHandlers.Action Id Word Word Context Word
  | .compute thread context _ _ => .compute thread context
  | .init k fn arg frameSize _ rsp =>
    .create k (initialContext coroutinePrelude k fn arg frameSize rsp)
  | .resume thread k arg handled => .resume thread k arg (effectSet handled)
  | .yield thread k effect payload => .yield thread k effect payload
  | .perform thread effect payload => .perform thread effect payload
  | .exit thread k effect payload => .exit thread k effect payload
  | .throw thread effect payload => .throw thread effect payload
  | .ret thread result => .finish thread returnEffectId result

end Libseff.Coroutine
