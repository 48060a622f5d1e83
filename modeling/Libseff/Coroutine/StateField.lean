import Libseff.Coroutine.HandlerSimulation

/-!
# What the state field says

`seff_coroutine_init_sized` writes `PAUSED`, `seff_exit` writes `FINISHED`, and nothing writes
`RUNNING`. The field therefore tells exactly one thing: whether an exit targeted the coroutine since
it was initialised. This holds in every run whose resumptions only check that the field reads
`PAUSED`, as `scheff_worker_thread` does (`state_of_markedRun`), also when such a run resumes a
coroutine that runs already.

Where only suspended coroutines are resumed the frames say the rest
(`Represents.suspended_iff_of_readsPaused`): a coroutine that reads `PAUSED` is suspended, active,
enclosed in the frames of a suspended coroutine, or discarded by an exit to an enclosing handler. It
need not be suspended: the coroutine that runs reads `PAUSED` too (`not_paused_imp_suspended`).
-/

set_option autoImplicit false
set_option relaxedAutoImplicit false

namespace Libseff.Coroutine

open Foundation Foundation.ShallowHandlers

section Marks

variable {Id : Type*} [DecidableEq Id]

/-- The coroutines that can be reached from `current` by parent links. -/
inductive OnParentChain (coroutines : Word → SeffCoroutine) : Word → Word → Prop
  | here {k : Word} (hk : k ≠ 0) : OnParentChain coroutines k k
  | parent {current k : Word} (hcurrent : current ≠ 0)
      (h : OnParentChain coroutines (coroutines current).parentCoroutine k) :
      OnParentChain coroutines current k

/-- A machine with the coroutines initialised so far, and those an exit targeted since. -/
structure Marked (Id : Type*) where
  machine : Machine Id
  initialised : Set Word
  exited : Set Word

/-- The coroutine that an operation exits. -/
def Operation.Exits (m : Machine Id) : Operation Id → Word → Prop
  | .exit _ k _ _, target => target = k
  | .throw thread effect _, target => m.Locates thread effect target ∧ target ≠ 0
  | .ret thread _, target => target = (m.threads thread).r13
  | _, _ => False

/-- The marks an operation leaves. -/
def Marked.Follows (state : Marked Id) (operation : Operation Id) (next : Marked Id) : Prop :=
  match operation with
  | .init k .. => next.initialised = insert k state.initialised ∧ next.exited = state.exited \ {k}
  | operation => next.initialised = state.initialised ∧
      next.exited = state.exited ∪ {k | operation.Exits state.machine k}

/-- Operations guarded as the library guards them: a coroutine is resumed when its state field reads
`PAUSED`, and yielded to or exited when it is on the active parent chain. -/
def Guarded (state : Marked Id) : Operation Id → Prop
  | .resume _ k _ _ => k ∈ state.initialised ∧ (state.machine.coroutines k).state = .paused
  | .yield thread k _ _ | .exit thread k _ _ =>
    OnParentChain state.machine.coroutines (state.machine.threads thread).currentCoroutine k
  | _ => True

/-- The machine with its marks. -/
def markedSystem (coroutinePrelude : Word) (ndebug : Bool) :
    TransitionSystem (Marked Id) (Operation Id) where
  initial state := state.initialised = ∅
  step state operation next :=
    state.machine.Step coroutinePrelude ndebug operation next.machine ∧
      state.Follows operation next

/-- The field reads `FINISHED` where an exit targeted the coroutine since it was initialised, and
`PAUSED` elsewhere. -/
def StateTells (state : Marked Id) : Prop :=
  ∀ k ∈ state.initialised,
    (k ∈ state.exited → (state.machine.coroutines k).state = .finished) ∧
      (k ∉ state.exited → (state.machine.coroutines k).state = .paused)

/-! ### Runs that only check the field -/

theorem locateLoop_unique {coroutines : Word → SeffCoroutine} {mask : Word} {fuel fuel' : ℕ}
    {k first second : Word} (hfirst : locateLoop coroutines mask fuel k = some first)
    (hsecond : locateLoop coroutines mask fuel' k = some second) : first = second := by
  induction fuel generalizing fuel' k with
  | zero => simp [locateLoop] at hfirst
  | succ fuel ih =>
    cases fuel' with
    | zero => simp [locateLoop] at hsecond
    | succ fuel' =>
      simp only [locateLoop] at hfirst hsecond
      split_ifs at hfirst hsecond with hskip
      · exact ih hfirst hsecond
      · exact Option.some.inj (hfirst.symm.trans hsecond)

omit [DecidableEq Id] in
/-- `seff_locate_handler` returns one handler. -/
theorem Machine.Locates.unique {m : Machine Id} {thread : Id} {effect first second : Word}
    (hfirst : m.Locates thread effect first) (hsecond : m.Locates thread effect second) :
    first = second := by
  obtain ⟨fuel, hfirst⟩ := hfirst
  obtain ⟨fuel', hsecond⟩ := hsecond
  simp only [seffLocateHandler] at hfirst hsecond
  split_ifs at hfirst hsecond
  · exact locateLoop_unique hfirst hsecond
  · exact Option.some.inj (hfirst.symm.trans hsecond)

theorem Machine.switch_seffExit_state {m : Machine Id} {thread : Id} (ndebug : Bool)
    (k effect payload other : Word) :
    ((m.switch thread k (seffExit ndebug effect payload)).coroutines other).state =
      if other = k then .finished else (m.coroutines other).state := by
  by_cases hother : other = k
  · subst hother
    simp [Machine.switch]
  · simp [Machine.switch, hother]

omit [DecidableEq Id] in
/-- A step that leaves the state fields as they are and exits nothing. -/
private theorem StateTells.keep {state next : Marked Id} (h : StateTells state)
    (hstate : ∀ k, (next.machine.coroutines k).state = (state.machine.coroutines k).state)
    (hinitialised : next.initialised = state.initialised) (hexited : next.exited = state.exited) :
    StateTells next := by
  intro k hk
  rw [hinitialised] at hk
  rw [hstate, hexited]
  exact h k hk

omit [DecidableEq Id] in
/-- A step that exits one coroutine. -/
private theorem StateTells.exit {state next : Marked Id} (h : StateTells state) (target : Word)
    (hstate : ∀ k, (next.machine.coroutines k).state =
      if k = target then .finished else (state.machine.coroutines k).state)
    (hinitialised : next.initialised = state.initialised)
    (hexited : next.exited = state.exited ∪ {target}) : StateTells next := by
  intro k hk
  rw [hinitialised] at hk
  rw [hstate, hexited]
  by_cases htarget : k = target
  · simp [htarget]
  · simpa [htarget] using h k hk

variable {coroutinePrelude : Word} {ndebug : Bool}

theorem StateTells.step {state next : Marked Id} {operation : Operation Id}
    (h : StateTells state)
    (hstep : (markedSystem coroutinePrelude ndebug).step state operation next) :
    StateTells next := by
  obtain ⟨hmachine, hmarks⟩ := hstep
  cases operation with
  | compute thread context rax rdx =>
    exact h.keep (fun k ↦ by rw [hmachine]; rfl) hmarks.1
      (by simpa [Operation.Exits] using hmarks.2)
  | init k fn arg frameSize stack rsp =>
    intro other hother
    rw [hmarks.1] at hother
    rw [hmachine, hmarks.2]
    by_cases hk : other = k
    · subst hk
      simp [Machine.init, seffCoroutineInitSized]
    · simpa [Machine.init, hk] using h other (Set.mem_of_mem_insert_of_ne hother hk)
  | resume thread k arg handled =>
    refine h.keep (fun other ↦ ?_) hmarks.1 (by simpa [Operation.Exits] using hmarks.2)
    rw [hmachine]
    exact Machine.switch_coroutine _ (fun _ _ ↦ rfl) other
  | yield thread k effect payload =>
    refine h.keep (fun other ↦ ?_) hmarks.1 (by simpa [Operation.Exits] using hmarks.2)
    rw [hmachine]
    exact Machine.switch_coroutine _ (fun _ _ ↦ rfl) other
  | perform thread effect payload =>
    obtain ⟨handler, -, -, hmachine⟩ := hmachine
    refine h.keep (fun other ↦ ?_) hmarks.1 (by simpa [Operation.Exits] using hmarks.2)
    rw [hmachine]
    exact Machine.switch_coroutine _ (fun _ _ ↦ rfl) other
  | exit thread k effect payload =>
    refine h.exit k (fun other ↦ ?_) hmarks.1 (by simpa [Operation.Exits] using hmarks.2)
    rw [hmachine]
    exact Machine.switch_seffExit_state ndebug k effect payload other
  | throw thread effect payload =>
    obtain ⟨handler, hlocates, hnonnull, hmachine⟩ := hmachine
    have htargets : {k | (Operation.throw thread effect payload).Exits state.machine k} =
        {handler} := by
      ext target
      exact ⟨fun htarget ↦ htarget.1.unique hlocates, fun htarget ↦ htarget ▸ ⟨hlocates, hnonnull⟩⟩
    refine h.exit handler (fun other ↦ ?_) hmarks.1 (htargets ▸ hmarks.2)
    rw [hmachine]
    exact Machine.switch_seffExit_state ndebug handler effect payload other
  | ret thread result =>
    refine h.exit (state.machine.threads thread).r13 (fun other ↦ ?_) hmarks.1
      (by simpa [Operation.Exits] using hmarks.2)
    rw [hmachine]
    exact Machine.switch_seffExit_state ndebug _ returnEffectId result other

/-- In every run the state field tells whether an exit targeted the coroutine. -/
theorem state_of_markedRun {operations : List (Operation Id)} {state : Marked Id}
    (hrun : (markedSystem coroutinePrelude ndebug).Run Guarded operations state) :
    StateTells state :=
  hrun.invariant (fun start hstart k hk ↦ by
      rw [show start.initialised = ∅ from hstart] at hk
      exact absurd hk (Set.notMem_empty k))
    fun _ _ _ h _ hstep ↦ h.step hstep

end Marks

/-! ### Runs that resume suspended coroutines -/

section Frames

variable {Id : Type*} [DecidableEq Id] {coroutinePrelude : Word} {ndebug : Bool} {m : Machine Id}
  {c : Configuration Id}

/-- An initialised coroutine whose state field reads `PAUSED`. -/
def ReadsPaused (m : Machine Id) (c : Configuration Id) (k : Word) : Prop :=
  k ∈ c.created ∧ (m.coroutines k).state = .paused

omit [DecidableEq Id] in
/-- On a represented machine a coroutine reads `PAUSED` when it is not finished. -/
theorem Represents.readsPaused_iff (h : Represents m c) {k : Word} (hk : k ∈ c.created) :
    ReadsPaused m c k ↔ k ∉ c.finished := by
  constructor
  · rintro ⟨-, hpaused⟩ hfinished
    rw [h.finished k hk hfinished] at hpaused
    cases hpaused
  · exact fun hfinished ↦ ⟨hk, h.paused k hk hfinished⟩

omit [DecidableEq Id] in
/-- A coroutine that reads `PAUSED` is suspended, active, enclosed or discarded, and it is suspended
when it is none of the other three. -/
theorem Represents.suspended_iff_of_readsPaused (h : Represents m c) {k : Word}
    (hpaused : ReadsPaused m c k) :
    c.Suspended k ↔ ¬ c.Active k ∧ ¬ c.Enclosed k ∧ k ∉ c.discarded := by
  have hfinished := (h.readsPaused_iff hpaused.1).mp hpaused
  constructor
  · intro hsuspended
    obtain ⟨hactive, henclosed, -, hdiscarded⟩ := h.wellFormed.not_of_suspended hsuspended
    exact ⟨hactive, henclosed, hdiscarded⟩
  · rintro ⟨hactive, henclosed, hdiscarded⟩
    exact h.wellFormed.suspended_of_not hpaused.1 hactive henclosed hfinished hdiscarded

end Frames

/-- The field reads `FINISHED` after an exit that targeted the coroutine and `PAUSED` otherwise, in
every run whose resumptions check that it reads `PAUSED`. Where moreover only suspended coroutines
are resumed, a coroutine that reads `PAUSED` owns a resumable continuation unless it is active,
enclosed in the frames of a suspended coroutine, or discarded. -/
theorem stateField_tells_exited (Id : Type*) [DecidableEq Id] (coroutinePrelude : Word)
    (ndebug : Bool) :
    (∀ operations (state : Marked Id),
      (markedSystem coroutinePrelude ndebug).Run Guarded operations state → StateTells state) ∧
    ∀ operations (m : Machine Id) (c : Configuration Id),
      (pairedSystem coroutinePrelude ndebug).Run
        (fun state operation ↦ Permitted Resumable state.1 state.2 operation) operations (m, c) →
      ∀ k, ReadsPaused m c k →
        (c.Suspended k ↔ ¬ c.Active k ∧ ¬ c.Enclosed k ∧ k ∉ c.discarded) :=
  ⟨fun _ _ hrun ↦ state_of_markedRun hrun,
    fun _ _ _ hrun _ hpaused ↦ (represents_of_run hrun).suspended_iff_of_readsPaused hpaused⟩

/-- A coroutine that reads `PAUSED` need not be suspended, also in runs that only resume coroutines
that read `PAUSED`: the coroutine that runs reads `PAUSED`. -/
theorem not_paused_imp_suspended :
    ¬ ∀ operations (m : Machine Unit) (c : Configuration Unit), (pairedSystem 0 false).Run
        (fun state operation ↦ Permitted ReadsPaused state.1 state.2 operation) operations (m, c) →
      ∀ k, ReadsPaused m c k →
        c.Suspended k ∧ ¬ c.Active k ∧ ¬ c.Enclosed k ∧ k ∉ c.discarded := by
  intro h
  let c₁ := zeroConfiguration.create 1 (newFrame 1).context
  have hcaptured : c₁.frames (.captured 1) = [] ++ [newFrame 1] := by
    simp [c₁, Configuration.create, newFrame]
  have hstart : (pairedSystem 0 false).Run
      (fun state operation ↦ Permitted ReadsPaused state.1 state.2 operation) []
        (zeroMachine, zeroConfiguration) :=
    .start ⟨fun _ ↦ rfl, fun _ ↦ rfl, fun _ ↦ rfl, fun _ ↦ rfl, rfl⟩
  have hrun₁ := run_step (.init 1 0 0 0 0 0) hstart
    ⟨by decide, fun place ↦ by simp [zeroConfiguration]⟩ rfl
    (.create 1 _ fun place ↦ by simp [zeroConfiguration])
  have hrun₂ := run_step (.resume () 1 0 0) hrun₁ ⟨Set.mem_insert _ _, rfl⟩ rfl
    (.resume () 1 0 _ hcaptured)
  have hpaused := (h _ _ _ hrun₂ 1 ⟨Set.mem_insert _ _, rfl⟩).2.1
  exact hpaused ⟨(), by simp [Configuration.resume, newFrame]⟩

end Libseff.Coroutine
