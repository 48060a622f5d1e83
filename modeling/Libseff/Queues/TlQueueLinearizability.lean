import Libseff.Queues.TlQueue

/-!
# Linearizability of the queue with a lock

The state of the queue and of its threads determines the progress of every operation (`Pc.progress`)
and the slot (`Pc.slot`): while `tl_queue_priority_push` pushes the element that it displaced, users
still see that element in the slot, and both changes take effect with the store of the tail. The
array holds the list between the two indices. While the owner has freed the old array and not stored
the new one, the array is the new one (`Pc.currentArray`).

Only the holder of the lock relies on the ring (`Pc.AtRing`), so its steps have no other thread to
answer to, and the steps of the other threads leave the ring as it is.
-/

set_option autoImplicit false
set_option relaxedAutoImplicit false

namespace Libseff.Queues.TlQueue

open Foundation CircularArray

variable {α Thief : Type*}

/-! ### The invariant -/

/-- How far the operation of a thread has got. -/
def Pc.progress : Pc α → Progress (Operation α) (Option α)
  | .idle => .idle
  | .push _ _ .release => .applied none
  | .push operation _ _ => .called operation
  | .priorityLoad elt => .called (.priorityPush elt)
  | .priorityStore elt _ => .called (.priorityPush elt)
  | .popTest => .called .pop
  | .popLoad => .called .pop
  | .popClear _ => .called .pop
  | .take _ (.release result) => .applied result
  | .take operation _ => .called operation
  | .done result => .applied result

/-- The slot while `elt` is pushed: the element that `tl_queue_priority_push` displaced. -/
def Operation.slot (elt : α) (buffer : Option α) : Operation α → Option α
  | .priorityPush _ => some elt
  | _ => buffer

/-- The slot, where the owner is at the given point. -/
def Pc.slot (buffer : Option α) : Pc α → Option α
  | .push _ _ .release => buffer
  | .push operation elt _ => operation.slot elt buffer
  | _ => buffer

/-- What the owner knows of the slot. -/
def Pc.AtSlot (buffer : Option α) : Pc α → Prop
  | .push operation elt _ =>
    operation = .push elt ∨ ∃ other, operation = .priorityPush other ∧ buffer = some other
  | .priorityStore _ oldBuffer => oldBuffer = buffer
  | .popLoad => buffer.isSome
  | .popClear popped => popped = buffer ∧ buffer.isSome
  | .take operation _ => operation = .pop ∧ buffer = none ∨ operation = .steal
  | _ => True

/-- The points that a thief reaches. -/
def Pc.Steals : Pc α → Prop
  | .idle => True
  | .take operation _ => operation = .steal
  | .done _ => True
  | _ => False

/-- The points between the acquisition and the release of the lock. -/
def Pc.Locks : Pc α → Prop
  | .push _ _ .acquire => False
  | .push _ _ _ => True
  | .take _ .acquire => False
  | .take _ _ => True
  | _ => False

/-- The array of the queue, where the owner is at the given point. -/
def Pc.currentArray (array : Address) : Pc α → Address
  | .push _ _ (.storeArray newArray _) => newArray
  | _ => array

/-- The array at an address holds the list. -/
def Memory.Ring (m : Memory α) (address : Address) (fifo : List α) : Prop :=
  ∃ arr, m.heap address = some arr ∧ arr.Holds m.head (fifo.map some) ∧
    m.tail = m.head + fifo.length ∧ fifo.length ≤ arr.size

/-- The array at an address has room for another element. -/
def Memory.HasRoom (m : Memory α) (address : Address) (fifo : List α) : Prop :=
  ∃ arr, m.heap address = some arr ∧ fifo.length < arr.size

/-- What the holder of the lock knows in `tl_queue_push(self, elt)`. -/
def PushStep.AtRing (m : Memory α) (fifo : List α) (elt : α) : PushStep → Prop
  | .resize arr head tail => arr = m.array ∧ head = m.head ∧ tail = m.tail
  | .free newArray tail => newArray ≠ m.array ∧ tail = m.tail ∧ m.Ring newArray fifo ∧
      m.HasRoom newArray fifo
  | .storeArray newArray tail => tail = m.tail ∧ m.HasRoom newArray fifo
  | .set arr tail => arr = m.array ∧ tail = m.tail ∧ m.HasRoom arr fifo
  | .storeTail tail => tail = m.tail ∧ m.HasRoom m.array fifo ∧
      ∀ arr, m.heap m.array = some arr → arr.caGet tail = some elt
  | _ => True

/-- What the holder of the lock knows in `tl_queue_pop(self)` and `tl_queue_steal(self)`. -/
def TakeStep.AtRing (m : Memory α) (fifo : List α) : TakeStep α → Prop
  | .get arr head => arr = m.array ∧ head = m.head ∧ fifo ≠ []
  | .storeHead elt head => head = m.head ∧ ∃ first rest, fifo = first :: rest ∧ elt = some first
  | _ => True

/-- What a thread knows of the ring. -/
def Pc.AtRing (m : Memory α) (fifo : List α) : Pc α → Prop
  | .push _ elt step => step.AtRing m fifo elt
  | .take _ step => step.AtRing m fifo
  | _ => True

/-- The queue and its threads are in the state of the atomic object. -/
structure Represents (s : State α Thief)
    (a : AtomicState (Thread Thief) (Option α × List α) (Operation α) (Option α)) : Prop where
  progress : ∀ thread, a.progress thread = (s.pc thread).progress
  slot : a.object.1 = (s.pc .owner).slot s.memory.buffer
  atSlot : (s.pc .owner).AtSlot s.memory.buffer
  thieves : ∀ thief, (s.pc (.thief thief)).Steals
  locked : ∀ thread, (s.pc thread).Locks → s.memory.locked = true
  exclusive : ∀ first second, (s.pc first).Locks → (s.pc second).Locks → first = second
  ring : s.memory.Ring ((s.pc .owner).currentArray s.memory.array) a.object.2
  atRing : ∀ thread, (s.pc thread).AtRing s.memory a.object.2

theorem Pc.currentArray_of_not_locks {pc : Pc α} (h : ¬ pc.Locks) (array : Address) :
    pc.currentArray array = array := by
  unfold currentArray
  split
  · exact absurd trivial h
  · rfl

theorem Pc.atRing_of_not_locks {pc : Pc α} (h : ¬ pc.Locks) (m : Memory α) (fifo : List α) :
    pc.AtRing m fifo := by
  cases pc with
  | push operation elt step =>
    cases step with
    | acquire => trivial
    | _ => exact absurd trivial h
  | take operation step =>
    cases step with
    | acquire => trivial
    | _ => exact absurd trivial h
  | _ => trivial

theorem Pc.Steals.currentArray {pc : Pc α} (h : pc.Steals) (array : Address) :
    pc.currentArray array = array := by
  unfold Pc.currentArray
  split
  · exact absurd h id
  · rfl

/-- The slot plays no role in the ring. -/
theorem Pc.AtRing.setBuffer {pc : Pc α} {m : Memory α} {fifo : List α} (h : pc.AtRing m fifo)
    (buffer : Option α) : pc.AtRing { m with buffer := buffer } fifo := by
  cases pc with
  | push operation elt step => cases step <;> exact h
  | take operation step => cases step <;> exact h
  | _ => trivial

namespace Represents

variable {s : State α Thief}
  {a after : AtomicState (Thread Thief) (Option α × List α) (Operation α) (Option α)}
  {thread : Thread Thief} {pc : Pc α} {memory : Memory α}

theorem notLocks_of_unlocked (h : Represents s a) (hunlocked : s.memory.locked = false)
    (other : Thread Thief) : ¬ (s.pc other).Locks := fun hlocks ↦ by
  have hlocked := h.locked other hlocks
  rw [hunlocked] at hlocked
  exact absurd hlocked (by decide)

theorem notLocks_of_ne (h : Represents s a) (hlocks : (s.pc thread).Locks) (other : Thread Thief)
    (hne : other ≠ thread) : ¬ (s.pc other).Locks :=
  fun hother ↦ hne (h.exclusive other thread hother hlocks)

/-- The array of the queue, as seen by a thread that holds the lock or finds it free. -/
theorem currentArray_eq (h : Represents s a)
    (hothers : ∀ other, other ≠ thread → ¬ (s.pc other).Locks) :
    (s.pc .owner).currentArray s.memory.array = (s.pc thread).currentArray s.memory.array := by
  cases thread with
  | owner => rfl
  | thief thief =>
    rw [Pc.currentArray_of_not_locks (hothers .owner nofun), (h.thieves thief).currentArray]

/-- What a step of a thread tells the users of the slot: nothing, unless it is the owner. -/
structure SlotStep (s : State α Thief) (slot after : Option α) (thread : Thread Thief) (pc : Pc α)
    (buffer : Option α) : Prop where
  owner : thread = .owner → after = pc.slot buffer ∧ pc.AtSlot buffer
  thief : ∀ thief, thread = .thief thief →
    after = slot ∧ buffer = s.memory.buffer ∧ pc.Steals

variable [DecidableEq Thief]

/-- The part of the relation that concerns progress and the slot. -/
theorem slotPart (h : Represents s a) {buffer slot : Option α}
    (hslot : SlotStep s a.object.1 slot thread pc buffer) :
    slot = (Function.update s.pc thread pc .owner).slot buffer ∧
      (Function.update s.pc thread pc .owner).AtSlot buffer ∧
      ∀ thief, (Function.update s.pc thread pc (.thief thief)).Steals := by
  cases thread with
  | owner =>
    obtain ⟨hafter, hat⟩ := hslot.owner rfl
    rw [Function.update_self]
    exact ⟨hafter, hat, fun thief ↦ by
      rw [Function.update_of_ne (show Thread.thief thief ≠ .owner from nofun)]
      exact h.thieves thief⟩
  | thief stealing =>
    obtain ⟨hafter, hbuffer, hsteals⟩ := hslot.thief stealing rfl
    rw [Function.update_of_ne (show Thread.owner ≠ .thief stealing from nofun), hafter, hbuffer]
    refine ⟨h.slot, h.atSlot, fun thief ↦ ?_⟩
    by_cases heq : thief = stealing
    · subst heq
      rwa [Function.update_self]
    · rw [Function.update_of_ne (by simpa using heq)]
      exact h.thieves thief

/-- Assumes: no other thread holds the lock, before the step and so after it. -/
theorem inside (h : Represents s a) (hothers : ∀ other, other ≠ thread → ¬ (s.pc other).Locks)
    (hprogress : after.progress = Function.update a.progress thread pc.progress)
    (hslot : SlotStep s a.object.1 after.object.1 thread pc memory.buffer)
    (hlocked : pc.Locks → memory.locked = true)
    (hring : memory.Ring (pc.currentArray memory.array) after.object.2)
    (hatRing : pc.AtRing memory after.object.2) :
    Represents { memory := memory, pc := Function.update s.pc thread pc } after := by
  obtain ⟨hafter, hatSlot, hthieves⟩ := h.slotPart hslot
  have hnot : ∀ other, other ≠ thread → ¬ (Function.update s.pc thread pc other).Locks :=
    fun other hne ↦ by
      rw [Function.update_of_ne hne]
      exact hothers other hne
  have hself : ∀ other, (Function.update s.pc thread pc other).Locks → other = thread :=
    fun other hlocks ↦ by_contra fun hne ↦ hnot other hne hlocks
  refine
    { progress := fun other ↦ ?_
      slot := hafter
      atSlot := hatSlot
      thieves := hthieves
      locked := fun other hlocks ↦ ?_
      exclusive := fun first second hfirst hsecond ↦
        (hself first hfirst).trans (hself second hsecond).symm
      ring := ?_
      atRing := fun other ↦ ?_ }
  · rw [hprogress]
    by_cases heq : other = thread
    · subst heq
      simp
    · simpa [Function.update_of_ne heq] using h.progress other
  · obtain rfl := hself other hlocks
    exact hlocked (by simpa using hlocks)
  · cases thread with
    | owner => simpa using hring
    | thief thief =>
      rw [(hslot.thief thief rfl).2.2.currentArray] at hring
      exact (Pc.currentArray_of_not_locks (hnot .owner nofun) memory.array).symm ▸ hring
  · by_cases heq : other = thread
    · subst heq
      simpa using hatRing
    · exact Pc.atRing_of_not_locks (hnot other heq) ..

/-- Assumes: the thread does not hold the lock, and changes nothing but the slot. -/
theorem outside (h : Represents s a) (hbefore : ¬ (s.pc thread).Locks) (hafter : ¬ pc.Locks)
    (hprogress : after.progress = Function.update a.progress thread pc.progress)
    {buffer : Option α} (hmemory : memory = { s.memory with buffer := buffer })
    (hfifo : after.object.2 = a.object.2)
    (hslot : SlotStep s a.object.1 after.object.1 thread pc buffer) :
    Represents { memory := memory, pc := Function.update s.pc thread pc } after := by
  subst hmemory
  obtain ⟨hslotAfter, hatSlot, hthieves⟩ := h.slotPart hslot
  have hlocks : ∀ other, (Function.update s.pc thread pc other).Locks → (s.pc other).Locks :=
    fun other hother ↦ by
      by_cases heq : other = thread
      · subst heq
        exact absurd (by simpa using hother) hafter
      · rwa [Function.update_of_ne heq] at hother
  refine
    { progress := fun other ↦ ?_
      slot := hslotAfter
      atSlot := hatSlot
      thieves := hthieves
      locked := fun other hother ↦ h.locked other (hlocks other hother)
      exclusive := fun first second hfirst hsecond ↦
        h.exclusive first second (hlocks first hfirst) (hlocks second hsecond)
      ring := ?_
      atRing := fun other ↦ ?_ }
  · rw [hprogress]
    by_cases heq : other = thread
    · subst heq
      simp
    · simpa [Function.update_of_ne heq] using h.progress other
  · rw [hfifo]
    have hcurrent : (s.pc .owner).currentArray s.memory.array =
        (Function.update s.pc thread pc .owner).currentArray s.memory.array := by
      by_cases heq : thread = .owner
      · subst heq
        rw [Function.update_self, Pc.currentArray_of_not_locks hbefore,
          Pc.currentArray_of_not_locks hafter]
      · rw [Function.update_of_ne (Ne.symm heq)]
    have hring := h.ring
    rw [hcurrent] at hring
    exact hring
  · rw [hfifo]
    by_cases heq : other = thread
    · subst heq
      simpa using Pc.atRing_of_not_locks hafter ..
    · simpa [Function.update_of_ne heq] using (h.atRing other).setBuffer buffer

/-! ### The steps of a push -/

omit [DecidableEq Thief] in
/-- A step of the owner. -/
theorem SlotStep.ofOwner {slot after buffer : Option α} (hafter : after = pc.slot buffer)
    (hatSlot : pc.AtSlot buffer) :
    SlotStep s slot after (.owner : Thread Thief) pc buffer :=
  ⟨fun _ ↦ ⟨hafter, hatSlot⟩, nofun⟩

omit [DecidableEq Thief] in
theorem eq_owner (h : Represents s a) (hpc : ¬ (s.pc thread).Steals) : thread = .owner := by
  cases thread with
  | owner => rfl
  | thief thief => exact absurd (h.thieves thief) hpc

/-- The operation does not get further. -/
theorem progress_eq (h : Represents s a) (heq : pc.progress = (s.pc thread).progress) :
    a.progress = Function.update a.progress thread pc.progress := by
  rw [heq, ← h.progress, Function.update_eq_self]

omit [DecidableEq Thief] in
/-- What the holder of the lock, or the thread that takes it, finds in the ring. -/
theorem ring_of_others (h : Represents s a)
    (hothers : ∀ other, other ≠ thread → ¬ (s.pc other).Locks) (hpc : s.pc thread = pc) :
    s.memory.Ring (pc.currentArray s.memory.array) a.object.2 := by
  have hring := h.ring
  rwa [h.currentArray_eq hothers, hpc] at hring

section Push

variable {operation : Operation α} {elt : α}

/-- A step of a push that the users do not see, while the owner holds the lock. -/
theorem pushInside (h : Represents s a) {step next : PushStep}
    (hpc : s.pc .owner = .push operation elt step) (hstep : step ≠ .release)
    (hnext : next ≠ .release)
    (hothers : ∀ other, other ≠ .owner → ¬ (s.pc other).Locks)
    (hbuffer : memory.buffer = s.memory.buffer) (hlocked : memory.locked = true)
    (hring : memory.Ring ((Pc.push operation elt next).currentArray memory.array) a.object.2)
    (hatRing : next.AtRing memory a.object.2 elt) :
    Represents
      { memory := memory, pc := Function.update s.pc .owner (.push operation elt next) } a := by
  have hsame : ∀ step : PushStep, step ≠ .release →
      (Pc.push operation elt step).progress = .called operation ∧
        (Pc.push operation elt step).slot s.memory.buffer =
          operation.slot elt s.memory.buffer := by
    intro step hstep
    cases step with
    | release => exact absurd rfl hstep
    | _ => exact ⟨rfl, rfl⟩
  obtain ⟨hprogress, hslot⟩ := hsame step hstep
  obtain ⟨hnextProgress, hnextSlot⟩ := hsame next hnext
  have hslotBefore := h.slot
  have hatSlot := h.atSlot
  rw [hpc] at hslotBefore hatSlot
  refine h.inside hothers (h.progress_eq (by rw [hpc, hprogress, hnextProgress]))
    (.ofOwner ?_ ?_) (fun _ ↦ hlocked) hring hatRing
  · rw [hbuffer, hnextSlot, ← hslot, hslotBefore]
  · rw [hbuffer]
    exact hatSlot

/-- The array grows. -/
theorem pushResize (h : Represents s a) {arr : Address} {head tail : ℤ} {fresh : Address}
    {contents : ℕ → Option α} (hpc : s.pc .owner = .push operation elt (.resize arr head tail))
    (hfresh : s.memory.heap fresh = none)
    (hadvance : (PushStep.resize arr head tail).advance operation elt fresh contents s.memory =
      some (pc, memory)) :
    Represents { memory := memory, pc := Function.update s.pc .owner pc } a := by
  have hlocks : (s.pc .owner).Locks := by rw [hpc]; trivial
  have hothers := h.notLocks_of_ne hlocks
  obtain ⟨array, harray, hholds, htail, hsize⟩ := h.ring_of_others hothers hpc
  have hat := h.atRing .owner
  rw [hpc] at hat
  obtain ⟨rfl, rfl, rfl⟩ := hat
  change s.memory.heap s.memory.array = some array at harray
  simp only [PushStep.advance, harray, Option.bind_eq_bind, Option.bind_some,
    Option.bind_eq_some_iff, Option.some.injEq, Prod.mk.injEq] at hadvance
  obtain ⟨newArray, hresize, rfl, rfl⟩ := hadvance
  have hne : fresh ≠ s.memory.array := fun heq ↦ by
    rw [heq, harray] at hfresh
    exact absurd hfresh nofun
  have hdouble := size_circularArrayResize hresize
  have hpos := array.size_pos
  have hcopied : newArray.Holds s.memory.head (a.object.2.map some) :=
    hholds.circularArrayResize (by simpa using htail) (by simpa using hsize) hresize
  have hnew : Function.update s.memory.heap fresh (some newArray) fresh = some newArray :=
    Function.update_self ..
  refine h.pushInside hpc nofun nofun hothers rfl (h.locked .owner hlocks) ?_ ⟨hne, rfl, ?_, ?_⟩
  · refine ⟨array, ?_, hholds, htail, hsize⟩
    exact (Function.update_of_ne (Ne.symm hne) ..).trans harray
  · exact ⟨newArray, hnew, hcopied, htail, by omega⟩
  · exact ⟨newArray, hnew, by omega⟩

/-- The element is written behind the window. -/
theorem pushSet (h : Represents s a) {arr : Address} {tail : ℤ} {fresh : Address}
    {contents : ℕ → Option α} (hpc : s.pc .owner = .push operation elt (.set arr tail))
    (hadvance : (PushStep.set arr tail).advance operation elt fresh contents s.memory =
      some (pc, memory)) :
    Represents { memory := memory, pc := Function.update s.pc .owner pc } a := by
  have hlocks : (s.pc .owner).Locks := by rw [hpc]; trivial
  have hothers := h.notLocks_of_ne hlocks
  obtain ⟨array, harray, hholds, htail, hsize⟩ := h.ring_of_others hothers hpc
  have hat := h.atRing .owner
  rw [hpc] at hat
  obtain ⟨rfl, rfl, room, hroom, hlt⟩ := hat
  change s.memory.heap s.memory.array = some array at harray
  obtain rfl : array = room := Option.some.inj (harray.symm.trans hroom)
  simp only [PushStep.advance, harray, Option.bind_eq_bind, Option.bind_some, Option.some.injEq,
    Prod.mk.injEq] at hadvance
  obtain ⟨rfl, rfl⟩ := hadvance
  have hnew : Function.update s.memory.heap s.memory.array
      (some (array.caSet s.memory.tail (some elt))) s.memory.array =
        some (array.caSet s.memory.tail (some elt)) :=
    Function.update_self ..
  refine h.pushInside hpc nofun nofun hothers rfl (h.locked .owner hlocks) ?_ ⟨rfl, ?_, ?_⟩
  · refine ⟨_, hnew, hholds.caSet ?_ ?_ _, htail, hsize⟩
    · simpa using htail.ge
    · omega
  · exact ⟨_, hnew, hlt⟩
  · intro other hother
    rw [← Option.some.inj (hnew.symm.trans hother), caGet_caSet_self]

/-- The store of the tail publishes the element, and the displaced slot with it. -/
theorem pushStoreTail (h : Represents s a) {tail : ℤ}
    (hpc : s.pc .owner = .push operation elt (.storeTail tail)) :
    ∃ after, AtomicStep slotFifo a (.apply .owner) after ∧
      Represents
        { memory := { s.memory with tail := tail + 1 }
          pc := Function.update s.pc .owner (.push operation elt .release) } after := by
  have hlocks : (s.pc .owner).Locks := by rw [hpc]; trivial
  have hothers := h.notLocks_of_ne hlocks
  obtain ⟨array, harray, hholds, htail, -⟩ := h.ring_of_others hothers hpc
  have hat := h.atRing .owner
  have hcalled := h.progress .owner
  have hslot := h.slot
  have hatSlot := h.atSlot
  rw [hpc] at hat hcalled hslot hatSlot
  obtain ⟨rfl, ⟨room, hroom, hlt⟩, helt⟩ := hat
  obtain rfl : array = room := Option.some.inj (harray.symm.trans hroom)
  have happly : slotFifo.apply operation a.object =
      ((s.memory.buffer, a.object.2 ++ [elt]), none) := by
    have hobject : a.object = (operation.slot elt s.memory.buffer, a.object.2) :=
      Prod.ext hslot rfl
    rcases hatSlot with rfl | ⟨other, rfl, hbuffer⟩
    · rw [hobject]
      rfl
    · rw [hobject, hbuffer]
      rfl
  refine ⟨_, .apply hcalled, h.inside hothers (by rw [happly]; rfl) (.ofOwner ?_ hatSlot)
    (fun _ ↦ h.locked .owner hlocks) ?_ trivial⟩
  · rw [happly]
    rfl
  · rw [happly]
    refine ⟨array, harray, ?_, ?_, ?_⟩
    · rw [List.map_append]
      exact hholds.concat (by simpa using htail) (helt array harray)
    · simp only [List.length_append, List.length_singleton]
      push_cast
      omega
    · simp only [List.length_append, List.length_singleton]
      push_cast
      omega

/-- A step of a push goes unseen, or applies the operation. -/
theorem push (h : Represents s a) {step : PushStep} {fresh : Address} {contents : ℕ → Option α}
    (hpc : s.pc thread = .push operation elt step) (hfresh : s.memory.heap fresh = none)
    (hadvance : step.advance operation elt fresh contents s.memory = some (pc, memory)) :
    Represents { memory := memory, pc := Function.update s.pc thread pc } a ∨
      ∃ after, AtomicStep slotFifo a (.apply thread) after ∧
        Represents { memory := memory, pc := Function.update s.pc thread pc } after := by
  obtain rfl : thread = .owner := h.eq_owner (by rw [hpc]; exact id)
  have hat := h.atRing .owner
  have hslot := h.slot
  have hatSlot := h.atSlot
  rw [hpc] at hat hslot hatSlot
  by_cases hacquire : step = .acquire
  · subst hacquire
    simp only [PushStep.advance] at hadvance
    split_ifs at hadvance with hlocked
    · obtain ⟨rfl, rfl⟩ := Prod.mk.inj (Option.some.inj hadvance)
      exact .inl (h.outside (by rw [hpc]; exact id) id (h.progress_eq (by rw [hpc])) rfl rfl
        (.ofOwner hslot hatSlot))
    · obtain ⟨rfl, rfl⟩ := Prod.mk.inj (Option.some.inj hadvance)
      have hothers : ∀ other, other ≠ .owner → ¬ (s.pc other).Locks :=
        fun other _ ↦ h.notLocks_of_unlocked (by simpa using hlocked) other
      have hring := h.ring_of_others hothers hpc
      exact .inl (h.pushInside hpc nofun nofun hothers rfl rfl hring trivial)
  have hlocks : (s.pc .owner).Locks := by
    rw [hpc]
    cases step with
    | acquire => exact absurd rfl hacquire
    | _ => trivial
  have hothers := h.notLocks_of_ne hlocks
  have hlocked := h.locked .owner hlocks
  have hring := h.ring_of_others hothers hpc
  cases step with
  | acquire => exact absurd rfl hacquire
  | load =>
    obtain ⟨array, harray, hholds, htail, hsize⟩ := hring
    change s.memory.heap s.memory.array = some array at harray
    simp only [PushStep.advance, harray, Option.bind_eq_bind, Option.bind_some] at hadvance
    split_ifs at hadvance with hfull <;>
      obtain ⟨rfl, rfl⟩ := Prod.mk.inj (Option.some.inj hadvance)
    · exact .inl (h.pushInside hpc nofun nofun hothers rfl hlocked
        ⟨array, harray, hholds, htail, hsize⟩ ⟨rfl, rfl, rfl⟩)
    · exact .inl (h.pushInside hpc nofun nofun hothers rfl hlocked
        ⟨array, harray, hholds, htail, hsize⟩ ⟨rfl, rfl, array, harray, by omega⟩)
  | resize arr head tail => exact .inl (h.pushResize hpc hfresh hadvance)
  | free newArray tail =>
    obtain ⟨hne, rfl, ⟨array, harray, hholds, htail, hsize⟩, room, hroom, hlt⟩ := hat
    obtain ⟨old, hold, -⟩ := hring
    change s.memory.heap s.memory.array = some old at hold
    simp only [PushStep.advance, hold, Option.bind_eq_bind, Option.bind_some, Option.some.injEq,
      Prod.mk.injEq] at hadvance
    obtain ⟨rfl, rfl⟩ := hadvance
    have hkept : Function.update s.memory.heap s.memory.array none newArray =
        s.memory.heap newArray :=
      Function.update_of_ne hne ..
    exact .inl (h.pushInside hpc nofun nofun hothers rfl hlocked
      ⟨array, hkept.trans harray, hholds, htail, hsize⟩ ⟨rfl, room, hkept.trans hroom, hlt⟩)
  | storeArray newArray tail =>
    obtain ⟨rfl, hroom⟩ := hat
    obtain ⟨rfl, rfl⟩ := Prod.mk.inj (Option.some.inj hadvance)
    exact .inl (h.pushInside hpc nofun nofun hothers rfl hlocked hring ⟨rfl, rfl, hroom⟩)
  | set arr tail => exact .inl (h.pushSet hpc hadvance)
  | storeTail tail =>
    obtain ⟨rfl, rfl⟩ := Prod.mk.inj (Option.some.inj hadvance)
    exact .inr (h.pushStoreTail hpc)
  | release =>
    obtain ⟨rfl, rfl⟩ := Prod.mk.inj (Option.some.inj hadvance)
    exact .inl (h.inside hothers (h.progress_eq (by rw [hpc]; rfl)) (.ofOwner hslot trivial)
      (False.elim ·) hring trivial)

end Push

/-! ### The steps that take an element -/

section Take

variable {operation : Operation α}

omit [DecidableEq Thief] in
/-- A thread stays in `tl_queue_pop` or `tl_queue_steal`, or returns from it. -/
theorem slotStep_take (h : Represents s a) {step : TakeStep α}
    (hpc : s.pc thread = .take operation step) {next : Pc α}
    (hnext : (∃ step, next = .take operation step) ∨ ∃ result, next = .done result) :
    SlotStep s a.object.1 a.object.1 thread next s.memory.buffer := by
  constructor
  · rintro rfl
    have hslot := h.slot
    have hatSlot := h.atSlot
    rw [hpc] at hslot hatSlot
    rcases hnext with ⟨step, rfl⟩ | ⟨result, rfl⟩
    · exact ⟨hslot, hatSlot⟩
    · exact ⟨hslot, trivial⟩
  · rintro thief rfl
    have hsteals := h.thieves thief
    rw [hpc] at hsteals
    rcases hnext with ⟨step, rfl⟩ | ⟨result, rfl⟩
    · exact ⟨rfl, rfl, hsteals⟩
    · exact ⟨rfl, rfl, trivial⟩

omit [DecidableEq Thief] in
/-- Behind the test of the slot, both functions remove the first element of the list. -/
theorem apply_take (h : Represents s a) {step : TakeStep α}
    (hpc : s.pc thread = .take operation step) :
    slotFifo.apply operation a.object =
      ((a.object.1, a.object.2.tail), a.object.2.head?) := by
  have hcases : operation = .pop ∧ a.object.1 = none ∨ operation = .steal := by
    cases thread with
    | owner =>
      have hslot := h.slot
      have hatSlot := h.atSlot
      rw [hpc] at hslot hatSlot
      exact hatSlot.imp (fun hpop ↦ ⟨hpop.1, hslot.trans hpop.2⟩) id
    | thief thief =>
      have hsteals := h.thieves thief
      rw [hpc] at hsteals
      exact .inr hsteals
  rcases hcases with ⟨rfl, hempty⟩ | rfl
  · have hobject : a.object = (none, a.object.2) := Prod.ext hempty rfl
    rw [hobject]
    rfl
  · rfl

/-- A thread tries to take the lock. -/
theorem takeAcquire (h : Represents s a) (hpc : s.pc thread = .take operation .acquire)
    (hadvance : TakeStep.acquire.advance operation s.memory = some (pc, memory)) :
    Represents { memory := memory, pc := Function.update s.pc thread pc } a := by
  simp only [TakeStep.advance] at hadvance
  split_ifs at hadvance with hlocked
  · obtain ⟨rfl, rfl⟩ := Prod.mk.inj (Option.some.inj hadvance)
    exact h.outside (by rw [hpc]; exact id) id (h.progress_eq (by rw [hpc])) rfl rfl
      (h.slotStep_take hpc (.inl ⟨_, rfl⟩))
  · obtain ⟨rfl, rfl⟩ := Prod.mk.inj (Option.some.inj hadvance)
    have hothers : ∀ other, other ≠ thread → ¬ (s.pc other).Locks :=
      fun other _ ↦ h.notLocks_of_unlocked (by simpa using hlocked) other
    have hring := h.ring_of_others hothers hpc
    exact h.inside hothers (h.progress_eq (by rw [hpc]; rfl))
      (h.slotStep_take hpc (.inl ⟨_, rfl⟩)) (fun _ ↦ rfl) hring trivial

/-- The operation takes effect where the thread finds the list empty. -/
theorem takeLoad (h : Represents s a) (hpc : s.pc thread = .take operation .load)
    (hlocks : (s.pc thread).Locks)
    (hadvance : TakeStep.load.advance operation s.memory = some (pc, memory)) :
    Represents { memory := memory, pc := Function.update s.pc thread pc } a ∨
      ∃ after, AtomicStep slotFifo a (.apply thread) after ∧
        Represents { memory := memory, pc := Function.update s.pc thread pc } after := by
  have hothers := h.notLocks_of_ne hlocks
  have hlocked := h.locked thread hlocks
  have happly := h.apply_take hpc
  have hcalled := h.progress thread
  rw [hpc] at hcalled
  obtain ⟨array, harray, hholds, htail, hsize⟩ :
      s.memory.Ring s.memory.array a.object.2 := h.ring_of_others hothers hpc
  simp only [TakeStep.advance] at hadvance
  split_ifs at hadvance with hempty
  · obtain ⟨rfl, rfl⟩ := Prod.mk.inj (Option.some.inj hadvance)
    have hnil : a.object.2 = [] := List.length_eq_zero_iff.mp (by omega)
    rw [hnil] at happly
    refine .inr ⟨_, .apply hcalled, h.inside hothers (by rw [happly]; rfl) ?_ (fun _ ↦ hlocked)
      ?_ trivial⟩
    · rw [happly]
      exact h.slotStep_take hpc (.inl ⟨_, rfl⟩)
    · rw [happly, List.tail_nil, ← hnil]
      exact ⟨array, harray, hholds, htail, hsize⟩
  · obtain ⟨rfl, rfl⟩ := Prod.mk.inj (Option.some.inj hadvance)
    refine .inl (h.inside hothers (h.progress_eq (by rw [hpc]; rfl))
      (h.slotStep_take hpc (.inl ⟨_, rfl⟩)) (fun _ ↦ hlocked)
      ⟨array, harray, hholds, htail, hsize⟩ ⟨rfl, rfl, fun hnil ↦ hempty ?_⟩)
    rw [htail, hnil]
    simp

/-- The operation takes effect where the thread moves the head behind the first element. -/
theorem takeStoreHead (h : Represents s a) {elt : Option α} {head : ℤ}
    (hpc : s.pc thread = .take operation (.storeHead elt head)) (hlocks : (s.pc thread).Locks) :
    ∃ after, AtomicStep slotFifo a (.apply thread) after ∧
      Represents
        { memory := { s.memory with head := head + 1 }
          pc := Function.update s.pc thread (.take operation (.release elt)) } after := by
  have hothers := h.notLocks_of_ne hlocks
  have hlocked := h.locked thread hlocks
  have happly := h.apply_take hpc
  have hat := h.atRing thread
  have hcalled := h.progress thread
  rw [hpc] at hat hcalled
  obtain ⟨rfl, first, rest, hfifo, rfl⟩ := hat
  obtain ⟨array, harray, hholds, htail, hsize⟩ :
      s.memory.Ring s.memory.array a.object.2 := h.ring_of_others hothers hpc
  rw [hfifo] at happly hholds htail hsize
  refine ⟨_, .apply hcalled, h.inside hothers (by rw [happly]; rfl) ?_ (fun _ ↦ hlocked)
    ?_ trivial⟩
  · rw [happly]
    exact h.slotStep_take hpc (.inl ⟨_, rfl⟩)
  · rw [happly]
    rw [List.length_cons] at htail hsize
    refine ⟨array, harray, hholds.tail, ?_, ?_⟩
    · push_cast at htail
      simp only [List.tail_cons]
      omega
    · push_cast at hsize
      simp only [List.tail_cons]
      omega

/-- A step of a pop or a steal goes unseen, or applies the operation. -/
theorem take (h : Represents s a) {step : TakeStep α}
    (hpc : s.pc thread = .take operation step)
    (hadvance : step.advance operation s.memory = some (pc, memory)) :
    Represents { memory := memory, pc := Function.update s.pc thread pc } a ∨
      ∃ after, AtomicStep slotFifo a (.apply thread) after ∧
        Represents { memory := memory, pc := Function.update s.pc thread pc } after := by
  by_cases hacquire : step = .acquire
  · subst hacquire
    exact .inl (h.takeAcquire hpc hadvance)
  have hlocks : (s.pc thread).Locks := by
    rw [hpc]
    cases step with
    | acquire => exact absurd rfl hacquire
    | _ => trivial
  have hothers := h.notLocks_of_ne hlocks
  have hlocked := h.locked thread hlocks
  have hring : s.memory.Ring s.memory.array a.object.2 := h.ring_of_others hothers hpc
  cases step with
  | acquire => exact absurd rfl hacquire
  | load => exact h.takeLoad hpc hlocks hadvance
  | get arr head =>
    have hat := h.atRing thread
    rw [hpc] at hat
    obtain ⟨rfl, rfl, hne⟩ := hat
    obtain ⟨array, harray, hholds, htail, hsize⟩ := hring
    simp only [TakeStep.advance, harray, Option.bind_eq_bind, Option.bind_some, Option.some.injEq,
      Prod.mk.injEq] at hadvance
    obtain ⟨rfl, rfl⟩ := hadvance
    obtain ⟨first, rest, hfifo⟩ := List.exists_cons_of_ne_nil hne
    have hfirst : array.caGet s.memory.head = some first := by
      rw [hfifo, List.map_cons] at hholds
      exact hholds.caGet_head
    exact .inl (h.inside hothers (h.progress_eq (by rw [hpc]; rfl))
      (h.slotStep_take hpc (.inl ⟨_, rfl⟩)) (fun _ ↦ hlocked)
      ⟨array, harray, hholds, htail, hsize⟩ ⟨rfl, first, rest, hfifo, hfirst⟩)
  | storeHead elt head =>
    obtain ⟨rfl, rfl⟩ := Prod.mk.inj (Option.some.inj hadvance)
    exact .inr (h.takeStoreHead hpc hlocks)
  | release result =>
    obtain ⟨rfl, rfl⟩ := Prod.mk.inj (Option.some.inj hadvance)
    exact .inl (h.inside hothers (h.progress_eq (by rw [hpc]; rfl))
      (h.slotStep_take hpc (.inr ⟨_, rfl⟩)) (False.elim ·) hring trivial)

end Take

/-! ### The other steps -/

/-- The owner writes the slot where the operation takes effect. -/
theorem storeSlot (h : Represents s a) (operation : Operation α) {buffer result : Option α}
    (hpc : ¬ (s.pc .owner).Locks) (hcalled : (s.pc .owner).progress = .called operation)
    (happly : slotFifo.apply operation a.object = ((buffer, a.object.2), result)) :
    ∃ after, AtomicStep slotFifo a (.apply .owner) after ∧
      Represents
        { memory := { s.memory with buffer := buffer }
          pc := Function.update s.pc .owner (.done result) } after := by
  refine ⟨_, .apply ((h.progress .owner).trans hcalled),
    h.outside hpc id (by rw [happly]; rfl) rfl (by rw [happly]) (.ofOwner ?_ trivial)⟩
  rw [happly]
  rfl

/-- Every step of a thread goes unseen, or applies its operation. -/
theorem advance (h : Represents s a) {fresh : Address} {contents : ℕ → Option α}
    (hfresh : s.memory.heap fresh = none)
    (hadvance : (s.pc thread).advance fresh contents s.memory = some (pc, memory)) :
    Represents { memory := memory, pc := Function.update s.pc thread pc } a ∨
      ∃ after, AtomicStep slotFifo a (.apply thread) after ∧
        Represents { memory := memory, pc := Function.update s.pc thread pc } after := by
  obtain ⟨current, hpc⟩ : ∃ current, s.pc thread = current := ⟨_, rfl⟩
  by_cases hsteals : current.Steals
  · rw [hpc] at hadvance
    cases current with
    | take operation step => exact h.take hpc hadvance
    | idle => exact absurd hadvance nofun
    | done result => exact absurd hadvance nofun
    | _ => exact absurd hsteals id
  obtain rfl := h.eq_owner (hpc ▸ hsteals)
  have hslot := h.slot
  have hatSlot := h.atSlot
  rw [hpc] at hadvance hslot hatSlot
  cases current with
  | idle => exact absurd hadvance nofun
  | push operation elt step => exact h.push hpc hfresh hadvance
  | priorityLoad elt =>
    obtain ⟨rfl, rfl⟩ := Prod.mk.inj (Option.some.inj hadvance)
    exact .inl (h.outside (by rw [hpc]; exact id) id (h.progress_eq (by rw [hpc]; rfl)) rfl rfl
      (.ofOwner hslot rfl))
  | priorityStore elt oldBuffer =>
    have hold : oldBuffer = s.memory.buffer := hatSlot
    cases oldBuffer with
    | some old =>
      obtain ⟨rfl, rfl⟩ := Prod.mk.inj (Option.some.inj hadvance)
      exact .inl (h.outside (by rw [hpc]; exact id) id (h.progress_eq (by rw [hpc]; rfl)) rfl rfl
        (.ofOwner (hslot.trans hold.symm) (.inr ⟨elt, rfl, rfl⟩)))
    | none =>
      obtain ⟨rfl, rfl⟩ := Prod.mk.inj (Option.some.inj hadvance)
      refine .inr (h.storeSlot (.priorityPush elt) (by rw [hpc]; exact id) (by rw [hpc]; rfl) ?_)
      have hobject : a.object = (none, a.object.2) := Prod.ext (hslot.trans hold.symm) rfl
      rw [hobject]
      simp [slotFifo]
  | popTest =>
    simp only [Pc.advance] at hadvance
    split_ifs at hadvance with hfull <;>
      obtain ⟨rfl, rfl⟩ := Prod.mk.inj (Option.some.inj hadvance)
    · exact .inl (h.outside (by rw [hpc]; exact id) id (h.progress_eq (by rw [hpc]; rfl)) rfl rfl
        (.ofOwner hslot hfull))
    · exact .inl (h.outside (by rw [hpc]; exact id) id (h.progress_eq (by rw [hpc]; rfl)) rfl rfl
        (.ofOwner hslot (.inl ⟨rfl, by simpa using hfull⟩)))
  | popLoad =>
    obtain ⟨rfl, rfl⟩ := Prod.mk.inj (Option.some.inj hadvance)
    exact .inl (h.outside (by rw [hpc]; exact id) id (h.progress_eq (by rw [hpc]; rfl)) rfl rfl
      (.ofOwner hslot ⟨rfl, hatSlot⟩))
  | popClear popped =>
    obtain ⟨hpopped, hfull⟩ := hatSlot
    obtain ⟨rfl, rfl⟩ := Prod.mk.inj (Option.some.inj hadvance)
    obtain ⟨elt, helt⟩ := Option.isSome_iff_exists.mp hfull
    refine .inr (h.storeSlot .pop (by rw [hpc]; exact id) (by rw [hpc]; rfl) ?_)
    have hobject : a.object = (some elt, a.object.2) := Prod.ext (hslot.trans helt) rfl
    rw [hpopped, helt, hobject]
    rfl
  | take operation step => exact h.take hpc hadvance
  | done result => exact absurd hadvance nofun

/-- A thread calls a function of the queue. -/
theorem call (h : Represents s a) {operation : Operation α} (hidle : s.pc thread = .idle)
    (hmay : operation.MayCall thread) :
    ∃ after, AtomicStep slotFifo a (.event (.call thread operation)) after ∧
      Represents { s with pc := Function.update s.pc thread operation.entry } after := by
  refine ⟨_, .call operation ((h.progress thread).trans (by rw [hidle]; rfl)), ?_⟩
  have hprogress : operation.entry.progress = .called operation := by cases operation <;> rfl
  have hentry : ¬ operation.entry.Locks := by cases operation <;> exact id
  refine h.outside (by rw [hidle]; exact id) hentry (by rw [hprogress]) rfl rfl ⟨?_, ?_⟩
  · rintro rfl
    have hslot := h.slot
    rw [hidle] at hslot
    cases operation with
    | push elt => exact ⟨hslot, .inl rfl⟩
    | priorityPush elt => exact ⟨hslot, trivial⟩
    | pop => exact ⟨hslot, trivial⟩
    | steal => exact ⟨hslot, .inr rfl⟩
  · rintro thief rfl
    cases operation with
    | steal => exact ⟨rfl, rfl, rfl⟩
    | _ => exact absurd hmay id

/-- A thread returns. -/
theorem finish (h : Represents s a) {result : Option α} (hdone : s.pc thread = .done result) :
    ∃ after, AtomicStep slotFifo a (.event (.finish thread result)) after ∧
      Represents { s with pc := Function.update s.pc thread .idle } after := by
  refine ⟨_, .finish ((h.progress thread).trans (by rw [hdone]; rfl)),
    h.outside (by rw [hdone]; exact id) id rfl rfl rfl ⟨?_, ?_⟩⟩
  · rintro rfl
    have hslot := h.slot
    rw [hdone] at hslot
    exact ⟨hslot, trivial⟩
  · rintro thief rfl
    exact ⟨rfl, rfl, trivial⟩

/-- `tl_queue_init` makes an empty queue. -/
theorem init {logSize : ℕ} {hlogSize : logSize < 31} (h : (system logSize hlogSize).initial s) :
    ∃ a, slotFifo.atomic.initial a ∧ Represents s a := by
  obtain ⟨⟨array, contents, hmemory⟩, hidle⟩ := h
  refine ⟨⟨(none, []), fun _ ↦ .idle⟩, ⟨rfl, fun _ ↦ rfl⟩, ?_⟩
  have hnot : ∀ thread, ¬ (s.pc thread).Locks := fun thread ↦ by rw [hidle]; exact id
  refine
    { progress := fun thread ↦ by rw [hidle]; rfl
      slot := by rw [hidle, hmemory]; rfl
      atSlot := by rw [hidle]; trivial
      thieves := fun thief ↦ by rw [hidle]; trivial
      locked := fun thread hlocks ↦ absurd hlocks (hnot thread)
      exclusive := fun first _ hlocks ↦ absurd hlocks (hnot first)
      ring := ?_
      atRing := fun thread ↦ Pc.atRing_of_not_locks (hnot thread) .. }
  rw [hidle, hmemory]
  have hheap : (tlQueueInit logSize hlogSize array contents).heap array =
      some (circularArrayNew logSize hlogSize contents) := by
    simp [tlQueueInit]
  refine ⟨_, hheap, nofun, rfl, ?_⟩
  exact_mod_cast (size_pos _).le

omit [DecidableEq Thief] in
/-- Every array that a thread is about to use is allocated. -/
theorem accesses (h : Represents s a) {address : Address}
    (haccess : (s.pc thread).accesses s.memory = some address) :
    (s.memory.heap address).isSome := by
  have hat := h.atRing thread
  have hcurrent : (s.pc thread).Locks ∧
      (s.pc thread).currentArray s.memory.array = address := by
    unfold Pc.accesses at haccess
    split at haccess
    · next hpc => rw [hpc]; exact ⟨trivial, Option.some.inj haccess⟩
    · next hpc =>
      rw [hpc] at hat ⊢
      exact ⟨trivial, hat.1.symm.trans (Option.some.inj haccess)⟩
    · next hpc => rw [hpc]; exact ⟨trivial, Option.some.inj haccess⟩
    · next hpc =>
      rw [hpc] at hat ⊢
      exact ⟨trivial, hat.1.symm.trans (Option.some.inj haccess)⟩
    · next hpc =>
      rw [hpc] at hat ⊢
      exact ⟨trivial, hat.1.symm.trans (Option.some.inj haccess)⟩
    · exact absurd haccess nofun
  obtain ⟨array, harray, -⟩ := h.ring_of_others (h.notLocks_of_ne hcurrent.1) rfl
  rw [hcurrent.2] at harray
  exact Option.isSome_iff_exists.mpr ⟨array, harray⟩

end Represents

/-! ### Runs -/

variable [DecidableEq Thief]

/-- Every run of the queue is one of the atomic object with the same history, and ends in a state
that represents one of the atomic object. -/
theorem exists_atomic {logSize : ℕ} {hlogSize : logSize < 31} {labels : List (Label α Thief)}
    {s : State α Thief} (hrun : (system logSize hlogSize).Run (fun _ _ ↦ True) labels s) :
    ∃ atomicLabels a, slotFifo.atomic.Run (fun _ _ ↦ True) atomicLabels a ∧
      atomicLabels.filterMap AtomicLabel.event? = labels.filterMap Label.event? ∧
        Represents s a := by
  refine exists_atomic_of_simulation (fun s hinitial ↦ Represents.init hinitial) ?_ hrun
  intro s label next a h _ hstep
  cases hstep with
  | call hidle hmay =>
    obtain ⟨after, hafter, hnext⟩ := h.call hidle hmay
    exact .inr ⟨_, after, hafter, rfl, hnext⟩
  | step hfresh hadvance =>
    rcases h.advance hfresh hadvance with hnext | ⟨after, hafter, hnext⟩
    · exact .inl ⟨rfl, hnext⟩
    · exact .inr ⟨_, after, hafter, rfl, hnext⟩
  | finish hdone =>
    obtain ⟨after, hafter, hnext⟩ := h.finish hdone
    exact .inr ⟨_, after, hafter, rfl, hnext⟩

/-- **Linearizability.** The history of every run is one of the slot and the list: the calls take
effect one after another, each between its call and its return. The list lies between the head and
the tail of the array of the queue, which is the one about to be stored while the old one is freed,
and no thread is ever about to use an array that is not allocated. -/
theorem linearizable {logSize : ℕ} {hlogSize : logSize < 31} {labels : List (Label α Thief)}
    {s : State α Thief} (hrun : (system logSize hlogSize).Run (fun _ _ ↦ True) labels s) :
    (∃ atomicLabels a arr, slotFifo.atomic.Run (fun _ _ ↦ True) atomicLabels a ∧
      atomicLabels.filterMap AtomicLabel.event? = labels.filterMap Label.event? ∧
      s.memory.heap ((s.pc .owner).currentArray s.memory.array) = some arr ∧
      arr.Holds s.memory.head (a.object.2.map some) ∧
      s.memory.tail - s.memory.head = a.object.2.length ∧
      0 ≤ s.memory.tail - s.memory.head ∧ s.memory.tail - s.memory.head ≤ arr.size) ∧
    ∀ thread address, (s.pc thread).accesses s.memory = some address →
      (s.memory.heap address).isSome := by
  obtain ⟨atomicLabels, a, hatomic, hhistory, h⟩ := exists_atomic hrun
  obtain ⟨arr, harr, hholds, htail, hsize⟩ := h.ring
  exact ⟨⟨atomicLabels, a, arr, hatomic, hhistory, harr, hholds, by omega, by omega, by omega⟩,
    fun thread address haccess ↦ h.accesses haccess⟩

/-- The owner pushes an element, and a thief steals it. -/
def pushSteal : List (Label ℕ Unit) :=
  [.call .owner (.push 7), .step .owner, .step .owner, .step .owner, .step .owner, .step .owner,
    .finish .owner none, .call (.thief ()) .steal, .step (.thief ()), .step (.thief ()),
    .step (.thief ()), .step (.thief ()), .step (.thief ()), .finish (.thief ()) (some 7)]

/-- A queue of one element. -/
def smallSystem : TransitionSystem (State ℕ Unit) (Label ℕ Unit) := system 0 zero_lt_maxLogSize

theorem smallSystem_advance {labels : List (Label ℕ Unit)} {s : State ℕ Unit} {pc : Pc ℕ}
    {memory : Memory ℕ} (hrun : smallSystem.Run (fun _ _ ↦ True) labels s) (thread : Thread Unit)
    (hfresh : s.memory.heap 1 = none)
    (hadvance : (s.pc thread).advance 1 (fun _ ↦ none) s.memory = some (pc, memory)) :
    smallSystem.Run (fun _ _ ↦ True) (labels ++ [.step thread])
      { memory := memory, pc := Function.update s.pc thread pc } :=
  hrun.step trivial (.step hfresh hadvance)

theorem run_pushSteal : ∃ s, smallSystem.Run (fun _ _ ↦ True) pushSteal s := by
  have hstart : smallSystem.Run (fun _ _ ↦ True) []
      ⟨tlQueueInit 0 (by decide) 0 fun _ ↦ none, fun _ ↦ .idle⟩ :=
    .start ⟨⟨0, fun _ ↦ none, rfl⟩, fun _ ↦ rfl⟩
  have hpush := hstart.step trivial
    (show Step _ (.call .owner (.push 7)) _ from .call rfl trivial)
  have hacquire := smallSystem_advance hpush .owner rfl rfl
  have hload := smallSystem_advance hacquire .owner rfl rfl
  have hset := smallSystem_advance hload .owner rfl rfl
  have htail := smallSystem_advance hset .owner rfl rfl
  have hrelease := smallSystem_advance htail .owner rfl rfl
  have hfinish := hrelease.step trivial (show Step _ (.finish .owner none) _ from .finish rfl)
  have hsteal := hfinish.step trivial
    (show Step _ (.call (.thief ()) .steal) _ from .call rfl trivial)
  have hacquired := smallSystem_advance hsteal (.thief ()) rfl rfl
  have hloaded := smallSystem_advance hacquired (.thief ()) rfl rfl
  have hget := smallSystem_advance hloaded (.thief ()) rfl rfl
  have hhead := smallSystem_advance hget (.thief ()) rfl rfl
  have hreleased := smallSystem_advance hhead (.thief ()) rfl rfl
  exact ⟨_, hreleased.step trivial (show Step _ (.finish (.thief ()) (some 7)) _ from .finish rfl)⟩

theorem linearizable_pushSteal : ∃ atomicLabels a,
    slotFifo.atomic.Run (fun _ _ ↦ True) atomicLabels a ∧
      atomicLabels.filterMap AtomicLabel.event? =
        [.call .owner (.push 7), .finish .owner none, .call (.thief ()) .steal,
          .finish (Thread.thief ()) (some 7)] := by
  obtain ⟨s, hrun⟩ := run_pushSteal
  obtain ⟨⟨atomicLabels, a, -, hatomic, hhistory, -⟩, -⟩ := linearizable hrun
  exact ⟨atomicLabels, a, hatomic, hhistory⟩

end Libseff.Queues.TlQueue
