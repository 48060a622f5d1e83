import Libseff.Foundation.Delivery
import Libseff.Queues.TkQueue

/-!
# Delivery of the ticket queue

The ring is the list of the elements from `head` to `tail`. An array that was replaced keeps the
elements below the tail of that time (`Memory.Holds.stale`), so a thief that still uses it gets the
right element at a smaller index (`Memory.Live`), and a wrong one from there on. While every
compare-exchange of a thief that succeeds is of the first kind, each element is delivered once.
-/

set_option autoImplicit false
set_option relaxedAutoImplicit false

namespace Libseff.Queues.TkQueue

open Foundation CircularArray

variable {α Thief : Type*}

/-! ### The ring -/

/-- The arrays hold the ring: the current one all of it, and one that was replaced what was pushed
before. -/
structure Memory.Holds (m : Memory α) (ring : List α) : Prop where
  array : ∃ arr, m.heap m.array = some arr ∧ arr.Holds m.head (ring.map some) ∧
    ring.length ≤ arr.size
  tail : m.tail = m.head + ring.length
  current : m.replaced m.array = none
  stale : ∀ address tail, m.replaced address = some tail → tail ≤ m.tail ∧
    ∃ arr, m.heap address = some arr ∧
      arr.Holds m.head ((ring.take (tail - m.head).toNat).map some)

/-- A thread may have loaded the address of the array. -/
def Memory.Known (m : Memory α) (address : Address) : Prop :=
  address = m.array ∨ (m.replaced address).isSome

/-- The array was not replaced before the index was pushed. -/
def Memory.Live (m : Memory α) (address : Address) (index : ℤ) : Prop :=
  ∀ tail, m.replaced address = some tail → index < tail

/-- The current array has room for another element. -/
def Memory.HasRoom (m : Memory α) (ring : List α) : Prop :=
  ∃ arr, m.heap m.array = some arr ∧ ring.length < arr.size

/-- The window that the owner found in the current array, and that it copies. -/
def Memory.Window (m : Memory α) (head : ℤ) : Prop :=
  head ≤ m.head ∧ ∀ arr, m.heap m.array = some arr → m.tail - head ≤ arr.size

namespace Memory.Holds

variable {m : Memory α} {first : α} {rest ring : List α} {address : Address}

theorem isSome (h : m.Holds ring) (hknown : m.Known address) : (m.heap address).isSome := by
  rcases hknown with rfl | hreplaced
  · obtain ⟨arr, harr, -⟩ := h.array
    rw [harr]
    rfl
  · obtain ⟨tail, htail⟩ := Option.isSome_iff_exists.mp hreplaced
    obtain ⟨-, arr, harr, -⟩ := h.stale address tail htail
    rw [harr]
    rfl

/-- What a thread reads at `head`. -/
theorem caGet (h : m.Holds (first :: rest)) (hknown : m.Known address)
    (hlive : m.Live address m.head) {arr : CircularArray (Option α)}
    (harr : m.heap address = some arr) : arr.caGet m.head = some first := by
  rcases hknown with rfl | hreplaced
  · obtain ⟨array, harray, hholds, -⟩ := h.array
    obtain rfl : arr = array := Option.some.inj (harr.symm.trans harray)
    exact hholds.caGet_head
  · obtain ⟨tail, htail⟩ := Option.isSome_iff_exists.mp hreplaced
    obtain ⟨-, array, harray, hholds⟩ := h.stale address tail htail
    obtain rfl : arr = array := Option.some.inj (harr.symm.trans harray)
    have hlt := hlive tail htail
    obtain ⟨count, hcount⟩ : ∃ count, (tail - m.head).toNat = count + 1 :=
      ⟨(tail - m.head).toNat - 1, by omega⟩
    rw [hcount, List.take_succ_cons, List.map_cons] at hholds
    exact hholds.caGet_head

/-- The first element is taken. -/
theorem steal (h : m.Holds (first :: rest)) : { m with head := m.head + 1 }.Holds rest where
  array := by
    obtain ⟨arr, harr, hholds, hsize⟩ := h.array
    rw [List.length_cons] at hsize
    exact ⟨arr, harr, hholds.tail, by push_cast at hsize; omega⟩
  tail := by
    have htail := h.tail
    rw [List.length_cons] at htail
    push_cast at htail
    dsimp only
    omega
  current := h.current
  stale := fun address tail htail ↦ by
    obtain ⟨hle, arr, harr, hholds⟩ := h.stale address tail htail
    refine ⟨hle, arr, harr, ?_⟩
    dsimp only
    by_cases hlt : m.head < tail
    · obtain ⟨count, hcount⟩ : ∃ count, (tail - m.head).toNat = count + 1 :=
        ⟨(tail - m.head).toNat - 1, by omega⟩
      have hnext : (tail - (m.head + 1)).toNat = count := by omega
      rw [hcount, List.take_succ_cons, List.map_cons] at hholds
      rw [hnext]
      exact hholds.tail
    · have hzero : (tail - (m.head + 1)).toNat = 0 := by omega
      rw [hzero]
      exact CircularArray.Holds.nil arr _

end Memory.Holds

/-! ### The invariant -/

/-- What a thread knows in `tk_queue_pop` and `tk_queue_steal`. -/
def TakeStep.At (m : Memory α) (ring : List α) : TakeStep α → Prop
  | .loadArray => True
  | .loadHead arr => m.Known arr
  | .loadTail arr head => m.Known arr ∧ head ≤ m.head
  | .get arr head => m.Known arr ∧ head ≤ m.head ∧ (head = m.head → ring ≠ [])
  | .cas arr head elt => m.Known arr ∧ head ≤ m.head ∧ (head = m.head → m.Live arr head →
      ∃ first rest, ring = first :: rest ∧ elt = some first)

/-- The owner uses the current array. -/
def TakeStep.Current (array : Address) : TakeStep α → Prop
  | .loadArray => True
  | .loadHead arr => arr = array
  | .loadTail arr _ => arr = array
  | .get arr _ => arr = array
  | .cas arr _ _ => arr = array

/-- What the owner knows in `tk_queue_push(self, elt)`. -/
def PushStep.At (m : Memory α) (ring : List α) (elt : α) : PushStep → Prop
  | .loadArray => True
  | .loadHead arr => arr = m.array
  | .loadTail arr head => arr = m.array ∧ m.Window head
  | .allocate arr head tail => arr = m.array ∧ tail = m.tail ∧ m.Window head
  | .copy arr newArray tail i => arr = m.array ∧ tail = m.tail ∧ m.replaced newArray = none ∧
      ∃ head array copied, head ≤ m.head ∧ Copying m.heap arr newArray tail head i array copied
  | .publish newArray tail => tail = m.tail ∧ newArray ≠ m.array ∧ m.replaced newArray = none ∧
      ∃ copied, m.heap newArray = some copied ∧ copied.Holds m.head (ring.map some) ∧
        ring.length < copied.size
  | .set arr tail => arr = m.array ∧ tail = m.tail ∧ m.HasRoom ring
  | .store tail => tail = m.tail ∧ m.HasRoom ring ∧
      ∀ arr, m.heap m.array = some arr → arr.caGet tail = some elt

/-- What the owner knows. -/
def OwnerPc.At (m : Memory α) (ring : List α) : OwnerPc α → Prop
  | .push elt step => step.At m ring elt
  | .priorityStore _ oldBuffer => oldBuffer = m.buffer
  | .popClear buffer => buffer = m.buffer
  | .take step => step.At m ring ∧ step.Current m.array
  | _ => True

/-- What a thief knows. -/
def ThiefPc.At (m : Memory α) (ring : List α) : ThiefPc α → Prop
  | .take step => step.At m ring
  | _ => True

/-- The element that the owner puts into the slot or the ring. -/
def OwnerPc.hand : OwnerPc α → Option α
  | .push elt _ => some elt
  | .priorityLoad elt => some elt
  | .priorityStore elt _ => some elt
  | _ => none

/-- The element that the owner is about to return. -/
def OwnerPc.held : OwnerPc α → Option α
  | .done result => result
  | _ => none

/-- The element that a thief is about to return. -/
def ThiefPc.held : ThiefPc α → Option α
  | .done result => result
  | _ => none

/-- The elements that the threads are about to return. -/
def State.held (s : State α Thief) : Thread Thief → Option α
  | .owner => s.owner.held
  | .thief thief => (s.thieves thief).held

/-- All elements that are not taken: those in the ring, in the slot, and in the hand of the
owner. -/
def State.contents (s : State α Thief) (ring : List α) : List α :=
  ring ++ s.memory.buffer.toList ++ s.owner.hand.toList

/-- The queue has the given ring. -/
structure Represents (s : State α Thief) (ring : List α) : Prop where
  holds : s.memory.Holds ring
  owner : s.owner.At s.memory ring
  thieves : ∀ thief, (s.thieves thief).At s.memory ring

/-- A thread is not disturbed by steps that only raise `head`, keep the first element as long as
they do not, and replace no array but the current one. -/
theorem TakeStep.At.mono {step : TakeStep α} {m m' : Memory α} {ring ring' : List α}
    (h : step.At m ring) (hhead : m.head ≤ m'.head)
    (hfirst : m'.head = m.head → ∀ first rest, ring = first :: rest →
      ∃ rest', ring' = first :: rest')
    (hknown : ∀ address, m.Known address → m'.Known address)
    (hreplaced : ∀ address tail, m.replaced address = some tail →
      m'.replaced address = some tail) : step.At m' ring' := by
  have hlive : ∀ {address index}, m'.Live address index → m.Live address index :=
    fun hlive tail htail ↦ hlive tail (hreplaced _ tail htail)
  cases step with
  | loadArray => trivial
  | loadHead arr => exact hknown arr h
  | loadTail arr head => exact ⟨hknown arr h.1, h.2.trans hhead⟩
  | get arr head =>
    obtain ⟨harr, hle, hne⟩ := h
    refine ⟨hknown arr harr, hle.trans hhead, fun heq hnil ↦ ?_⟩
    have hsame : m'.head = m.head := le_antisymm (heq ▸ hle) hhead
    obtain ⟨first, rest, hring⟩ := List.exists_cons_of_ne_nil (hne (heq.trans hsame))
    obtain ⟨rest', hrest⟩ := hfirst hsame first rest hring
    rw [hrest] at hnil
    exact absurd hnil nofun
  | cas arr head elt =>
    obtain ⟨harr, hle, helt⟩ := h
    refine ⟨hknown arr harr, hle.trans hhead, fun heq hindex ↦ ?_⟩
    have hsame : m'.head = m.head := le_antisymm (heq ▸ hle) hhead
    obtain ⟨first, rest, hring, rfl⟩ := helt (heq.trans hsame) (hlive hindex)
    obtain ⟨rest', hrest⟩ := hfirst hsame first rest hring
    exact ⟨first, rest', hrest, rfl⟩

/-- A step of a thread that takes: it goes on, finds the ring empty, or takes the first element. -/
theorem TakeStep.At.advance {step : TakeStep α} {m memory : Memory α} {ring : List α}
    {next : TakeStep α ⊕ Option α} (h : step.At m ring) (hholds : m.Holds ring)
    (hlive : ∀ arr elt, step = .cas arr m.head elt → m.Live arr m.head)
    (hadvance : step.advance m = some (next, memory)) :
    (memory = m ∧ ((∃ after, next = .inl after ∧ after.At m ring) ∨ next = .inr none)) ∨
      ∃ first rest, ring = first :: rest ∧ next = .inr (some first) ∧
        memory = { m with head := m.head + 1 } := by
  cases step with
  | loadArray =>
    obtain ⟨rfl, rfl⟩ := Prod.mk.inj (Option.some.inj hadvance)
    exact .inl ⟨rfl, .inl ⟨_, rfl, .inl rfl⟩⟩
  | loadHead arr =>
    obtain ⟨rfl, rfl⟩ := Prod.mk.inj (Option.some.inj hadvance)
    exact .inl ⟨rfl, .inl ⟨_, rfl, h, le_refl _⟩⟩
  | loadTail arr head =>
    simp only [TakeStep.advance] at hadvance
    split_ifs at hadvance with hempty <;>
      obtain ⟨rfl, rfl⟩ := Prod.mk.inj (Option.some.inj hadvance)
    · exact .inl ⟨rfl, .inr rfl⟩
    · refine .inl ⟨rfl, .inl ⟨_, rfl, h.1, h.2, fun heq hnil ↦ hempty ?_⟩⟩
      rw [heq, hholds.tail, hnil]
      simp
  | get arr head =>
    obtain ⟨hknown, hle, hne⟩ := h
    obtain ⟨array, harray⟩ := Option.isSome_iff_exists.mp (hholds.isSome hknown)
    simp only [TakeStep.advance, harray, Option.bind_eq_bind, Option.bind_some, Option.some.injEq,
      Prod.mk.injEq] at hadvance
    obtain ⟨rfl, rfl⟩ := hadvance
    refine .inl ⟨rfl, .inl ⟨_, rfl, hknown, hle, fun heq hindex ↦ ?_⟩⟩
    obtain ⟨first, rest, rfl⟩ := List.exists_cons_of_ne_nil (hne heq)
    subst heq
    exact ⟨first, rest, rfl, hholds.caGet hknown hindex harray⟩
  | cas arr head elt =>
    simp only [TakeStep.advance] at hadvance
    split_ifs at hadvance with hhead <;>
      obtain ⟨rfl, rfl⟩ := Prod.mk.inj (Option.some.inj hadvance)
    · subst hhead
      obtain ⟨first, rest, hring, rfl⟩ := h.2.2 rfl (hlive arr elt rfl)
      exact .inr ⟨first, rest, hring, rfl, rfl⟩
    · exact .inl ⟨rfl, .inl ⟨_, rfl, h.1⟩⟩

theorem TakeStep.Current.advance {step after : TakeStep α} {m memory : Memory α}
    (h : step.Current m.array) (hadvance : step.advance m = some (.inl after, memory)) :
    after.Current m.array := by
  cases step with
  | loadArray =>
    obtain ⟨hnext, -⟩ := Prod.mk.inj (Option.some.inj hadvance)
    obtain rfl := Sum.inl.inj hnext
    rfl
  | loadHead arr =>
    obtain ⟨hnext, -⟩ := Prod.mk.inj (Option.some.inj hadvance)
    obtain rfl := Sum.inl.inj hnext
    exact h
  | loadTail arr head =>
    simp only [TakeStep.advance] at hadvance
    split_ifs at hadvance <;> obtain ⟨hnext, -⟩ := Prod.mk.inj (Option.some.inj hadvance)
    · exact absurd hnext nofun
    · obtain rfl := Sum.inl.inj hnext
      exact h
  | get arr head =>
    obtain ⟨array, -, hnext⟩ := Option.bind_eq_some_iff.mp hadvance
    obtain rfl := Sum.inl.inj (Prod.mk.inj (Option.some.inj hnext)).1
    exact h
  | cas arr head elt =>
    simp only [TakeStep.advance] at hadvance
    split_ifs at hadvance <;> obtain ⟨hnext, -⟩ := Prod.mk.inj (Option.some.inj hadvance)
    · exact absurd hnext nofun
    · obtain rfl := Sum.inl.inj hnext
      exact h

/-- The owner is not disturbed when a thief takes the first element. -/
theorem OwnerPc.At.steal {pc : OwnerPc α} {m : Memory α} {first : α} {rest : List α}
    (h : pc.At m (first :: rest)) : pc.At { m with head := m.head + 1 } rest := by
  have hroom : m.HasRoom (first :: rest) →
      Memory.HasRoom { m with head := m.head + 1 } rest := by
    rintro ⟨arr, harr, hlt⟩
    rw [List.length_cons] at hlt
    exact ⟨arr, harr, by push_cast at hlt; omega⟩
  have hwindow : ∀ {head : ℤ}, m.Window head →
      Memory.Window { m with head := m.head + 1 } head :=
    fun hwindow ↦ ⟨hwindow.1.trans (by dsimp only; omega), hwindow.2⟩
  cases pc with
  | push elt step =>
    cases step with
    | loadTail arr head => exact ⟨h.1, hwindow h.2⟩
    | allocate arr head tail => exact ⟨h.1, h.2.1, hwindow h.2.2⟩
    | copy arr newArray tail i =>
      obtain ⟨harr, htail, hnew, head, array, copied, hle, hcopying⟩ := h
      exact ⟨harr, htail, hnew, head, array, copied, by dsimp only; omega, hcopying⟩
    | publish newArray tail =>
      obtain ⟨htail, hne, hnew, copied, hcopied, hholds, hlt⟩ := h
      rw [List.length_cons] at hlt
      exact ⟨htail, hne, hnew, copied, hcopied, hholds.tail, by push_cast at hlt; omega⟩
    | set arr tail => exact ⟨h.1, h.2.1, hroom h.2.2⟩
    | store tail => exact ⟨h.1, hroom h.2.1, h.2.2⟩
    | _ => exact h
  | take step =>
    refine ⟨h.1.mono (by dsimp only; omega) (fun hsame ↦ ?_) (fun _ hknown ↦ hknown)
      fun _ _ hreplaced ↦ hreplaced, h.2⟩
    dsimp only at hsame
    omega
  | _ => exact h

/-- Nor is a thief. -/
theorem ThiefPc.At.steal {pc : ThiefPc α} {m : Memory α} {first : α} {rest : List α}
    (h : pc.At m (first :: rest)) : pc.At { m with head := m.head + 1 } rest := by
  cases pc with
  | take step =>
    refine TakeStep.At.mono h (by dsimp only; omega) (fun hsame ↦ ?_) (fun _ hknown ↦ hknown)
      fun _ _ hreplaced ↦ hreplaced
    dsimp only at hsame
    omega
  | _ => trivial

namespace Represents

variable {s : State α Thief} {ring : List α}

/-! ### Thieves -/

section Thieves

variable [DecidableEq Thief]

/-- A thief goes on without a change of the memory. -/
theorem moveThief (h : Represents s ring) {thief : Thief} {pc : ThiefPc α}
    (hat : pc.At s.memory ring) :
    Represents { s with thieves := Function.update s.thieves thief pc } ring where
  holds := h.holds
  owner := h.owner
  thieves := fun other ↦ by
    by_cases heq : other = thief
    · subst heq
      simpa using hat
    · simpa [Function.update_of_ne heq] using h.thieves other

/-- A step of a thief goes unseen, or takes the first element. -/
theorem thiefStep (h : Represents s ring) {thief : Thief} {pc : ThiefPc α} {memory : Memory α}
    (hlive : UsesLiveArray s (.thiefStep thief))
    (hadvance : (s.thieves thief).advance s.memory = some (pc, memory)) :
    memory.buffer = s.memory.buffer ∧ (s.thieves thief).held = none ∧
      ((pc.held = none ∧ Represents
          { s with memory := memory, thieves := Function.update s.thieves thief pc } ring) ∨
        ∃ first rest, ring = first :: rest ∧ pc.held = some first ∧ Represents
          { s with memory := memory, thieves := Function.update s.thieves thief pc } rest) := by
  have hat := h.thieves thief
  cases hpc : s.thieves thief with
  | idle =>
    rw [hpc] at hadvance
    exact absurd hadvance nofun
  | done result =>
    rw [hpc] at hadvance
    exact absurd hadvance nofun
  | take step =>
    rw [hpc] at hadvance hat
    obtain ⟨⟨next, after⟩, hstep, hnext⟩ := Option.map_eq_some_iff.mp hadvance
    obtain ⟨rfl, rfl⟩ := Prod.mk.inj hnext
    rcases TakeStep.At.advance hat h.holds
      (fun arr elt hcas ↦ hlive arr elt (hpc.trans (congrArg ThiefPc.take hcas))) hstep with
      ⟨rfl, ⟨after, rfl, hafter⟩ | rfl⟩ | ⟨first, rest, rfl, rfl, rfl⟩
    · exact ⟨rfl, rfl, .inl ⟨rfl, h.moveThief hafter⟩⟩
    · exact ⟨rfl, rfl, .inl ⟨rfl, h.moveThief trivial⟩⟩
    · refine ⟨rfl, rfl, .inr ⟨first, rest, rfl, rfl, h.holds.steal, h.owner.steal, fun other ↦ ?_⟩⟩
      by_cases heq : other = thief
      · subst heq
        simp [ThiefPc.At]
      · simpa [Function.update_of_ne heq] using (h.thieves other).steal

end Thieves

/-! ### The owner -/

/-- A step of the owner that leaves `head` and the first element, and replaces no array but the
current one. -/
theorem ofOwner (h : Represents s ring) {pc : OwnerPc α} {memory : Memory α} {ring' : List α}
    (hhead : memory.head = s.memory.head) (hholds : memory.Holds ring')
    (hat : pc.At memory ring')
    (hfirst : ∀ first rest, ring = first :: rest → ∃ rest', ring' = first :: rest')
    (hknown : ∀ address, s.memory.Known address → memory.Known address)
    (hreplaced : ∀ address tail, s.memory.replaced address = some tail →
      memory.replaced address = some tail) :
    Represents { s with memory := memory, owner := pc } ring' where
  holds := hholds
  owner := hat
  thieves := fun thief ↦ by
    have hthief := h.thieves thief
    dsimp only
    cases hpc : s.thieves thief with
    | take step =>
      rw [hpc] at hthief
      exact TakeStep.At.mono hthief hhead.ge (fun _ ↦ hfirst) hknown hreplaced
    | _ => trivial

/-- The owner goes on without a change of the memory but in the slot. -/
theorem moveOwner (h : Represents s ring) {pc : OwnerPc α} {buffer : Option α}
    (hat : pc.At { s.memory with buffer := buffer } ring) :
    Represents { s with memory := { s.memory with buffer := buffer }, owner := pc } ring :=
  h.ofOwner rfl ⟨h.holds.array, h.holds.tail, h.holds.current, h.holds.stale⟩ hat
    (fun _ rest hring ↦ ⟨rest, hring⟩) (fun _ hknown ↦ hknown) fun _ _ hreplaced ↦ hreplaced

/-- The owner writes an array that no thief reads. -/
theorem writeHidden (h : Represents s ring) {pc : OwnerPc α} {address : Address}
    {array : CircularArray (Option α)} (hne : address ≠ s.memory.array)
    (hnew : s.memory.replaced address = none)
    (hat : pc.At
      { s.memory with heap := Function.update s.memory.heap address (some array) } ring) :
    Represents
      { s with
        memory := { s.memory with heap := Function.update s.memory.heap address (some array) }
        owner := pc } ring := by
  refine h.ofOwner rfl ⟨?_, h.holds.tail, h.holds.current, fun other tail htail ↦ ?_⟩ hat
    (fun _ rest hring ↦ ⟨rest, hring⟩) (fun _ hknown ↦ hknown) fun _ _ hreplaced ↦ hreplaced
  · obtain ⟨current, hcurrent, hholds, hsize⟩ := h.holds.array
    exact ⟨current, (Function.update_of_ne hne.symm ..).trans hcurrent, hholds, hsize⟩
  · obtain ⟨hle, stale, hstale, hholds⟩ := h.holds.stale other tail htail
    have hother : other ≠ address := fun heq ↦ by
      rw [heq] at htail
      exact absurd (hnew.symm.trans htail) nofun
    exact ⟨hle, stale, (Function.update_of_ne hother ..).trans hstale, hholds⟩

/-- The larger array becomes the current one. -/
theorem publish (h : Represents s ring) {elt : α} {newArray : Address} {tail : ℤ}
    (hpc : s.owner = .push elt (.publish newArray tail)) :
    Represents
      { s with
        memory :=
          { s.memory with
            array := newArray
            replaced := Function.update s.memory.replaced s.memory.array (some s.memory.tail) }
        owner := .push elt (.set newArray tail) } ring := by
  have hat := h.owner
  rw [hpc] at hat
  obtain ⟨rfl, hne, hnew, copied, hcopied, hholds, hlt⟩ := hat
  have hold : Function.update s.memory.replaced s.memory.array (some s.memory.tail)
      s.memory.array = some s.memory.tail :=
    Function.update_self ..
  have hkept : ∀ {address tail}, s.memory.replaced address = some tail →
      Function.update s.memory.replaced s.memory.array (some s.memory.tail) address =
        some tail := by
    intro address tail htail
    have hother : address ≠ s.memory.array := fun heq ↦ by
      rw [heq, h.holds.current] at htail
      exact absurd htail nofun
    exact (Function.update_of_ne hother ..).trans htail
  have htail := h.holds.tail
  refine h.ofOwner rfl ⟨⟨copied, hcopied, hholds, hlt.le⟩, h.holds.tail, ?_, ?_⟩
    ⟨rfl, rfl, copied, hcopied, hlt⟩ (fun _ rest hring ↦ ⟨rest, hring⟩) ?_
    fun address tail hreplaced ↦ hkept hreplaced
  · exact (Function.update_of_ne hne ..).trans hnew
  · intro address tail hreplaced
    by_cases heq : address = s.memory.array
    · subst heq
      obtain rfl := Option.some.inj (hold.symm.trans hreplaced)
      obtain ⟨current, hcurrent, hring, -⟩ := h.holds.array
      refine ⟨le_refl _, current, hcurrent, ?_⟩
      have hall : ring.length ≤ (s.memory.tail - s.memory.head).toNat := by omega
      rw [List.take_of_length_le hall]
      exact hring
    · exact h.holds.stale address tail ((Function.update_of_ne heq ..).symm.trans hreplaced)
  · rintro address (rfl | hknown)
    · exact .inr (Option.isSome_iff_exists.mpr ⟨_, hold⟩)
    · obtain ⟨tail, hreplaced⟩ := Option.isSome_iff_exists.mp hknown
      exact .inr (Option.isSome_iff_exists.mpr ⟨_, hkept hreplaced⟩)

/-- The element is written behind the ring. -/
theorem set (h : Represents s ring) {elt : α} {arr : Address} {tail : ℤ}
    {array : CircularArray (Option α)} (hpc : s.owner = .push elt (.set arr tail))
    (harray : s.memory.heap arr = some array) :
    Represents
      { s with
        memory :=
          { s.memory with
            heap := Function.update s.memory.heap arr (some (array.caSet tail (some elt))) }
        owner := .push elt (.store tail) } ring := by
  have hat := h.owner
  rw [hpc] at hat
  obtain ⟨rfl, rfl, room, hroom, hlt⟩ := hat
  obtain rfl : array = room := Option.some.inj (harray.symm.trans hroom)
  obtain ⟨current, hcurrent, hholds, hsize⟩ := h.holds.array
  obtain rfl : array = current := Option.some.inj (harray.symm.trans hcurrent)
  have htail := h.holds.tail
  have hnew : Function.update s.memory.heap s.memory.array
      (some (array.caSet s.memory.tail (some elt))) s.memory.array =
        some (array.caSet s.memory.tail (some elt)) :=
    Function.update_self ..
  refine h.ofOwner rfl ⟨⟨_, hnew, hholds.caSet ?_ ?_ _, hsize⟩, htail, h.holds.current, ?_⟩
    ⟨rfl, ⟨_, hnew, hlt⟩, fun read hread ↦ ?_⟩ (fun _ rest hring ↦ ⟨rest, hring⟩)
    (fun _ hknown ↦ hknown) fun _ _ hreplaced ↦ hreplaced
  · rw [List.length_map]
    exact htail.ge
  · omega
  · intro address tail hreplaced
    obtain ⟨hle, stale, hstale, hstaleHolds⟩ := h.holds.stale address tail hreplaced
    have hother : address ≠ s.memory.array := fun heq ↦ by
      rw [heq] at hreplaced
      exact absurd (h.holds.current.symm.trans hreplaced) nofun
    exact ⟨hle, stale, (Function.update_of_ne hother ..).trans hstale, hstaleHolds⟩
  · rw [← Option.some.inj (hnew.symm.trans hread), caGet_caSet_self]

/-- The store of the tail adds the element to the ring. -/
theorem store (h : Represents s ring) {elt : α} {tail : ℤ}
    (hpc : s.owner = .push elt (.store tail)) :
    Represents
      { s with memory := { s.memory with tail := tail + 1 }, owner := .done none }
      (ring ++ [elt]) := by
  have hat := h.owner
  rw [hpc] at hat
  obtain ⟨rfl, ⟨room, hroom, hlt⟩, helt⟩ := hat
  obtain ⟨array, harray, hholds, -⟩ := h.holds.array
  obtain rfl : array = room := Option.some.inj (harray.symm.trans hroom)
  have htail := h.holds.tail
  refine h.ofOwner rfl ⟨⟨array, harray, ?_, ?_⟩, ?_, h.holds.current, ?_⟩ trivial ?_
    (fun _ hknown ↦ hknown) fun _ _ hreplaced ↦ hreplaced
  · rw [List.map_append]
    exact hholds.concat (by simpa using htail) (helt array harray)
  · rw [List.length_append, List.length_singleton]
    push_cast
    omega
  · rw [List.length_append, List.length_singleton]
    push_cast
    omega
  · intro address tail hreplaced
    obtain ⟨hle, stale, hstale, hstaleHolds⟩ := h.holds.stale address tail hreplaced
    refine ⟨hle.trans (by dsimp only; omega), stale, hstale, ?_⟩
    have hshort : (tail - s.memory.head).toNat ≤ ring.length := by omega
    rwa [List.take_append_of_le_length hshort]
  · intro first rest hring
    exact ⟨rest ++ [elt], by rw [hring, List.cons_append]⟩

/-- A step of a push: the element stays in the hand of the owner, or moves to the ring. -/
theorem push (h : Represents s ring) {elt : α} {step : PushStep} {fresh : Address}
    {garbage : ℕ → Option α} {pc : OwnerPc α} {memory : Memory α}
    (hpc : s.owner = .push elt step) (hfresh : s.memory.heap fresh = none)
    (hadvance : step.advance elt fresh garbage s.memory = some (pc, memory)) :
    memory.buffer = s.memory.buffer ∧ pc.held = none ∧
      ((pc.hand = some elt ∧ Represents { s with memory := memory, owner := pc } ring) ∨
        (pc.hand = none ∧
          Represents { s with memory := memory, owner := pc } (ring ++ [elt]))) := by
  have hat := h.owner
  rw [hpc] at hat
  obtain ⟨array, harray, hholds, hsize⟩ := h.holds.array
  have htail := h.holds.tail
  cases step with
  | loadArray =>
    obtain ⟨rfl, rfl⟩ := Prod.mk.inj (Option.some.inj hadvance)
    exact ⟨rfl, rfl, .inl ⟨rfl, h.moveOwner rfl⟩⟩
  | loadHead arr =>
    obtain ⟨rfl, rfl⟩ := Prod.mk.inj (Option.some.inj hadvance)
    refine ⟨rfl, rfl, .inl ⟨rfl, h.moveOwner ⟨hat, le_refl _, fun read hread ↦ ?_⟩⟩⟩
    obtain rfl : array = read := Option.some.inj (harray.symm.trans hread)
    dsimp only
    omega
  | loadTail arr head =>
    obtain ⟨rfl, hwindow⟩ := hat
    simp only [PushStep.advance, harray, Option.bind_eq_bind, Option.bind_some] at hadvance
    split_ifs at hadvance with hfull <;>
      obtain ⟨rfl, rfl⟩ := Prod.mk.inj (Option.some.inj hadvance)
    · exact ⟨rfl, rfl, .inl ⟨rfl, h.moveOwner ⟨rfl, rfl, hwindow⟩⟩⟩
    · have hle := hwindow.1
      exact ⟨rfl, rfl, .inl ⟨rfl, h.moveOwner ⟨rfl, rfl, array, harray, by omega⟩⟩⟩
  | allocate arr head tail =>
    obtain ⟨rfl, rfl, hwindow⟩ := hat
    simp only [PushStep.advance, harray, Option.bind_eq_bind, Option.bind_some,
      Option.bind_eq_some_iff, Option.some.injEq, Prod.mk.injEq] at hadvance
    obtain ⟨newArray, hdouble, rfl, rfl⟩ := hadvance
    have hnew : s.memory.replaced fresh = none := by
      by_contra hne
      obtain ⟨tail, hreplaced⟩ := Option.ne_none_iff_exists'.mp hne
      obtain ⟨-, stale, hstale, -⟩ := h.holds.stale fresh tail hreplaced
      exact ne_of_fresh hfresh hstale rfl
    exact ⟨rfl, rfl, .inl ⟨rfl, h.writeHidden (ne_of_fresh hfresh harray) hnew
      ⟨rfl, rfl, hnew, head, array, newArray, hwindow.1,
        .start hfresh harray hdouble (hwindow.2 array harray)⟩⟩⟩
  | copy arr newArray tail i =>
    obtain ⟨rfl, rfl, hnew, head, read, copied, hle, hcopying⟩ := hat
    obtain rfl : array = read := Option.some.inj (harray.symm.trans hcopying.array_eq)
    simp only [PushStep.advance, harray, hcopying.copied_eq, Option.bind_eq_bind,
      Option.bind_some] at hadvance
    split_ifs at hadvance with hlt <;>
      obtain ⟨rfl, rfl⟩ := Prod.mk.inj (Option.some.inj hadvance)
    · exact ⟨rfl, rfl, .inl ⟨rfl, h.writeHidden hcopying.ne hnew
        ⟨rfl, rfl, hnew, head, array, _, hle, hcopying.next hlt⟩⟩⟩
    · obtain ⟨hcopied, hroom⟩ :=
        hcopying.holds (not_lt.mp hlt) hle (by simpa using htail) hholds
      rw [List.length_map] at hroom
      exact ⟨rfl, rfl, .inl ⟨rfl, h.moveOwner
        ⟨rfl, hcopying.ne, hnew, copied, hcopying.copied_eq, hcopied, hroom⟩⟩⟩
  | publish newArray tail =>
    obtain ⟨rfl, rfl⟩ := Prod.mk.inj (Option.some.inj hadvance)
    exact ⟨rfl, rfl, .inl ⟨rfl, h.publish hpc⟩⟩
  | set arr tail =>
    obtain ⟨rfl, -⟩ := hat
    simp only [PushStep.advance, harray, Option.bind_eq_bind, Option.bind_some, Option.some.injEq,
      Prod.mk.injEq] at hadvance
    obtain ⟨rfl, rfl⟩ := hadvance
    exact ⟨rfl, rfl, .inl ⟨rfl, h.set hpc harray⟩⟩
  | store tail =>
    obtain ⟨rfl, rfl⟩ := Prod.mk.inj (Option.some.inj hadvance)
    exact ⟨rfl, rfl, .inr ⟨rfl, h.store hpc⟩⟩

/-- Every step of the owner keeps all elements in their places, or takes one of them. -/
theorem ownerStep (h : Represents s ring) {fresh : Address} {garbage : ℕ → Option α}
    {pc : OwnerPc α} {memory : Memory α} (hfresh : s.memory.heap fresh = none)
    (hadvance : s.owner.advance fresh garbage s.memory = some (pc, memory)) :
    ∃ ring', Represents { s with memory := memory, owner := pc } ring' ∧ s.owner.held = none ∧
      ((pc.held = none ∧ (State.contents { s with memory := memory, owner := pc } ring').Perm
          (s.contents ring)) ∨
        ∃ elt, pc.held = some elt ∧ (s.contents ring).Perm
          (elt :: State.contents { s with memory := memory, owner := pc } ring')) := by
  have hat := h.owner
  unfold State.contents
  cases hpc : s.owner with
  | idle =>
    rw [hpc] at hadvance
    exact absurd hadvance nofun
  | done result =>
    rw [hpc] at hadvance
    exact absurd hadvance nofun
  | push elt step =>
    rw [hpc] at hadvance
    obtain ⟨hbuffer, hheld, ⟨hhand, hafter⟩ | ⟨hhand, hafter⟩⟩ := h.push hpc hfresh hadvance
    · refine ⟨ring, hafter, rfl, .inl ⟨hheld, ?_⟩⟩
      rw [hbuffer, hhand]
      exact .refl _
    · refine ⟨ring ++ [elt], hafter, rfl, .inl ⟨hheld, ?_⟩⟩
      rw [hbuffer, hhand, Option.toList_none, List.append_nil, List.append_assoc, List.append_assoc]
      exact List.perm_append_comm.append_left ring
  | priorityLoad elt =>
    rw [hpc] at hadvance
    obtain ⟨rfl, rfl⟩ := Prod.mk.inj (Option.some.inj hadvance)
    exact ⟨ring, h.moveOwner rfl, rfl, .inl ⟨rfl, .refl _⟩⟩
  | priorityStore elt oldBuffer =>
    rw [hpc] at hadvance hat
    obtain rfl : oldBuffer = s.memory.buffer := hat
    cases hbuffer : s.memory.buffer with
    | some old =>
      simp only [OwnerPc.advance, hbuffer] at hadvance
      obtain ⟨rfl, rfl⟩ := Prod.mk.inj (Option.some.inj hadvance)
      refine ⟨ring, h.moveOwner trivial, rfl, .inl ⟨rfl, ?_⟩⟩
      rw [List.append_assoc, List.append_assoc]
      exact List.perm_append_comm.append_left ring
    | none =>
      simp only [OwnerPc.advance, hbuffer] at hadvance
      obtain ⟨rfl, rfl⟩ := Prod.mk.inj (Option.some.inj hadvance)
      refine ⟨ring, h.moveOwner trivial, rfl, .inl ⟨rfl, ?_⟩⟩
      rw [List.append_assoc, List.append_assoc]
      exact List.perm_append_comm.append_left ring
  | popTest =>
    rw [hpc] at hadvance
    simp only [OwnerPc.advance] at hadvance
    split_ifs at hadvance <;> obtain ⟨rfl, rfl⟩ := Prod.mk.inj (Option.some.inj hadvance)
    · exact ⟨ring, h.moveOwner trivial, rfl, .inl ⟨rfl, .refl _⟩⟩
    · exact ⟨ring, h.moveOwner ⟨trivial, trivial⟩, rfl, .inl ⟨rfl, .refl _⟩⟩
  | popLoad =>
    rw [hpc] at hadvance
    obtain ⟨rfl, rfl⟩ := Prod.mk.inj (Option.some.inj hadvance)
    exact ⟨ring, h.moveOwner rfl, rfl, .inl ⟨rfl, .refl _⟩⟩
  | popClear buffer =>
    rw [hpc] at hadvance hat
    obtain rfl : buffer = s.memory.buffer := hat
    obtain ⟨rfl, rfl⟩ := Prod.mk.inj (Option.some.inj hadvance)
    refine ⟨ring, h.moveOwner trivial, rfl, ?_⟩
    cases hbuffer : s.memory.buffer with
    | none => exact .inl ⟨rfl, .refl _⟩
    | some elt =>
      refine .inr ⟨elt, rfl, ?_⟩
      simp [OwnerPc.hand]
  | take step =>
    rw [hpc] at hadvance hat
    obtain ⟨hat, hcurrent⟩ := hat
    obtain ⟨⟨next, after⟩, hstep, hnext⟩ := Option.map_eq_some_iff.mp hadvance
    obtain ⟨rfl, rfl⟩ := Prod.mk.inj hnext
    have hlive : ∀ arr elt, step = .cas arr s.memory.head elt →
        s.memory.Live arr s.memory.head := by
      rintro arr elt rfl tail hreplaced
      obtain rfl : arr = s.memory.array := hcurrent
      exact absurd (h.holds.current.symm.trans hreplaced) nofun
    rcases hat.advance h.holds hlive hstep with
      ⟨rfl, ⟨after, rfl, hafter⟩ | rfl⟩ | ⟨first, rest, rfl, rfl, rfl⟩
    · exact ⟨ring, h.moveOwner ⟨hafter, hcurrent.advance hstep⟩, rfl, .inl ⟨rfl, .refl _⟩⟩
    · exact ⟨ring, h.moveOwner trivial, rfl, .inl ⟨rfl, .refl _⟩⟩
    · exact ⟨rest, ⟨h.holds.steal, trivial, fun thief ↦ (h.thieves thief).steal⟩, rfl,
        .inr ⟨first, rfl, .refl _⟩⟩

end Represents

/-! ### Runs -/

section Held

variable [DecidableEq Thief] (s : State α Thief)

theorem held_owner (memory : Memory α) (pc : OwnerPc α) :
    State.held { s with memory := memory, owner := pc } =
      Function.update s.held .owner pc.held :=
  Thread.eq_update_owner rfl fun _ ↦ rfl

theorem held_thief (memory : Memory α) (thief : Thief) (pc : ThiefPc α) :
    State.held { s with memory := memory, thieves := Function.update s.thieves thief pc } =
      Function.update s.held (.thief thief) pc.held :=
  Thread.eq_update_thief rfl (Function.apply_update (fun _ ↦ ThiefPc.held) s.thieves thief pc)

end Held

/-- Where the elements pushed in a run are. -/
structure Delivered (labels : List (Label α Thief)) (s : State α Thief) (ring taken : List α) :
    Prop where
  represents : Represents s ring
  delivery : Delivery (pushed labels) (s.contents ring) taken (returned labels) s.held

theorem pushed_concat (labels : List (Label α Thief)) (label : Label α Thief) :
    pushed (labels ++ [label]) = pushed labels ++ pushed [label] :=
  List.filterMap_append

theorem returned_concat (labels : List (Label α Thief)) (label : Label α Thief) :
    returned (labels ++ [label]) = returned labels ++ returned [label] :=
  List.filterMap_append

theorem returned_ownerFinish (result : Option α) :
    returned [(.ownerFinish result : Label α Thief)] = result.toList := by
  cases result <;> rfl

theorem returned_thiefFinish (thief : Thief) (result : Option α) :
    returned [.thiefFinish thief result] = result.toList := by
  cases result <;> rfl

variable [DecidableEq Thief] {s next : State α Thief} {labels : List (Label α Thief)}
  {label : Label α Thief} {ring taken : List α}

/-- A step neither pushes nor takes an element, nor returns one. -/
theorem Delivered.kept (h : Delivered labels s ring taken) {thread : Thread Thief}
    {held : Option α} {contents : List α} (hheld : s.held thread = held)
    (hperm : contents.Perm (s.contents ring)) :
    Delivery (pushed labels ++ []) contents taken (returned labels ++ [])
      (Function.update s.held thread held) := by
  subst hheld
  rw [List.append_nil, List.append_nil, Function.update_eq_self]
  exact h.delivery.permContents hperm

/-- A thread takes an element from the queue. -/
theorem Delivered.take (h : Delivered labels s ring taken) (hdistinct : (pushed labels).Nodup)
    {thread : Thread Thief} {elt : α} {rest : List α} (hnone : s.held thread = none)
    (hperm : (s.contents ring).Perm (elt :: rest)) :
    Delivery (pushed labels ++ []) rest (elt :: taken) (returned labels ++ [])
      (Function.update s.held thread (some elt)) := by
  rw [List.append_nil, List.append_nil]
  exact h.delivery.take hdistinct hperm hnone

/-- A thread returns what it holds. -/
theorem Delivered.finish (h : Delivered labels s ring taken) {thread : Thread Thief}
    {result : Option α} (hheld : s.held thread = result) :
    Delivery (pushed labels ++ []) (s.contents ring) taken (returned labels ++ result.toList)
      (Function.update s.held thread none) := by
  rw [List.append_nil]
  exact h.delivery.finishResult hheld

/-- The owner begins to push an element, which is in its hand. -/
theorem Delivered.call (h : Delivered labels s ring taken) {pc : OwnerPc α} {elt : α}
    (hidle : s.owner = .idle) (hheld : pc.held = none) (hhand : pc.hand = some elt) :
    Delivery (pushed labels ++ [elt]) (State.contents { s with owner := pc } ring) taken
      (returned labels ++ []) (State.held { s with owner := pc }) := by
  have hcontents : State.contents { s with owner := pc } ring = s.contents ring ++ [elt] := by
    unfold State.contents
    rw [hhand, hidle]
    exact congrArg (· ++ [elt]) (List.append_nil _).symm
  have hsame : Function.update s.held .owner none = s.held := by
    have hnone : s.held .owner = none := by rw [State.held, hidle]; rfl
    rw [← hnone, Function.update_eq_self]
  rw [held_owner s s.memory, hheld, hsame, hcontents, List.append_nil]
  exact h.delivery.publish elt

/-- Every step keeps account of the elements. -/
theorem Delivered.step (h : Delivered labels s ring taken) (hdistinct : (pushed labels).Nodup)
    (hlive : UsesLiveArray s label) (hstep : Step s label next) :
    ∃ ring taken, Delivered (labels ++ [label]) next ring taken := by
  cases hstep with
  | push elt hidle =>
    refine ⟨ring, taken, h.represents.moveOwner trivial, ?_⟩
    rw [pushed_concat, returned_concat]
    exact h.call hidle rfl rfl
  | priorityPush elt hidle =>
    refine ⟨ring, taken, h.represents.moveOwner trivial, ?_⟩
    rw [pushed_concat, returned_concat]
    exact h.call hidle rfl rfl
  | pop hidle =>
    refine ⟨ring, taken, h.represents.moveOwner trivial, ?_⟩
    rw [pushed_concat, returned_concat, held_owner s s.memory]
    refine h.kept (by rw [State.held, hidle]; rfl) ?_
    simp [State.contents, hidle, OwnerPc.hand]
  | @steal thief hidle =>
    refine ⟨ring, taken, h.represents.moveThief trivial, ?_⟩
    rw [pushed_concat, returned_concat, held_thief s s.memory]
    exact h.kept (by rw [State.held, hidle]; rfl) (.refl _)
  | ownerStep hfresh hadvance =>
    obtain ⟨ring', hafter, hnone, ⟨hheld, hperm⟩ | ⟨elt, hheld, hperm⟩⟩ :=
      h.represents.ownerStep hfresh hadvance
    · refine ⟨ring', taken, hafter, ?_⟩
      rw [pushed_concat, returned_concat, held_owner, hheld]
      exact h.kept hnone hperm
    · refine ⟨ring', elt :: taken, hafter, ?_⟩
      rw [pushed_concat, returned_concat, held_owner, hheld]
      exact h.take hdistinct hnone hperm
  | @thiefStep thief pc memory hadvance =>
    obtain ⟨hbuffer, hnone, ⟨hheld, hafter⟩ | ⟨first, rest, rfl, hheld, hafter⟩⟩ :=
      h.represents.thiefStep hlive hadvance
    · refine ⟨ring, taken, hafter, ?_⟩
      rw [pushed_concat, returned_concat, held_thief, hheld]
      refine h.kept hnone ?_
      rw [State.contents, hbuffer]
      exact .refl _
    · refine ⟨rest, first :: taken, hafter, ?_⟩
      rw [pushed_concat, returned_concat, held_thief, hheld]
      refine h.take hdistinct hnone ?_
      rw [State.contents, State.contents, hbuffer]
      exact .refl _
  | @ownerFinish result hdone =>
    refine ⟨ring, taken, h.represents.moveOwner trivial, ?_⟩
    have hheld : s.held .owner = result := by rw [State.held, hdone]; rfl
    have hcontents : State.contents { s with owner := OwnerPc.idle } ring = s.contents ring := by
      unfold State.contents
      rw [hdone]
      rfl
    rw [pushed_concat, returned_concat, held_owner s s.memory, hcontents, returned_ownerFinish]
    exact h.finish hheld
  | @thiefFinish thief result hdone =>
    refine ⟨ring, taken, h.represents.moveThief trivial, ?_⟩
    have hheld : s.held (.thief thief) = result := by rw [State.held, hdone]; rfl
    rw [pushed_concat, returned_concat, held_thief s s.memory, returned_thiefFinish]
    exact h.finish hheld

omit [DecidableEq Thief] in
/-- An idle thread holds nothing. -/
theorem State.Quiescent.held (h : s.Quiescent) (thread : Thread Thief) : s.held thread = none := by
  cases thread with
  | owner => rw [State.held, h.1]; rfl
  | thief thief => rw [State.held, h.2 thief]; rfl

/-- A new queue is empty. -/
theorem Delivered.init {logSize : ℕ} {hlogSize : logSize < 31}
    (h : (system logSize hlogSize).initial s) : Delivered [] s [] [] := by
  obtain ⟨⟨array, garbage, hmemory⟩, howner, hthieves⟩ := h
  have hheld := State.Quiescent.held ⟨howner, hthieves⟩
  have hcontents : s.contents [] = [] := by
    unfold State.contents
    rw [howner, hmemory]
    rfl
  refine ⟨⟨⟨?_, ?_, ?_, ?_⟩, ?_, fun thief ↦ ?_⟩, ?_⟩
  · have hheap : (tkQueueInit logSize hlogSize array garbage).heap array =
        some (circularArrayNew logSize hlogSize garbage) := by
      simp [tkQueueInit]
    rw [hmemory]
    exact ⟨_, hheap, CircularArray.Holds.nil _ _, by exact_mod_cast (size_pos _).le⟩
  · rw [hmemory]
    rfl
  · rw [hmemory]
    rfl
  · rw [hmemory]
    exact nofun
  · rw [howner]
    trivial
  · rw [hthieves]
    trivial
  · rw [hcontents]
    exact .nil hheld

/-- The elements are accounted for, if they are distinct. -/
def Accounted (labels : List (Label α Thief)) (s : State α Thief) : Prop :=
  (pushed labels).Nodup → ∃ ring taken, Delivered labels s ring taken

/-- Every run whose thieves use live arrays keeps account of the elements. -/
theorem accounted_of_run {logSize : ℕ} {hlogSize : logSize < 31}
    (hrun : (system logSize hlogSize).Run UsesLiveArray labels s) : Accounted labels s := by
  refine hrun.history (fun s h _ ↦ ⟨[], [], .init h⟩) ?_
  intro labels s label next ih hlive hstep hdistinct
  rw [pushed_concat] at hdistinct
  obtain ⟨ring, taken, h⟩ := ih hdistinct.of_append_left
  exact h.step hdistinct.of_append_left hlive hstep

/-- **Exactly-once delivery.** Assumes: distinct elements are pushed, and no thief takes an element
from an array that was replaced before its index was pushed. No element is returned twice, and none
that was not pushed. While no call is in progress, the pushed elements are those in the ring, from
`head` to `tail` in the current array, the one in the slot, and the returned ones. -/
theorem tkQueue_delivered_once {logSize : ℕ} {hlogSize : logSize < 31}
    (hrun : (system logSize hlogSize).Run UsesLiveArray labels s)
    (hdistinct : (pushed labels).Nodup) :
    (returned labels).Nodup ∧ (∀ elt ∈ returned labels, elt ∈ pushed labels) ∧
    (s.Quiescent → ∃ (arr : CircularArray (Option α)) (ring : List α),
      s.memory.heap s.memory.array = some arr ∧ arr.Holds s.memory.head (ring.map some) ∧
      s.memory.tail - s.memory.head = ring.length ∧
      (pushed labels).Perm (ring ++ s.memory.buffer.toList ++ returned labels)) := by
  obtain ⟨ring, taken, h⟩ := accounted_of_run hrun hdistinct
  refine ⟨h.delivery.nodup, fun elt hreturned ↦ ?_, fun hquiescent ↦ ?_⟩
  · rw [← h.delivery.perm.mem_iff]
    exact List.mem_append_right _ (h.delivery.taken_of_returned elt hreturned)
  · obtain ⟨arr, harr, hholds, -⟩ := h.represents.holds.array
    have htail := h.represents.holds.tail
    have hperm := h.delivery.perm_returned hdistinct hquiescent.held
    have hcontents : s.contents ring = ring ++ s.memory.buffer.toList := by
      unfold State.contents
      rw [hquiescent.1]
      exact List.append_nil _
    rw [hcontents] at hperm
    exact ⟨arr, ring, harr, hholds, by omega, hperm⟩

/-! ### A thief with an old array -/

/-- A queue of one element and one thief. -/
def smallSystem : TransitionSystem (State ℕ Unit) (Label ℕ Unit) := system 0 zero_lt_maxLogSize

section SmallSystem

variable {allowed : State ℕ Unit → Label ℕ Unit → Prop} {labels : List (Label ℕ Unit)}
  {s : State ℕ Unit} {memory : Memory ℕ}

theorem smallSystem_start : smallSystem.Run allowed []
    ⟨tkQueueInit 0 (by decide) 0 fun _ ↦ none, .idle, fun _ ↦ .idle⟩ :=
  .start ⟨⟨0, fun _ ↦ none, rfl⟩, rfl, fun _ ↦ rfl⟩

theorem smallSystem_ownerStep {pc : OwnerPc ℕ} (fresh : Address)
    (hrun : smallSystem.Run allowed labels s) (hallowed : allowed s .ownerStep)
    (hfresh : s.memory.heap fresh = none)
    (hadvance : s.owner.advance fresh (fun _ ↦ none) s.memory = some (pc, memory)) :
    smallSystem.Run allowed (labels ++ [.ownerStep]) { s with memory := memory, owner := pc } :=
  hrun.step hallowed (.ownerStep hfresh hadvance)

theorem smallSystem_thiefStep {pc : ThiefPc ℕ} (hrun : smallSystem.Run allowed labels s)
    (hallowed : allowed s (.thiefStep ()))
    (hadvance : (s.thieves ()).advance s.memory = some (pc, memory)) :
    smallSystem.Run allowed (labels ++ [.thiefStep ()])
      { s with memory := memory, thieves := Function.update s.thieves () pc } :=
  hrun.step hallowed (.thiefStep hadvance)

end SmallSystem

/-- The owner pushes an element, and a thief steals it. -/
def pushSteal : List (Label ℕ Unit) :=
  [.push 7, .ownerStep, .ownerStep, .ownerStep, .ownerStep, .ownerStep, .ownerFinish none,
    .steal (), .thiefStep (), .thiefStep (), .thiefStep (), .thiefStep (), .thiefStep (),
    .thiefFinish () (some 7)]

theorem run_pushSteal : ∃ s, smallSystem.Run UsesLiveArray pushSteal s := by
  have hstart : smallSystem.Run UsesLiveArray [] _ := smallSystem_start
  have hcall := hstart.step (by trivial) (show Step _ (.push 7) _ from .push 7 rfl)
  have hloadArray := smallSystem_ownerStep 1 hcall trivial rfl rfl
  have hloadHead := smallSystem_ownerStep 1 hloadArray trivial rfl rfl
  have hloadTail := smallSystem_ownerStep 1 hloadHead trivial rfl rfl
  have hset := smallSystem_ownerStep 1 hloadTail trivial rfl rfl
  have hstore := smallSystem_ownerStep 1 hset trivial rfl rfl
  have hfinish := hstore.step (by trivial) (show Step _ (.ownerFinish none) _ from .ownerFinish rfl)
  have hsteal := hfinish.step (by trivial) (show Step _ (.steal ()) _ from .steal rfl)
  have hstealArray := smallSystem_thiefStep hsteal nofun rfl
  have hstealHead := smallSystem_thiefStep hstealArray nofun rfl
  have hstealTail := smallSystem_thiefStep hstealHead nofun rfl
  have hstealGet := smallSystem_thiefStep hstealTail nofun rfl
  have hstealCas := smallSystem_thiefStep hstealGet (fun _ _ _ _ h ↦ nomatch h) rfl
  exact ⟨_, hstealCas.step (by trivial)
    (show Step _ (.thiefFinish () (some 7)) _ from .thiefFinish rfl)⟩

theorem tkQueue_delivered_once_pushSteal : (returned pushSteal).Nodup ∧ 7 ∈ returned pushSteal := by
  obtain ⟨s, hrun⟩ := run_pushSteal
  exact ⟨(tkQueue_delivered_once hrun (by decide)).1, by decide⟩

/-- A thief loads the address of the array. The owner pushes a second element, for which it replaces
the array, and pops the first. The thief takes the second, but reads the first in the old array. -/
def staleSteal : List (Label ℕ Unit) :=
  [.push 7, .ownerStep, .ownerStep, .ownerStep, .ownerStep, .ownerStep, .ownerFinish none,
    .steal (), .thiefStep (),
    .push 8, .ownerStep, .ownerStep, .ownerStep, .ownerStep, .ownerStep, .ownerStep, .ownerStep,
    .ownerStep, .ownerStep, .ownerFinish none,
    .pop, .ownerStep, .ownerStep, .ownerStep, .ownerStep, .ownerStep, .ownerStep,
    .ownerFinish (some 7),
    .thiefStep (), .thiefStep (), .thiefStep (), .thiefStep (), .thiefFinish () (some 7)]

theorem run_staleSteal : ∃ s, smallSystem.Run (fun _ _ ↦ True) staleSteal s := by
  have hstart : smallSystem.Run (fun _ _ ↦ True) [] _ := smallSystem_start
  have hfirst := hstart.step trivial (show Step _ (.push 7) _ from .push 7 rfl)
  have hloadArray := smallSystem_ownerStep 1 hfirst trivial rfl rfl
  have hloadHead := smallSystem_ownerStep 1 hloadArray trivial rfl rfl
  have hloadTail := smallSystem_ownerStep 1 hloadHead trivial rfl rfl
  have hset := smallSystem_ownerStep 1 hloadTail trivial rfl rfl
  have hstore := smallSystem_ownerStep 1 hset trivial rfl rfl
  have hpushed := hstore.step trivial (show Step _ (.ownerFinish none) _ from .ownerFinish rfl)
  have hsteal := hpushed.step trivial (show Step _ (.steal ()) _ from .steal rfl)
  have hstealArray := smallSystem_thiefStep hsteal trivial rfl
  have hsecond := hstealArray.step trivial (show Step _ (.push 8) _ from .push 8 rfl)
  have hloadArray := smallSystem_ownerStep 1 hsecond trivial rfl rfl
  have hloadHead := smallSystem_ownerStep 1 hloadArray trivial rfl rfl
  have hloadTail := smallSystem_ownerStep 1 hloadHead trivial rfl rfl
  have hallocate := smallSystem_ownerStep 1 hloadTail trivial rfl rfl
  have hcopy := smallSystem_ownerStep 2 hallocate trivial rfl rfl
  have hcopied := smallSystem_ownerStep 2 hcopy trivial rfl rfl
  have hpublish := smallSystem_ownerStep 2 hcopied trivial rfl rfl
  have hset := smallSystem_ownerStep 2 hpublish trivial rfl rfl
  have hstore := smallSystem_ownerStep 2 hset trivial rfl rfl
  have hpushed := hstore.step trivial (show Step _ (.ownerFinish none) _ from .ownerFinish rfl)
  have hpop := hpushed.step trivial (show Step _ .pop _ from .pop rfl)
  have hpopTest := smallSystem_ownerStep 2 hpop trivial rfl rfl
  have hpopArray := smallSystem_ownerStep 2 hpopTest trivial rfl rfl
  have hpopHead := smallSystem_ownerStep 2 hpopArray trivial rfl rfl
  have hpopTail := smallSystem_ownerStep 2 hpopHead trivial rfl rfl
  have hpopGet := smallSystem_ownerStep 2 hpopTail trivial rfl rfl
  have hpopCas := smallSystem_ownerStep 2 hpopGet trivial rfl rfl
  have hpopped := hpopCas.step trivial
    (show Step _ (.ownerFinish (some 7)) _ from .ownerFinish rfl)
  have hstealHead := smallSystem_thiefStep hpopped trivial rfl
  have hstealTail := smallSystem_thiefStep hstealHead trivial rfl
  have hstealGet := smallSystem_thiefStep hstealTail trivial rfl
  have hstealCas := smallSystem_thiefStep hstealGet trivial rfl
  exact ⟨_, hstealCas.step trivial
    (show Step _ (.thiefFinish () (some 7)) _ from .thiefFinish rfl)⟩

/-- The first element is returned twice. -/
theorem not_tkQueue_delivered_once : ¬ ∀ (labels : List (Label ℕ Unit)) (s : State ℕ Unit),
    smallSystem.Run (fun _ _ ↦ True) labels s → (pushed labels).Nodup →
      (returned labels).Nodup := by
  intro h
  obtain ⟨s, hrun⟩ := run_staleSteal
  have hreturned : returned staleSteal = [7, 7] := rfl
  have hnodup := h staleSteal s hrun (by decide)
  rw [hreturned] at hnodup
  exact absurd hnodup (by decide)

end Libseff.Queues.TkQueue
