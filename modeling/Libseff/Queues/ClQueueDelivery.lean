import Libseff.Foundation.Delivery
import Libseff.Queues.ClQueue

/-!
# Exactly-once delivery of the Chase-Lev deque

The contents of the deque are the elements from `top` to a logical bottom, which differs from
`bottom` while the owner has lowered it to pop (`OwnerPc.logicalBottom`). The owner takes the last
element when it reads a smaller `top`, and the only one with its compare-exchange. A thief that has
read `top` knows nothing of it but a lower bound; as long as `top` has not moved, though, the first
element is still there, in the array that the thief loaded (`ThiefPc.At`). Its compare-exchange
succeeds only then.
-/

set_option autoImplicit false
set_option relaxedAutoImplicit false

namespace Libseff.Queues.ClQueue

open Foundation CircularArray

variable {α Thief : Type*}

/-! ### The invariant -/

/-- The end of the contents. -/
def OwnerPc.logicalBottom (current : ℤ) : OwnerPc α → ℤ
  | .popTop bottom _ => bottom + 1
  | .popGet bottom _ top => if top < bottom then bottom else bottom + 1
  | .popCas bottom _ _ => bottom + 1
  | .popRestore bottom _ => bottom + 1
  | _ => current

/-- The element that the owner is pushing. -/
def OwnerPc.pending : OwnerPc α → Option α
  | .pushBottom elt => some elt
  | .pushTop elt _ => some elt
  | .pushArray elt _ _ => some elt
  | .pushAllocate elt _ _ _ => some elt
  | .pushCopy elt _ _ _ _ => some elt
  | .pushPublish elt _ _ => some elt
  | .pushSet elt _ _ => some elt
  | .pushStore elt _ => some elt
  | _ => none

/-- The array that the owner has not published yet. -/
def OwnerPc.hidden : OwnerPc α → Option Address
  | .pushCopy _ _ _ newArray _ => some newArray
  | .pushPublish _ _ newArray => some newArray
  | _ => none

/-- The element that the owner has taken and is about to return. -/
def OwnerPc.held (heap : Address → Option (CircularArray (QueueElt α))) : OwnerPc α → Option α
  | .popGet bottom arr top =>
    if top < bottom then (heap arr).bind fun arr ↦ (arr.caGet bottom).task? else none
  | .popRestore _ elt => elt.task?
  | .done (some result) => result.task?
  | _ => none

/-- The array at an address has room for another element. -/
def Memory.HasRoom (m : Memory α) (address : Address) (contents : List α) : Prop :=
  ∃ arr, m.heap address = some arr ∧ contents.length < arr.size

/-- The window that the owner found in the array of the deque, and that it copies. -/
def Memory.Window (m : Memory α) (bottom top : ℤ) : Prop :=
  bottom = m.bottom ∧ top ≤ m.top ∧ ∀ arr, m.heap m.array = some arr → bottom - top ≤ arr.size

/-- What the owner knows. -/
def OwnerPc.At (m : Memory α) (contents : List α) : OwnerPc α → Prop
  | .popArray bottom => bottom = m.bottom - 1
  | .popStore bottom arr => bottom = m.bottom - 1 ∧ arr = m.array
  | .popTop bottom arr => bottom = m.bottom ∧ arr = m.array
  | .popGet bottom arr top => bottom = m.bottom ∧ arr = m.array ∧ top ≤ bottom ∧ top ≤ m.top ∧
      (top < bottom → ∃ array elt, m.heap arr = some array ∧ array.caGet bottom = .task elt)
  | .popCas bottom top elt => bottom = m.bottom ∧ top = bottom ∧ top ≤ m.top ∧
      (m.top = top → ∃ only, contents = [only] ∧ elt = .task only)
  | .popRestore bottom _ => bottom = m.bottom
  | .pushTop _ bottom => bottom = m.bottom
  | .pushArray _ bottom top => m.Window bottom top
  | .pushAllocate _ bottom top arr => arr = m.array ∧ m.Window bottom top
  | .pushCopy _ bottom arr newArray i => arr = m.array ∧ bottom = m.bottom ∧
      ∃ top array copied, top ≤ m.top ∧ Copying m.heap arr newArray bottom top i array copied
  | .pushPublish _ bottom newArray => bottom = m.bottom ∧ newArray ≠ m.array ∧
      ∃ copied, m.heap newArray = some copied ∧ copied.Holds m.top (contents.map .task) ∧
        contents.length < copied.size
  | .pushSet _ bottom arr => bottom = m.bottom ∧ arr = m.array ∧ m.HasRoom arr contents
  | .pushStore elt bottom => bottom = m.bottom ∧ m.HasRoom m.array contents ∧
      ∀ arr, m.heap m.array = some arr → arr.caGet bottom = .task elt
  | _ => True

/-- What a thief knows, where some array is still hidden from it. -/
def ThiefPc.At (hidden : Option Address) (m : Memory α) (contents : List α) : ThiefPc α → Prop
  | .stealBottom top => top ≤ m.top
  | .stealArray top => top ≤ m.top ∧ (top = m.top → contents ≠ [])
  | .stealGet top arr => top ≤ m.top ∧ (m.heap arr).isSome ∧ hidden ≠ some arr ∧
      (top = m.top → ∃ first rest array, contents = first :: rest ∧ m.heap arr = some array ∧
        array.caGet top = .task first)
  | .stealCas top elt => top ≤ m.top ∧
      (top = m.top → ∃ first rest, contents = first :: rest ∧ elt = .task first)
  | _ => True

/-- The element that a thief is about to return. -/
def ThiefPc.held : ThiefPc α → Option α
  | .done result => result.task?
  | _ => none

/-- The elements in the hands of the threads. -/
def State.held (s : State α Thief) : Thread Thief → Option α
  | .owner => s.owner.held s.memory.heap
  | .thief thief => (s.thieves thief).held

/-- The deque has the given contents. -/
structure Represents (s : State α Thief) (contents : List α) : Prop where
  ring : ∃ arr, s.memory.heap s.memory.array = some arr ∧
    arr.Holds s.memory.top (contents.map .task) ∧ contents.length ≤ arr.size
  bottom : s.owner.logicalBottom s.memory.bottom = s.memory.top + contents.length
  owner : s.owner.At s.memory contents
  thieves : ∀ thief, (s.thieves thief).At s.owner.hidden s.memory contents

/-! ### Thieves -/

/-- A thief is not disturbed by steps that only raise `top`, keep the first element as long as they
do not, and do not write what was its slot. -/
theorem ThiefPc.At.mono {pc : ThiefPc α} {hidden hidden' : Option Address} {m m' : Memory α}
    {contents contents' : List α} (h : pc.At hidden m contents) (htop : m.top ≤ m'.top)
    (hhead : m'.top = m.top → ∀ first rest, contents = first :: rest →
      ∃ rest', contents' = first :: rest')
    (hheap : ∀ address arr, hidden ≠ some address → m.heap address = some arr →
      ∃ arr', m'.heap address = some arr' ∧ hidden' ≠ some address ∧
        (contents ≠ [] → arr'.caGet m.top = arr.caGet m.top)) :
    pc.At hidden' m' contents' := by
  cases pc with
  | stealBottom top => exact le_trans h htop
  | stealArray top =>
    refine ⟨h.1.trans htop, fun heq hnil ↦ ?_⟩
    have hsame : m'.top = m.top := le_antisymm (heq ▸ h.1) htop
    obtain ⟨first, rest, hcontents⟩ :=
      List.exists_cons_of_ne_nil (h.2 (heq.trans hsame))
    obtain ⟨rest', hrest⟩ := hhead hsame first rest hcontents
    rw [hrest] at hnil
    exact absurd hnil nofun
  | stealGet top arr =>
    obtain ⟨hle, hsome, hne, hfirst⟩ := h
    obtain ⟨array, harray⟩ := Option.isSome_iff_exists.mp hsome
    obtain ⟨array', harray', hne', hget⟩ := hheap arr array hne harray
    refine ⟨hle.trans htop, by rw [harray']; rfl, hne', fun heq ↦ ?_⟩
    have hsame : m'.top = m.top := le_antisymm (heq ▸ hle) htop
    obtain ⟨first, rest, read, hcontents, hread, helt⟩ := hfirst (heq.trans hsame)
    obtain rfl : array = read := Option.some.inj (harray.symm.trans hread)
    obtain ⟨rest', hrest⟩ := hhead hsame first rest hcontents
    refine ⟨first, rest', array', hrest, harray', ?_⟩
    rw [heq, hsame, hget (by rw [hcontents]; nofun), ← helt, heq, hsame]
  | stealCas top elt =>
    refine ⟨h.1.trans htop, fun heq ↦ ?_⟩
    have hsame : m'.top = m.top := le_antisymm (heq ▸ h.1) htop
    obtain ⟨first, rest, hcontents, helt⟩ := h.2 (heq.trans hsame)
    obtain ⟨rest', hrest⟩ := hhead hsame first rest hcontents
    exact ⟨first, rest', hrest, helt⟩
  | _ => trivial

/-- The owner is not disturbed by a steal. -/
theorem OwnerPc.At.steal {pc : OwnerPc α} {m : Memory α} {first : α} {rest : List α}
    (h : pc.At m (first :: rest)) : pc.At { m with top := m.top + 1 } rest := by
  have hroom : ∀ {address : Address}, m.HasRoom address (first :: rest) →
      Memory.HasRoom { m with top := m.top + 1 } address rest := by
    rintro address ⟨arr, harr, hlt⟩
    rw [List.length_cons] at hlt
    exact ⟨arr, harr, by push_cast at hlt; omega⟩
  have hwindow : ∀ {bottom top : ℤ}, m.Window bottom top →
      Memory.Window { m with top := m.top + 1 } bottom top := by
    rintro bottom top ⟨hbottom, htop, hsize⟩
    exact ⟨hbottom, by dsimp only; omega, hsize⟩
  cases pc with
  | popGet bottom arr top =>
    obtain ⟨hbottom, harr, hle, htop, hget⟩ := h
    exact ⟨hbottom, harr, hle, by dsimp only; omega, hget⟩
  | popCas bottom top elt =>
    obtain ⟨hbottom, heq, htop, -⟩ := h
    exact ⟨hbottom, heq, by dsimp only; omega, fun hmoved ↦ by dsimp only at hmoved; omega⟩
  | pushArray elt bottom top => exact hwindow h
  | pushAllocate elt bottom top arr => exact ⟨h.1, hwindow h.2⟩
  | pushCopy elt bottom arr newArray i =>
    obtain ⟨harr, hbottom, top, array, copied, htop, hcopying⟩ := h
    exact ⟨harr, hbottom, top, array, copied, by dsimp only; omega, hcopying⟩
  | pushPublish elt bottom newArray =>
    obtain ⟨hbottom, hne, copied, hcopied, hholds, hlt⟩ := h
    rw [List.length_cons] at hlt
    exact ⟨hbottom, hne, copied, hcopied, hholds.tail, by push_cast at hlt; omega⟩
  | pushSet elt bottom arr => exact ⟨h.1, h.2.1, hroom h.2.2⟩
  | pushStore elt bottom => exact ⟨h.1, hroom h.2.1, h.2.2⟩
  | _ => exact h

namespace Represents

variable {s : State α Thief} {contents : List α}

/-- The owner lowers `bottom` by at most one below the end of the contents. -/
theorem bottom_le (h : Represents s contents) :
    s.memory.bottom ≤ s.memory.top + contents.length := by
  rw [← h.bottom]
  have hat := h.owner
  cases hpc : s.owner with
  | popTop bottom arr =>
    rw [hpc] at hat
    rw [OwnerPc.logicalBottom, hat.1]
    omega
  | popGet bottom arr top =>
    rw [hpc] at hat
    rw [OwnerPc.logicalBottom, hat.1]
    split_ifs <;> omega
  | popCas bottom top elt =>
    rw [hpc] at hat
    rw [OwnerPc.logicalBottom, hat.1]
    omega
  | popRestore bottom elt =>
    rw [hpc] at hat
    rw [OwnerPc.logicalBottom, hat]
    omega
  | _ => exact le_refl _

/-- The array of the deque is not hidden. -/
theorem hidden_ne (h : Represents s contents) : s.owner.hidden ≠ some s.memory.array := by
  have hat := h.owner
  cases hpc : s.owner with
  | pushCopy elt bottom arr newArray i =>
    rw [hpc] at hat
    obtain ⟨rfl, -, top, array, copied, -, hcopying⟩ := hat
    exact fun heq ↦ hcopying.ne (Option.some.inj heq)
  | pushPublish elt bottom newArray =>
    rw [hpc] at hat
    exact fun heq ↦ hat.2.1 (Option.some.inj heq)
  | _ => exact nofun

section Thieves

variable [DecidableEq Thief]

/-- A thief goes on without a change of the memory. -/
theorem moveThief (h : Represents s contents) {thief : Thief} {pc : ThiefPc α}
    (hat : pc.At s.owner.hidden s.memory contents) :
    Represents { s with thieves := Function.update s.thieves thief pc } contents where
  ring := h.ring
  bottom := h.bottom
  owner := h.owner
  thieves := fun other ↦ by
    by_cases heq : other = thief
    · subst heq
      simpa using hat
    · simpa [Function.update_of_ne heq] using h.thieves other

/-- A compare-exchange of a thief succeeds. -/
theorem stealFirst (h : Represents s contents) {thief : Thief} {elt : QueueElt α}
    (hpc : s.thieves thief = .stealCas s.memory.top elt) :
    ∃ first rest, contents = first :: rest ∧ elt = .task first ∧
      Represents
        { s with
          memory := { s.memory with top := s.memory.top + 1 }
          thieves := Function.update s.thieves thief (.done elt) } rest := by
  have hat := h.thieves thief
  rw [hpc] at hat
  obtain ⟨first, rest, rfl, rfl⟩ := hat.2 rfl
  obtain ⟨arr, harr, hholds, hsize⟩ := h.ring
  have hbottom := h.bottom
  rw [List.length_cons] at hsize hbottom
  push_cast at hsize hbottom
  refine ⟨first, rest, rfl, rfl,
    { ring := ⟨arr, harr, hholds.tail, by omega⟩
      bottom := hbottom.trans (by ring)
      owner := h.owner.steal
      thieves := fun other ↦ ?_ }⟩
  by_cases heq : other = thief
  · subst heq
    simp [ThiefPc.At]
  · have hother : (s.thieves other).At s.owner.hidden
        { s.memory with top := s.memory.top + 1 } rest := by
      refine (h.thieves other).mono (by dsimp only; omega) (fun hsame ↦ ?_)
        fun address arr hne harr ↦ ⟨arr, harr, hne, fun _ ↦ rfl⟩
      dsimp only at hsame
      omega
    simpa [Function.update_of_ne heq] using hother

/-- A step of a thief goes unseen, or takes the first element. -/
theorem thiefStep (h : Represents s contents) {thief : Thief} {pc : ThiefPc α} {memory : Memory α}
    (hadvance : (s.thieves thief).advance s.memory = some (pc, memory)) :
    memory.heap = s.memory.heap ∧ (s.thieves thief).held = none ∧
      ((memory.top = s.memory.top ∧ pc.held = none ∧
        (s.thieves thief).steals s.memory = none ∧
        Represents
          { s with memory := memory, thieves := Function.update s.thieves thief pc } contents) ∨
      ∃ first rest, memory.top = s.memory.top + 1 ∧ contents = first :: rest ∧
        pc.held = some first ∧
        (s.thieves thief).steals s.memory = some (s.memory.top, .task first) ∧
        Represents
          { s with memory := memory, thieves := Function.update s.thieves thief pc } rest) := by
  have hat := h.thieves thief
  cases hpc : s.thieves thief with
  | idle =>
    rw [hpc] at hadvance
    exact absurd hadvance nofun
  | stealTop =>
    rw [hpc] at hadvance
    obtain ⟨rfl, rfl⟩ := Prod.mk.inj (Option.some.inj hadvance)
    exact ⟨rfl, rfl, .inl ⟨rfl, rfl, rfl, h.moveThief (le_refl _)⟩⟩
  | stealBottom top =>
    rw [hpc] at hadvance hat
    simp only [ThiefPc.advance] at hadvance
    split_ifs at hadvance with hlt <;>
      obtain ⟨rfl, rfl⟩ := Prod.mk.inj (Option.some.inj hadvance)
    · refine ⟨rfl, rfl, .inl ⟨rfl, rfl, rfl, h.moveThief ⟨hat, fun heq hnil ↦ ?_⟩⟩⟩
      have hle := h.bottom_le
      rw [hnil, List.length_nil] at hle
      omega
    · exact ⟨rfl, rfl, .inl ⟨rfl, rfl, rfl, h.moveThief trivial⟩⟩
  | stealArray top =>
    rw [hpc] at hadvance hat
    obtain ⟨rfl, rfl⟩ := Prod.mk.inj (Option.some.inj hadvance)
    obtain ⟨arr, harr, hholds, -⟩ := h.ring
    refine ⟨rfl, rfl, .inl ⟨rfl, rfl, rfl, h.moveThief ⟨hat.1, by rw [harr]; rfl, h.hidden_ne, ?_⟩⟩⟩
    intro heq
    obtain ⟨first, rest, rfl⟩ := List.exists_cons_of_ne_nil (hat.2 heq)
    exact ⟨first, rest, arr, rfl, harr, heq ▸ hholds.caGet_head⟩
  | stealGet top arr =>
    rw [hpc] at hadvance hat
    obtain ⟨hle, hsome, -, hfirst⟩ := hat
    obtain ⟨array, harray⟩ := Option.isSome_iff_exists.mp hsome
    simp only [ThiefPc.advance, harray, Option.bind_eq_bind, Option.bind_some, Option.some.injEq,
      Prod.mk.injEq] at hadvance
    obtain ⟨rfl, rfl⟩ := hadvance
    refine ⟨rfl, rfl, .inl ⟨rfl, rfl, rfl, h.moveThief ⟨hle, fun heq ↦ ?_⟩⟩⟩
    obtain ⟨first, rest, read, hcontents, hread, helt⟩ := hfirst heq
    obtain rfl : array = read := Option.some.inj (harray.symm.trans hread)
    exact ⟨first, rest, hcontents, helt⟩
  | stealCas top elt =>
    rw [hpc] at hadvance
    simp only [ThiefPc.advance] at hadvance
    split_ifs at hadvance with htop <;>
      obtain ⟨rfl, rfl⟩ := Prod.mk.inj (Option.some.inj hadvance)
    · subst htop
      obtain ⟨first, rest, hcontents, rfl, hrest⟩ := h.stealFirst hpc
      exact ⟨rfl, rfl, .inr ⟨first, rest, rfl, hcontents, rfl, if_pos rfl, hrest⟩⟩
    · exact ⟨rfl, rfl, .inl ⟨rfl, rfl, if_neg htop, h.moveThief trivial⟩⟩
  | done result =>
    rw [hpc] at hadvance
    exact absurd hadvance nofun

end Thieves

/-! ### The owner -/

/-- A step of the owner that leaves `top`, the first element, and what is in the published arrays
at `top`. -/
theorem ofOwner (h : Represents s contents) {pc : OwnerPc α} {memory : Memory α}
    {contents' : List α} (htop : memory.top = s.memory.top)
    (hring : ∃ arr, memory.heap memory.array = some arr ∧
      arr.Holds memory.top (contents'.map .task) ∧ contents'.length ≤ arr.size)
    (hbottom : pc.logicalBottom memory.bottom = memory.top + contents'.length)
    (hat : pc.At memory contents')
    (hhead : ∀ first rest, contents = first :: rest → ∃ rest', contents' = first :: rest')
    (hheap : ∀ address arr, s.owner.hidden ≠ some address → s.memory.heap address = some arr →
      ∃ arr', memory.heap address = some arr' ∧ pc.hidden ≠ some address ∧
        (contents ≠ [] → arr'.caGet s.memory.top = arr.caGet s.memory.top)) :
    Represents { s with memory := memory, owner := pc } contents' where
  ring := hring
  bottom := hbottom
  owner := hat
  thieves := fun thief ↦ (h.thieves thief).mono htop.ge (fun _ ↦ hhead) hheap

/-- The owner writes `bottom`, which no thief relies on. -/
theorem storeBottom (h : Represents s contents) {pc : OwnerPc α} {bottom : ℤ}
    (hbottom : pc.logicalBottom bottom = s.memory.top + contents.length)
    (hat : pc.At { s.memory with bottom := bottom } contents) (hhidden : pc.hidden = none) :
    Represents { s with memory := { s.memory with bottom := bottom }, owner := pc } contents :=
  h.ofOwner rfl h.ring hbottom hat (fun _ rest hcontents ↦ ⟨rest, hcontents⟩)
    fun _ arr _ harr ↦ ⟨arr, harr, by rw [hhidden]; nofun, fun _ ↦ rfl⟩

/-- The owner goes on without a change of the memory. -/
theorem moveOwner (h : Represents s contents) {pc : OwnerPc α}
    (hbottom : pc.logicalBottom s.memory.bottom = s.memory.top + contents.length)
    (hat : pc.At s.memory contents) (hhidden : pc.hidden = none) :
    Represents { s with owner := pc } contents :=
  h.storeBottom hbottom hat hhidden

/-- What a step of the owner does to the contents: nothing, or it publishes the element it pushes,
or takes the last element. -/
inductive Moves (s : State α Thief) (pc : OwnerPc α) (memory : Memory α) :
    List α → List α → Prop
  | silent {contents : List α} (hheld : pc.held memory.heap = s.owner.held s.memory.heap)
      (hpending : pc.pending = s.owner.pending) : Moves s pc memory contents contents
  | publish {contents : List α} (elt : α) (hpending : s.owner.pending = some elt)
      (hafter : pc.pending = none) (hheld : pc.held memory.heap = s.owner.held s.memory.heap) :
      Moves s pc memory contents (contents ++ [elt])
  | take {rest : List α} (elt : α) (hbefore : s.owner.held s.memory.heap = none)
      (hheld : pc.held memory.heap = some elt) (hpending : pc.pending = s.owner.pending) :
      Moves s pc memory (rest ++ [elt]) rest

theorem Moves.ofPc {before pc : OwnerPc α} {memory : Memory α} (hpc : s.owner = before)
    (hheld : pc.held memory.heap = before.held s.memory.heap)
    (hpending : pc.pending = before.pending) : Moves s pc memory contents contents := by
  subst hpc
  exact .silent hheld hpending

/-- The owner reads `top` to pop. -/
theorem popTop (h : Represents s contents) {bottom : ℤ} {arr : Address}
    (hpc : s.owner = .popTop bottom arr) (hle : s.memory.top ≤ bottom) :
    ∃ contents', Represents { s with owner := .popGet bottom arr s.memory.top } contents' ∧
      Moves s (.popGet bottom arr s.memory.top) s.memory contents contents' := by
  have hat := h.owner
  have hbottom := h.bottom
  rw [hpc] at hat hbottom
  obtain ⟨rfl, rfl⟩ := hat
  rw [OwnerPc.logicalBottom] at hbottom
  have hheld : s.owner.held s.memory.heap = none := by rw [hpc]; rfl
  by_cases hlt : s.memory.top < s.memory.bottom
  · obtain ⟨array, harray, hholds, hsize⟩ := h.ring
    obtain hnil | ⟨rest, last, rfl⟩ := List.eq_nil_or_concat' contents
    · rw [hnil, List.length_nil] at hbottom
      omega
    rw [List.length_append, List.length_singleton] at hbottom hsize
    push_cast at hbottom hsize
    have hlast : array.caGet s.memory.bottom = .task last := by
      have hindex : s.memory.bottom = s.memory.top + (rest.length : ℕ) := by omega
      rw [hindex]
      exact hholds rest.length _ (by simp)
    refine ⟨rest, h.ofOwner rfl ⟨array, harray, ?_, by omega⟩ ?_ ?_ ?_ ?_, .take last hheld ?_ ?_⟩
    · intro i elt helt
      refine hholds i elt ?_
      have hi := (List.getElem?_eq_some_iff.mp helt).1
      rw [List.map_append, List.getElem?_append_left hi, helt]
    · rw [OwnerPc.logicalBottom, if_pos hlt]
      omega
    · exact ⟨rfl, rfl, hle, le_refl _, fun _ ↦ ⟨array, last, harray, hlast⟩⟩
    · intro first tail hcontents
      cases rest with
      | nil =>
        rw [List.length_nil, Nat.cast_zero] at hbottom
        omega
      | cons head rest =>
        rw [List.cons_append, List.cons.injEq] at hcontents
        exact ⟨rest, by rw [hcontents.1]⟩
    · exact fun address arr _ harr ↦ ⟨arr, harr, nofun, fun _ ↦ rfl⟩
    · rw [OwnerPc.held, if_pos hlt, harray, Option.bind_some, hlast]
      rfl
    · rw [hpc]
      rfl
  · refine ⟨contents, h.moveOwner ?_ ⟨rfl, rfl, hle, le_refl _, fun hlt' ↦ absurd hlt' hlt⟩ rfl,
      .silent ?_ (by rw [hpc]; rfl)⟩
    · rw [OwnerPc.logicalBottom, if_neg hlt, hbottom]
    · rw [hheld, OwnerPc.held, if_neg hlt]

/-- The compare-exchange of the owner takes the only element. -/
theorem popCas (h : Represents s contents) {bottom : ℤ} {elt : QueueElt α}
    (hpc : s.owner = .popCas bottom s.memory.top elt) :
    ∃ only, contents = [] ++ [only] ∧ elt = .task only ∧
      Represents
        { s with
          memory := { s.memory with top := s.memory.top + 1 }
          owner := .popRestore bottom elt } [] := by
  have hat := h.owner
  have hbottom := h.bottom
  rw [hpc] at hat hbottom
  obtain ⟨rfl, htop, -, honly⟩ := hat
  obtain ⟨only, rfl, rfl⟩ := honly rfl
  obtain ⟨array, harray, -, hsize⟩ := h.ring
  refine ⟨only, rfl, rfl,
    { ring := ⟨array, harray, Holds.nil array _, by simpa using array.size_pos.le⟩
      bottom := by rw [OwnerPc.logicalBottom, htop]; simp
      owner := rfl
      thieves := fun thief ↦ (h.thieves thief).mono (by dsimp only; omega) (fun hsame ↦ ?_)
        fun address arr _ harr ↦ ⟨arr, harr, nofun, fun _ ↦ rfl⟩ }⟩
  dsimp only at hsame
  omega

/-- The owner allocates a larger array. -/
theorem pushAllocate (h : Represents s contents) {elt : α} {bottom top : ℤ} {arr fresh : Address}
    {array newArray : CircularArray (QueueElt α)} {garbage : ℕ → QueueElt α}
    (hpc : s.owner = .pushAllocate elt bottom top arr) (hfresh : s.memory.heap fresh = none)
    (harray : s.memory.heap arr = some array) (hdouble : array.double garbage = some newArray) :
    Represents
      { s with
        memory := { s.memory with heap := Function.update s.memory.heap fresh (some newArray) }
        owner := .pushCopy elt bottom arr fresh top } contents := by
  have hat := h.owner
  have hbottom := h.bottom
  rw [hpc] at hat hbottom
  obtain ⟨rfl, hwindow⟩ := hat
  have hkept : ∀ {address : Address} {read : CircularArray (QueueElt α)},
      s.memory.heap address = some read →
        Function.update s.memory.heap fresh (some newArray) address = some read :=
    fun hread ↦ (Function.update_of_ne (ne_of_fresh hfresh hread).symm ..).trans hread
  obtain ⟨current, hcurrent, hholds, hsize⟩ := h.ring
  refine h.ofOwner rfl ⟨current, hkept hcurrent, hholds, hsize⟩ hbottom
    ⟨rfl, hwindow.1, top, array, newArray, hwindow.2.1,
      .start hfresh harray hdouble (hwindow.2.2 array harray)⟩
    (fun _ rest hcontents ↦ ⟨rest, hcontents⟩) fun address read _ hread ↦ ?_
  exact ⟨read, hkept hread, fun heq ↦ ne_of_fresh hfresh hread (Option.some.inj heq),
    fun _ ↦ rfl⟩

/-- The owner copies one element. -/
theorem pushCopy (h : Represents s contents) {elt : α} {bottom top i : ℤ}
    {arr newArray : Address} {array copied : CircularArray (QueueElt α)}
    (hpc : s.owner = .pushCopy elt bottom arr newArray i) (hlt : i < bottom)
    (htop : top ≤ s.memory.top)
    (hcopying : Copying s.memory.heap arr newArray bottom top i array copied) :
    Represents
      { s with
        memory :=
          { s.memory with
            heap := Function.update s.memory.heap newArray
              (some (copied.caSet i (array.caGet i))) }
        owner := .pushCopy elt bottom arr newArray (i + 1) } contents := by
  have hat := h.owner
  have hbottom := h.bottom
  rw [hpc] at hat hbottom
  obtain ⟨rfl, rfl, -⟩ := hat
  obtain ⟨current, hcurrent, hholds, hlength⟩ := h.ring
  refine h.ofOwner rfl
    ⟨current, (Function.update_of_ne hcopying.ne.symm ..).trans hcurrent, hholds, hlength⟩ hbottom
    ⟨rfl, rfl, top, array, _, htop, hcopying.next hlt⟩
    (fun _ rest hcontents ↦ ⟨rest, hcontents⟩) fun address read hhidden hread ↦ ?_
  rw [hpc] at hhidden
  have hne : address ≠ newArray := fun heq ↦ hhidden (by rw [heq]; rfl)
  exact ⟨read, (Function.update_of_ne hne ..).trans hread, hhidden, fun _ ↦ rfl⟩

/-- The copy is complete. -/
theorem pushCopied (h : Represents s contents) {elt : α} {bottom i : ℤ} {arr newArray : Address}
    (hpc : s.owner = .pushCopy elt bottom arr newArray i) (hle : bottom ≤ i) :
    Represents { s with owner := .pushPublish elt bottom newArray } contents := by
  have hat := h.owner
  have hbottom := h.bottom
  have hhidden : s.owner.hidden = some newArray := by rw [hpc]; rfl
  rw [hpc] at hat hbottom
  obtain ⟨rfl, rfl, top, array, copied, htop, hcopying⟩ := hat
  obtain ⟨current, hcurrent, hholds, hlength⟩ := h.ring
  obtain rfl : array = current := Option.some.inj (hcopying.array_eq.symm.trans hcurrent)
  change s.memory.bottom = _ at hbottom
  obtain ⟨hcopied, hroom⟩ := hcopying.holds hle htop (by simpa using hbottom) hholds
  rw [List.length_map] at hroom
  refine h.ofOwner rfl ⟨array, hcurrent, hholds, hlength⟩ hbottom
    ⟨rfl, hcopying.ne, copied, hcopying.copied_eq, hcopied, hroom⟩
    (fun _ rest hcontents ↦ ⟨rest, hcontents⟩) fun address read hnot hread ↦ ?_
  rw [hhidden] at hnot
  exact ⟨read, hread, hnot, fun _ ↦ rfl⟩

/-- The new array becomes the array of the deque. -/
theorem pushPublish (h : Represents s contents) {elt : α} {bottom : ℤ} {newArray : Address}
    (hpc : s.owner = .pushPublish elt bottom newArray) :
    Represents
      { s with
        memory := { s.memory with array := newArray }
        owner := .pushSet elt bottom newArray } contents := by
  have hat := h.owner
  have hbottom := h.bottom
  rw [hpc] at hat hbottom
  obtain ⟨rfl, hne, copied, hcopied, hholds, hlt⟩ := hat
  exact h.ofOwner rfl ⟨copied, hcopied, hholds, hlt.le⟩ hbottom
    ⟨rfl, rfl, copied, hcopied, hlt⟩ (fun _ rest hcontents ↦ ⟨rest, hcontents⟩)
    fun _ read _ hread ↦ ⟨read, hread, nofun, fun _ ↦ rfl⟩

/-- The element is written behind the contents. -/
theorem pushSet (h : Represents s contents) {elt : α} {bottom : ℤ} {arr : Address}
    {array : CircularArray (QueueElt α)} (hpc : s.owner = .pushSet elt bottom arr)
    (harray : s.memory.heap arr = some array) :
    Represents
      { s with
        memory :=
          { s.memory with
            heap := Function.update s.memory.heap arr (some (array.caSet bottom (.task elt))) }
        owner := .pushStore elt bottom } contents := by
  have hat := h.owner
  have hbottom := h.bottom
  rw [hpc] at hat hbottom
  obtain ⟨rfl, rfl, room, hroom, hlt⟩ := hat
  obtain rfl : array = room := Option.some.inj (harray.symm.trans hroom)
  obtain ⟨current, hcurrent, hholds, hlength⟩ := h.ring
  obtain rfl : array = current := Option.some.inj (harray.symm.trans hcurrent)
  change s.memory.bottom = s.memory.top + contents.length at hbottom
  have hnew : Function.update s.memory.heap s.memory.array
      (some (array.caSet s.memory.bottom (.task elt))) s.memory.array =
        some (array.caSet s.memory.bottom (.task elt)) :=
    Function.update_self ..
  refine h.ofOwner rfl ⟨_, hnew, hholds.caSet ?_ ?_ _, hlength⟩ hbottom
    ⟨rfl, ⟨_, hnew, hlt⟩, fun read hread ↦ ?_⟩ (fun _ rest hcontents ↦ ⟨rest, hcontents⟩)
    fun address read _ hread ↦ ?_
  · rw [List.length_map]
    exact hbottom.ge
  · omega
  · rw [← Option.some.inj (hnew.symm.trans hread), caGet_caSet_self]
  · by_cases heq : address = s.memory.array
    · subst heq
      obtain rfl : array = read := Option.some.inj (harray.symm.trans hread)
      refine ⟨_, hnew, nofun, fun hne ↦ ?_⟩
      have hpos := List.length_pos_iff.mpr hne
      exact array.caGet_caSet_of_ne (by omega) (by omega) (by omega) _
    · exact ⟨read, (Function.update_of_ne heq ..).trans hread, nofun, fun _ ↦ rfl⟩

/-- The store of `bottom` publishes the element. -/
theorem pushStore (h : Represents s contents) {elt : α} {bottom : ℤ}
    (hpc : s.owner = .pushStore elt bottom) :
    Represents
      { s with memory := { s.memory with bottom := bottom + 1 }, owner := .done none }
      (contents ++ [elt]) := by
  have hat := h.owner
  have hbottom := h.bottom
  rw [hpc] at hat hbottom
  obtain ⟨rfl, ⟨room, hroom, hlt⟩, helt⟩ := hat
  obtain ⟨array, harray, hholds, -⟩ := h.ring
  obtain rfl : array = room := Option.some.inj (harray.symm.trans hroom)
  change s.memory.bottom = s.memory.top + contents.length at hbottom
  refine h.ofOwner rfl ⟨array, harray, ?_, ?_⟩ ?_ trivial ?_
    fun address read _ hread ↦ ⟨read, hread, nofun, fun _ ↦ rfl⟩
  · rw [List.map_append]
    exact hholds.concat (by simpa using hbottom) (helt array harray)
  · rw [List.length_append, List.length_singleton]
    push_cast
    omega
  · rw [List.length_append, List.length_singleton]
    change s.memory.bottom + 1 = s.memory.top + _
    push_cast
    omega
  · intro first rest hcontents
    exact ⟨rest ++ [elt], by rw [hcontents, List.cons_append]⟩

/-! ### The steps of the owner -/

section OwnerSteps

variable {fresh : Address} {garbage : ℕ → QueueElt α} {pc : OwnerPc α} {memory : Memory α}

/-- The owner lowers `bottom`, below which no element is hidden from the thieves yet. -/
theorem popStore (h : Represents s contents) {bottom : ℤ} {arr : Address}
    (hpc : s.owner = .popStore bottom arr) :
    Represents
      { s with memory := { s.memory with bottom := bottom }, owner := .popTop bottom arr }
      contents := by
  have hat := h.owner
  have hbottom := h.bottom
  rw [hpc] at hat hbottom
  obtain ⟨rfl, rfl⟩ := hat
  refine h.storeBottom ?_ ⟨rfl, rfl⟩ rfl
  rw [← hbottom]
  exact sub_add_cancel s.memory.bottom 1

/-- The owner compares the index that it pops with `top`. -/
theorem advance_popTop (h : Represents s contents) {bottom : ℤ} {arr : Address}
    (hpc : s.owner = .popTop bottom arr)
    (hadvance : (OwnerPc.popTop bottom arr).advance fresh garbage s.memory = some (pc, memory)) :
    ∃ contents', Represents { s with memory := memory, owner := pc } contents' ∧
      Moves s pc memory contents contents' := by
  have hat := h.owner
  have hbottom := h.bottom
  rw [hpc] at hat hbottom
  simp only [OwnerPc.advance] at hadvance
  split_ifs at hadvance with hle
  · obtain ⟨rfl, rfl⟩ := Prod.mk.inj (Option.some.inj hadvance)
    exact h.popTop hpc hle
  · obtain ⟨rfl, rfl⟩ := Prod.mk.inj (Option.some.inj hadvance)
    exact ⟨contents, h.moveOwner hbottom hat.1 rfl, .ofPc hpc rfl rfl⟩

/-- The owner reads the element at the end. The only one it does not have yet: a thief may take
it. -/
theorem advance_popGet (h : Represents s contents) {bottom top : ℤ} {arr : Address}
    (hpc : s.owner = .popGet bottom arr top)
    (hadvance : (OwnerPc.popGet bottom arr top).advance fresh garbage s.memory =
      some (pc, memory)) :
    ∃ contents', Represents { s with memory := memory, owner := pc } contents' ∧
      Moves s pc memory contents contents' := by
  have hat := h.owner
  have hbottom := h.bottom
  obtain ⟨array, harray, hholds, -⟩ := h.ring
  rw [hpc] at hat hbottom
  obtain ⟨rfl, rfl, hle, htop, -⟩ := hat
  simp only [OwnerPc.advance, harray, Option.bind_eq_bind, Option.bind_some] at hadvance
  split_ifs at hadvance with heq
  · obtain ⟨rfl, rfl⟩ := Prod.mk.inj (Option.some.inj hadvance)
    rw [OwnerPc.logicalBottom, if_neg heq.not_lt] at hbottom
    refine ⟨contents, h.moveOwner hbottom ⟨rfl, heq, htop, fun hsame ↦ ?_⟩ rfl,
      .silent ?_ (by rw [hpc]; rfl)⟩
    · have hlength : contents.length = 1 := by omega
      obtain ⟨only, rfl⟩ := List.length_eq_one_iff.mp hlength
      exact ⟨only, rfl, by rw [← heq, ← hsame]; exact hholds.caGet_head⟩
    · rw [hpc, OwnerPc.held, if_neg heq.not_lt]
      rfl
  · obtain ⟨rfl, rfl⟩ := Prod.mk.inj (Option.some.inj hadvance)
    have hlt : top < s.memory.bottom := lt_of_le_of_ne hle heq
    rw [OwnerPc.logicalBottom, if_pos hlt] at hbottom
    refine ⟨contents, h.moveOwner hbottom trivial rfl, .silent ?_ (by rw [hpc]; rfl)⟩
    rw [hpc, OwnerPc.held, if_pos hlt, harray]
    rfl

/-- The owner takes the only element, or a thief was faster. -/
theorem advance_popCas (h : Represents s contents) {bottom top : ℤ} {elt : QueueElt α}
    (hpc : s.owner = .popCas bottom top elt)
    (hadvance : (OwnerPc.popCas bottom top elt).advance fresh garbage s.memory =
      some (pc, memory)) :
    ∃ contents', Represents { s with memory := memory, owner := pc } contents' ∧
      Moves s pc memory contents contents' := by
  have hat := h.owner
  have hbottom := h.bottom
  rw [hpc] at hat hbottom
  simp only [OwnerPc.advance] at hadvance
  split_ifs at hadvance with heq
  · obtain ⟨rfl, rfl⟩ := Prod.mk.inj (Option.some.inj hadvance)
    subst heq
    obtain ⟨only, rfl, rfl, hafter⟩ := h.popCas hpc
    exact ⟨[], hafter, .take only (by rw [hpc]; rfl) rfl (by rw [hpc]; rfl)⟩
  · obtain ⟨rfl, rfl⟩ := Prod.mk.inj (Option.some.inj hadvance)
    exact ⟨contents, h.moveOwner hbottom hat.1 rfl, .ofPc hpc rfl rfl⟩

/-- The owner has read `top` to push: the contents reach no further up than from there. -/
theorem pushTop (h : Represents s contents) {elt : α} {bottom : ℤ}
    (hpc : s.owner = .pushTop elt bottom) :
    Represents { s with owner := .pushArray elt bottom s.memory.top } contents := by
  have hat := h.owner
  have hbottom := h.bottom
  obtain ⟨array, harray, -, hsize⟩ := h.ring
  rw [hpc] at hat hbottom
  obtain rfl : bottom = s.memory.bottom := hat
  change s.memory.bottom = _ at hbottom
  refine h.moveOwner hbottom ⟨rfl, le_refl _, fun read hread ↦ ?_⟩ rfl
  obtain rfl : array = read := Option.some.inj (harray.symm.trans hread)
  omega

/-- The owner grows a full array, and else goes on to write the element. -/
theorem advance_pushArray (h : Represents s contents) {elt : α} {bottom top : ℤ}
    (hpc : s.owner = .pushArray elt bottom top)
    (hadvance : (OwnerPc.pushArray elt bottom top).advance fresh garbage s.memory =
      some (pc, memory)) :
    ∃ contents', Represents { s with memory := memory, owner := pc } contents' ∧
      Moves s pc memory contents contents' := by
  have hat := h.owner
  have hbottom := h.bottom
  obtain ⟨array, harray, -, -⟩ := h.ring
  rw [hpc] at hat hbottom
  simp only [OwnerPc.advance, harray, Option.bind_eq_bind, Option.bind_some] at hadvance
  split_ifs at hadvance with hfull
  · obtain ⟨rfl, rfl⟩ := Prod.mk.inj (Option.some.inj hadvance)
    exact ⟨contents, h.moveOwner hbottom ⟨rfl, hat⟩ rfl, .ofPc hpc rfl rfl⟩
  · obtain ⟨rfl, rfl⟩ := Prod.mk.inj (Option.some.inj hadvance)
    obtain ⟨rfl, htop, -⟩ := hat
    change s.memory.bottom = _ at hbottom
    exact ⟨contents, h.moveOwner hbottom ⟨rfl, rfl, array, harray, by omega⟩ rfl,
      .ofPc hpc rfl rfl⟩

/-- The owner copies the next element, until the copy is complete. -/
theorem advance_pushCopy (h : Represents s contents) {elt : α} {bottom i : ℤ}
    {arr newArray : Address} (hpc : s.owner = .pushCopy elt bottom arr newArray i)
    (hadvance : (OwnerPc.pushCopy elt bottom arr newArray i).advance fresh garbage s.memory =
      some (pc, memory)) :
    ∃ contents', Represents { s with memory := memory, owner := pc } contents' ∧
      Moves s pc memory contents contents' := by
  have hat := h.owner
  rw [hpc] at hat
  obtain ⟨rfl, -, top, read, copied, htop, hcopying⟩ := hat
  simp only [OwnerPc.advance, hcopying.array_eq, hcopying.copied_eq, Option.bind_eq_bind,
    Option.bind_some] at hadvance
  split_ifs at hadvance with hlt
  · obtain ⟨rfl, rfl⟩ := Prod.mk.inj (Option.some.inj hadvance)
    exact ⟨contents, h.pushCopy hpc hlt htop hcopying, .ofPc hpc rfl rfl⟩
  · obtain ⟨rfl, rfl⟩ := Prod.mk.inj (Option.some.inj hadvance)
    exact ⟨contents, h.pushCopied hpc (not_lt.mp hlt), .ofPc hpc rfl rfl⟩

/-- Every step of the owner leaves the deque with some contents, moved as `Moves` says. -/
theorem ownerStep (h : Represents s contents) (hfresh : s.memory.heap fresh = none)
    (hadvance : s.owner.advance fresh garbage s.memory = some (pc, memory)) :
    ∃ contents', Represents { s with memory := memory, owner := pc } contents' ∧
      Moves s pc memory contents contents' := by
  have hat := h.owner
  have hbottom := h.bottom
  obtain ⟨array, harray, -, -⟩ := h.ring
  cases hpc : s.owner with
  | idle | done =>
    rw [hpc] at hadvance
    exact absurd hadvance nofun
  | popBottom =>
    rw [hpc] at hadvance hbottom
    obtain ⟨rfl, rfl⟩ := Prod.mk.inj (Option.some.inj hadvance)
    exact ⟨contents, h.moveOwner hbottom rfl rfl, .ofPc hpc rfl rfl⟩
  | popArray bottom =>
    rw [hpc] at hadvance hat hbottom
    obtain ⟨rfl, rfl⟩ := Prod.mk.inj (Option.some.inj hadvance)
    exact ⟨contents, h.moveOwner hbottom ⟨hat, rfl⟩ rfl, .ofPc hpc rfl rfl⟩
  | popStore bottom arr =>
    rw [hpc] at hadvance
    obtain ⟨rfl, rfl⟩ := Prod.mk.inj (Option.some.inj hadvance)
    exact ⟨contents, h.popStore hpc, .ofPc hpc rfl rfl⟩
  | popTop bottom arr => exact h.advance_popTop hpc (hpc ▸ hadvance)
  | popGet bottom arr top => exact h.advance_popGet hpc (hpc ▸ hadvance)
  | popCas bottom top elt => exact h.advance_popCas hpc (hpc ▸ hadvance)
  | popRestore bottom elt =>
    rw [hpc] at hadvance hbottom
    obtain ⟨rfl, rfl⟩ := Prod.mk.inj (Option.some.inj hadvance)
    exact ⟨contents, h.storeBottom hbottom trivial rfl, .ofPc hpc rfl rfl⟩
  | pushBottom elt =>
    rw [hpc] at hadvance hbottom
    obtain ⟨rfl, rfl⟩ := Prod.mk.inj (Option.some.inj hadvance)
    exact ⟨contents, h.moveOwner hbottom rfl rfl, .ofPc hpc rfl rfl⟩
  | pushTop elt bottom =>
    rw [hpc] at hadvance
    obtain ⟨rfl, rfl⟩ := Prod.mk.inj (Option.some.inj hadvance)
    exact ⟨contents, h.pushTop hpc, .ofPc hpc rfl rfl⟩
  | pushArray elt bottom top => exact h.advance_pushArray hpc (hpc ▸ hadvance)
  | pushAllocate elt bottom top arr =>
    rw [hpc] at hadvance hat
    obtain ⟨rfl, -⟩ := hat
    simp only [OwnerPc.advance, harray, Option.bind_eq_bind, Option.bind_some,
      Option.bind_eq_some_iff, Option.some.injEq, Prod.mk.injEq] at hadvance
    obtain ⟨newArray, hdouble, rfl, rfl⟩ := hadvance
    exact ⟨contents, h.pushAllocate hpc hfresh harray hdouble, .ofPc hpc rfl rfl⟩
  | pushCopy elt bottom arr newArray i => exact h.advance_pushCopy hpc (hpc ▸ hadvance)
  | pushPublish elt bottom newArray =>
    rw [hpc] at hadvance
    obtain ⟨rfl, rfl⟩ := Prod.mk.inj (Option.some.inj hadvance)
    exact ⟨contents, h.pushPublish hpc, .ofPc hpc rfl rfl⟩
  | pushSet elt bottom arr =>
    rw [hpc] at hadvance hat
    obtain ⟨-, rfl, -⟩ := hat
    simp only [OwnerPc.advance, harray, Option.bind_eq_bind, Option.bind_some, Option.some.injEq,
      Prod.mk.injEq] at hadvance
    obtain ⟨rfl, rfl⟩ := hadvance
    exact ⟨contents, h.pushSet hpc harray, .ofPc hpc rfl rfl⟩
  | pushStore elt bottom =>
    rw [hpc] at hadvance
    obtain ⟨rfl, rfl⟩ := Prod.mk.inj (Option.some.inj hadvance)
    exact ⟨contents ++ [elt], h.pushStore hpc,
      .publish elt (by rw [hpc]; rfl) rfl (by rw [hpc]; rfl)⟩

end OwnerSteps

end Represents

/-! ### Runs -/

section Held

variable [DecidableEq Thief] (s : State α Thief)

theorem held_owner (memory : Memory α) (pc : OwnerPc α) :
    State.held { s with memory := memory, owner := pc } =
      Function.update s.held .owner (pc.held memory.heap) :=
  Thread.eq_update_owner rfl fun _ ↦ rfl

theorem held_thief {memory : Memory α} (hheap : memory.heap = s.memory.heap) (thief : Thief)
    (pc : ThiefPc α) :
    State.held { s with memory := memory, thieves := Function.update s.thieves thief pc } =
      Function.update s.held (.thief thief) pc.held :=
  Thread.eq_update_thief (congrArg (OwnerPc.held · s.owner) hheap)
    (Function.apply_update (fun _ ↦ ThiefPc.held) s.thieves thief pc)

end Held

/-- Where the elements pushed in a run are, and the order of those stolen. -/
structure Delivered (labels : List (Label α Thief)) (s : State α Thief)
    (published contents taken thefts : List α) : Prop where
  represents : Represents s contents
  delivery : Delivery published contents taken (returned labels) s.held
  pushed_eq : pushed labels = published ++ s.owner.pending.toList
  stolen_eq : (stolen labels).map Prod.snd = thefts.map .task
  sublist : (thefts ++ contents).Sublist published
  indices : ((stolen labels).map Prod.fst).Pairwise (· < ·)
  bound : ∀ index ∈ (stolen labels).map Prod.fst, index < s.memory.top

theorem pushed_concat (labels : List (Label α Thief)) (label : Label α Thief) :
    pushed (labels ++ [label]) = pushed labels ++ pushed [label] :=
  List.filterMap_append

theorem returned_concat (labels : List (Label α Thief)) (label : Label α Thief) :
    returned (labels ++ [label]) = returned labels ++ returned [label] :=
  List.filterMap_append

theorem stolen_concat (labels : List (Label α Thief)) (label : Label α Thief) :
    stolen (labels ++ [label]) = stolen labels ++ stolen [label] :=
  List.filterMap_append

variable [DecidableEq Thief] {s next : State α Thief} {labels : List (Label α Thief)}
  {label : Label α Thief} {published contents taken thefts : List α}

omit [DecidableEq Thief] in
/-- The owner never lowers `top`. -/
theorem OwnerPc.top_le {pc after : OwnerPc α} {m memory : Memory α} {fresh : Address}
    {garbage : ℕ → QueueElt α} (hadvance : pc.advance fresh garbage m = some (after, memory)) :
    m.top ≤ memory.top := by
  cases pc <;>
    simp only [OwnerPc.advance, Option.bind_eq_bind] at hadvance <;>
    grind [Option.bind_eq_some_iff]

omit [DecidableEq Thief] in
/-- A step that steals nothing. -/
theorem Delivered.unstolen (h : Delivered labels s published contents taken thefts)
    (hnone : stolen [label] = []) {published' contents' taken' : List α}
    (htop : s.memory.top ≤ next.memory.top) (hrepresents : Represents next contents')
    (hdelivery : Delivery published' contents' taken' (returned labels ++ returned [label])
      next.held)
    (hpushed : pushed labels ++ pushed [label] = published' ++ next.owner.pending.toList)
    (hsublist : (thefts ++ contents').Sublist published') :
    Delivered (labels ++ [label]) next published' contents' taken' thefts := by
  have hstolen : stolen (labels ++ [label]) = stolen labels := by
    rw [stolen_concat, hnone, List.append_nil]
  refine
    { represents := hrepresents
      delivery := by rwa [returned_concat]
      pushed_eq := by rwa [pushed_concat]
      stolen_eq := by rw [hstolen, h.stolen_eq]
      sublist := hsublist
      indices := by rw [hstolen]; exact h.indices
      bound := fun index hmem ↦ ?_ }
  rw [hstolen] at hmem
  exact (h.bound index hmem).trans_le htop

/-- A step of the owner. -/
theorem Delivered.ownerStep (h : Delivered labels s published contents taken thefts)
    (hdistinct : published.Nodup) {fresh : Address} {garbage : ℕ → QueueElt α} {pc : OwnerPc α}
    {memory : Memory α} (hfresh : s.memory.heap fresh = none)
    (hadvance : s.owner.advance fresh garbage s.memory = some (pc, memory)) :
    ∃ published contents taken, Delivered (labels ++ [.ownerStep])
      { s with memory := memory, owner := pc } published contents taken thefts := by
  obtain ⟨contents', hafter, hmoves⟩ := h.represents.ownerStep hfresh hadvance
  have htop := OwnerPc.top_le hadvance
  have hheld := held_owner s memory pc
  have hself : Function.update s.held .owner (s.owner.held s.memory.heap) = s.held :=
    Function.update_eq_self Thread.owner s.held
  have hpushed : pushed labels ++ pushed [(.ownerStep : Label α Thief)] =
      published ++ s.owner.pending.toList :=
    (List.append_nil _).trans h.pushed_eq
  cases hmoves with
  | silent hsame hpending =>
    refine ⟨published, contents, taken, h.unstolen rfl htop hafter ?_ ?_ h.sublist⟩
    · rw [hheld, hsame, hself]
      exact (List.append_nil (returned labels)).symm ▸ h.delivery
    · rw [hpending]
      exact hpushed
  | publish elt hpending hnone hsame =>
    refine ⟨published ++ [elt], contents ++ [elt], taken, h.unstolen rfl htop hafter ?_ ?_ ?_⟩
    · rw [hheld, hsame, hself]
      exact (List.append_nil (returned labels)).symm ▸ h.delivery.publish elt
    · rw [hpushed, hpending, hnone]
      simp
    · rw [← List.append_assoc]
      exact h.sublist.append (List.Sublist.refl _)
  | take elt hbefore hholds hpending =>
    have hrest : contents'.Sublist (contents' ++ [elt]) := List.sublist_append_left ..
    refine ⟨published, contents', elt :: taken, h.unstolen rfl htop hafter ?_ ?_ ?_⟩
    · rw [hheld, hholds]
      have htake := h.delivery.take hdistinct (List.perm_append_singleton ..)
        (show s.held .owner = none from hbefore)
      exact (List.append_nil (returned labels)).symm ▸ htake
    · rw [hpending]
      exact hpushed
    · exact (List.Sublist.append_left hrest thefts).trans h.sublist

/-- A step of a thief. -/
theorem Delivered.thiefStep (h : Delivered labels s published contents taken thefts)
    (hdistinct : published.Nodup) {thief : Thief} {pc : ThiefPc α} {memory : Memory α}
    (hadvance : (s.thieves thief).advance s.memory = some (pc, memory)) :
    ∃ contents taken thefts,
      Delivered (labels ++ [.thiefStep thief ((s.thieves thief).steals s.memory)])
        { s with memory := memory, thieves := Function.update s.thieves thief pc }
        published contents taken thefts := by
  obtain ⟨hheap, hnone, hcases⟩ := h.represents.thiefStep hadvance
  have hheld := held_thief s hheap thief pc
  have hself : Function.update s.held (.thief thief) none = s.held := by
    rw [← hnone]
    exact Function.update_eq_self (Thread.thief thief) s.held
  have hpushed : ∀ theft, pushed labels ++ pushed [Label.thiefStep thief theft] =
      published ++ s.owner.pending.toList :=
    fun theft ↦ (List.append_nil _).trans h.pushed_eq
  rcases hcases with
    ⟨htop, hholds, hsteals, hafter⟩ | ⟨first, rest, htop, rfl, hholds, hsteals, hafter⟩
  · rw [hsteals]
    refine ⟨contents, taken, thefts, h.unstolen rfl htop.ge hafter ?_ (hpushed none) h.sublist⟩
    rw [hheld, hholds, hself]
    exact (List.append_nil (returned labels)).symm ▸ h.delivery
  · rw [hsteals]
    have hstolen : stolen (labels ++ [.thiefStep thief (some (s.memory.top, .task first))]) =
        stolen labels ++ [(s.memory.top, .task first)] :=
      stolen_concat ..
    refine ⟨rest, first :: taken, thefts ++ [first],
      { represents := hafter
        delivery := ?_
        pushed_eq := by rw [pushed_concat]; exact hpushed _
        stolen_eq := by simp [hstolen, h.stolen_eq]
        sublist := by simpa using h.sublist
        indices := ?_
        bound := fun index hmem ↦ ?_ }⟩
    · rw [hheld, hholds, returned_concat]
      have htake := h.delivery.take hdistinct (.refl _)
        (show s.held (.thief thief) = none from hnone)
      exact (List.append_nil (returned labels)).symm ▸ htake
    · rw [hstolen, List.map_append, List.pairwise_append]
      refine ⟨h.indices, List.pairwise_singleton .., fun index hmem last hlast ↦ ?_⟩
      rw [List.mem_singleton.mp hlast]
      exact h.bound index hmem
    · rw [hstolen, List.map_append, List.mem_append] at hmem
      rcases hmem with hold | hlast
      · have hlt := h.bound index hold
        dsimp only
        omega
      · rw [List.mem_singleton.mp hlast]
        dsimp only
        omega

/-- Every step keeps account of the elements. -/
theorem Delivered.step (h : Delivered labels s published contents taken thefts)
    (hdistinct : published.Nodup) (hstep : Step s label next) :
    ∃ published contents taken thefts,
      Delivered (labels ++ [label]) next published contents taken thefts := by
  have hbottom := h.represents.bottom
  have hpushed := h.pushed_eq
  have hkept : ∀ {thread : Thread Thief} {held : Option α}, s.held thread = held →
      Delivery published contents taken (returned labels ++ [])
        (Function.update s.held thread held) := by
    rintro thread held rfl
    rw [List.append_nil, Function.update_eq_self]
    exact h.delivery
  cases hstep with
  | push elt hidle =>
    rw [hidle] at hbottom hpushed
    refine ⟨published, contents, taken, thefts, h.unstolen rfl (le_refl _)
      (h.represents.moveOwner hbottom trivial rfl) ?_ ?_ h.sublist⟩
    · rw [held_owner s s.memory]
      exact hkept (by rw [State.held, hidle]; rfl)
    · rw [hpushed]
      simp [OwnerPc.pending, pushed]
  | pop hidle =>
    rw [hidle] at hbottom hpushed
    refine ⟨published, contents, taken, thefts, h.unstolen rfl (le_refl _)
      (h.represents.moveOwner hbottom trivial rfl) ?_ ?_ h.sublist⟩
    · rw [held_owner s s.memory]
      exact hkept (by rw [State.held, hidle]; rfl)
    · exact (List.append_nil _).trans hpushed
  | @steal thief hidle =>
    refine ⟨published, contents, taken, thefts, h.unstolen rfl (le_refl _)
      (h.represents.moveThief trivial) ?_ ((List.append_nil _).trans hpushed) h.sublist⟩
    rw [held_thief s rfl]
    exact hkept (by rw [State.held, hidle]; rfl)
  | ownerStep hfresh hadvance =>
    obtain ⟨published, contents, taken, hafter⟩ := h.ownerStep hdistinct hfresh hadvance
    exact ⟨published, contents, taken, thefts, hafter⟩
  | thiefStep hadvance =>
    obtain ⟨contents, taken, thefts, hafter⟩ := h.thiefStep hdistinct hadvance
    exact ⟨published, contents, taken, thefts, hafter⟩
  | @ownerFinish result hdone =>
    rw [hdone] at hbottom hpushed
    refine ⟨published, contents, taken, thefts, h.unstolen rfl (le_refl _)
      (h.represents.moveOwner hbottom trivial rfl) ?_ ((List.append_nil _).trans hpushed)
      h.sublist⟩
    have hheld : s.held .owner = result.bind QueueElt.task? := by
      have hpc : s.held .owner = OwnerPc.held s.memory.heap (.done result) :=
        congrArg (OwnerPc.held s.memory.heap) hdone
      rw [hpc]
      cases result <;> rfl
    rw [held_owner s s.memory]
    have hfinish := h.delivery.finishResult hheld
    cases result with
    | none => exact hfinish
    | some elt => cases elt <;> exact hfinish
  | @thiefFinish thief result hdone =>
    refine ⟨published, contents, taken, thefts, h.unstolen rfl (le_refl _)
      (h.represents.moveThief trivial) ?_ ((List.append_nil _).trans hpushed) h.sublist⟩
    have hfinish := h.delivery.finishResult
      (show s.held (.thief thief) = result.task? from congrArg ThiefPc.held hdone)
    rw [held_thief s rfl]
    cases result <;> exact hfinish

/-- `cl_queue_init` makes an empty deque. -/
theorem Delivered.init {logSize : ℕ} {hlogSize : logSize < 31}
    (h : (system logSize hlogSize).initial s) : Delivered [] s [] [] [] [] := by
  obtain ⟨⟨array, garbage, hmemory⟩, howner, hthieves⟩ := h
  refine
    { represents := ⟨?_, ?_, ?_, ?_⟩
      delivery := .nil fun thread ↦ ?_
      pushed_eq := by rw [howner]; rfl
      stolen_eq := rfl
      sublist := .refl _
      indices := List.Pairwise.nil
      bound := nofun }
  · rw [hmemory]
    have hheap : (clQueueInit logSize hlogSize array garbage).heap array =
        some (circularArrayNew logSize hlogSize garbage) := by
      simp [clQueueInit]
    exact ⟨_, hheap, nofun, by exact_mod_cast (size_pos _).le⟩
  · rw [howner, hmemory]
    rfl
  · rw [howner]
    trivial
  · intro thief
    rw [hthieves]
    trivial
  · cases thread with
    | owner => rw [State.held, howner]; rfl
    | thief thief => rw [State.held, hthieves]; rfl

omit [DecidableEq Thief] in
theorem Delivered.published_nodup (h : Delivered labels s published contents taken thefts)
    (hdistinct : (pushed labels).Nodup) : published.Nodup := by
  rw [h.pushed_eq] at hdistinct
  exact hdistinct.of_append_left

/-- The elements are accounted for, if they are distinct. -/
def Accounted (labels : List (Label α Thief)) (s : State α Thief) : Prop :=
  (pushed labels).Nodup →
    ∃ published contents taken thefts, Delivered labels s published contents taken thefts

/-- Every run keeps account of the elements. -/
theorem accounted_of_run {logSize : ℕ} {hlogSize : logSize < 31}
    (hrun : (system logSize hlogSize).Run (fun _ _ ↦ True) labels s) : Accounted labels s := by
  refine hrun.history (fun s h _ ↦ ⟨[], [], [], [], .init h⟩) ?_
  intro labels s label next ih _ hstep hdistinct
  rw [pushed_concat] at hdistinct
  obtain ⟨published, contents, taken, thefts, h⟩ := ih hdistinct.of_append_left
  exact h.step (h.published_nodup hdistinct.of_append_left) hstep

/-- No call is in progress. -/
def State.Quiescent (s : State α Thief) : Prop :=
  s.owner = .idle ∧ ∀ thief, s.thieves thief = .idle

variable [DecidableEq α]

/-- **Exactly-once delivery.** In every run that pushes distinct elements, each is returned at most
once, and only if it was pushed. A steal that succeeds takes the element at index `top` of the
current array; the indices grow, and the elements come in the order they were pushed. Every element
that was pushed and not returned is being pushed, or held by the thread that is about to return it,
or lies in the current array, in the order of the pushes. So while no call is in progress, the
elements from `top` to `bottom` are exactly those not returned. -/
theorem clQueue_delivered_once {logSize : ℕ} {hlogSize : logSize < 31}
    (hrun : (system logSize hlogSize).Run (fun _ _ ↦ True) labels s)
    (hdistinct : (pushed labels).Nodup) :
    (returned labels).Nodup ∧ (∀ elt ∈ returned labels, elt ∈ pushed labels) ∧
    (∃ thefts : List α, (stolen labels).map Prod.snd = thefts.map .task ∧
      thefts.Sublist (pushed labels)) ∧
    ((stolen labels).map Prod.fst).Pairwise (· < ·) ∧
    ∃ arr, s.memory.heap s.memory.array = some arr ∧
      (∀ thief elt, s.thieves thief = .stealCas s.memory.top elt →
        elt = arr.caGet s.memory.top) ∧
      (∃ contents : List α, arr.Holds s.memory.top (contents.map .task) ∧
        s.owner.logicalBottom s.memory.bottom = s.memory.top + contents.length ∧
        contents.Sublist (pushed labels) ∧
        ∀ elt ∈ pushed labels, elt ∈ contents ∨ elt ∈ returned labels ∨
          s.owner.pending = some elt ∨ ∃ thread, s.held thread = some elt) ∧
      (s.Quiescent → s.memory.top ≤ s.memory.bottom ∧
        s.memory.bottom - s.memory.top =
          ((pushed labels).filter (· ∉ returned labels)).length ∧
        arr.Holds s.memory.top (((pushed labels).filter (· ∉ returned labels)).map .task)) := by
  obtain ⟨published, contents, taken, thefts, h⟩ := accounted_of_run hrun hdistinct
  have hpublished := h.published_nodup hdistinct
  have hsub : published.Sublist (pushed labels) := by
    rw [h.pushed_eq]
    exact List.sublist_append_left ..
  have hmem : ∀ {elt}, elt ∈ published ↔ elt ∈ contents ∨ elt ∈ taken := fun {elt} ↦ by
    rw [← h.delivery.perm.mem_iff, List.mem_append]
  have hsublist := (List.sublist_append_right ..).trans h.sublist
  obtain ⟨arr, harr, hholds, -⟩ := h.represents.ring
  refine ⟨h.delivery.nodup, fun elt hreturned ↦ ?_, ⟨thefts, h.stolen_eq, ?_⟩, h.indices, arr, harr,
    fun thief elt hpc ↦ ?_, ⟨contents, hholds, h.represents.bottom, hsublist.trans hsub,
      fun elt hpushed ↦ ?_⟩, ?_⟩
  · exact hsub.subset (hmem.mpr (.inr (h.delivery.taken_of_returned elt hreturned)))
  · exact ((List.sublist_append_left ..).trans h.sublist).trans hsub
  · have hat := h.represents.thieves thief
    rw [hpc] at hat
    obtain ⟨first, rest, hcontents, rfl⟩ := hat.2 rfl
    rw [hcontents, List.map_cons] at hholds
    exact hholds.caGet_head.symm
  · rw [h.pushed_eq, List.mem_append, hmem, h.delivery.mem_taken_iff, Option.mem_toList] at hpushed
    rcases hpushed with (hin | hreturned | hheld) | hpending
    · exact .inl hin
    · exact .inr (.inl hreturned)
    · exact .inr (.inr (.inr hheld))
    · exact .inr (.inr (.inl hpending))
  · rintro ⟨howner, hthieves⟩
    have hheld : ∀ thread, s.held thread = none := by
      intro thread
      cases thread with
      | owner => rw [State.held, howner]; rfl
      | thief thief => rw [State.held, hthieves]; rfl
    have hpushed : pushed labels = published := by
      rw [h.pushed_eq, howner]
      exact List.append_nil _
    have hcontents := h.delivery.contents_eq_filter hpublished hsublist hheld
    have hbottom := h.represents.bottom
    rw [howner] at hbottom
    change s.memory.bottom = _ at hbottom
    rw [hpushed, ← hcontents]
    exact ⟨by omega, by omega, hholds⟩

/-- The owner pushes an element, and a thief steals it. -/
def pushSteal : List (Label ℕ Unit) :=
  [.push 7, .ownerStep, .ownerStep, .ownerStep, .ownerStep, .ownerStep, .ownerFinish none,
    .steal (), .thiefStep () none, .thiefStep () none, .thiefStep () none, .thiefStep () none,
    .thiefStep () (some (0, .task 7)), .thiefFinish () (.task 7)]

/-- A deque of one element. -/
def smallSystem : TransitionSystem (State ℕ Unit) (Label ℕ Unit) := system 0 zero_lt_maxLogSize

theorem smallSystem_ownerStep {labels : List (Label ℕ Unit)} {s : State ℕ Unit} {pc : OwnerPc ℕ}
    {memory : Memory ℕ} (hrun : smallSystem.Run (fun _ _ ↦ True) labels s)
    (hfresh : s.memory.heap 1 = none)
    (hadvance : s.owner.advance 1 (fun _ ↦ .empty) s.memory = some (pc, memory)) :
    smallSystem.Run (fun _ _ ↦ True) (labels ++ [.ownerStep])
      { s with memory := memory, owner := pc } :=
  hrun.step trivial (.ownerStep hfresh hadvance)

theorem smallSystem_thiefStep {labels : List (Label ℕ Unit)} {s : State ℕ Unit} {pc : ThiefPc ℕ}
    {memory : Memory ℕ} (hrun : smallSystem.Run (fun _ _ ↦ True) labels s)
    (hadvance : (s.thieves ()).advance s.memory = some (pc, memory)) :
    smallSystem.Run (fun _ _ ↦ True)
      (labels ++ [.thiefStep () ((s.thieves ()).steals s.memory)])
      { s with memory := memory, thieves := Function.update s.thieves () pc } :=
  hrun.step trivial (.thiefStep hadvance)

theorem run_pushSteal : ∃ s, smallSystem.Run (fun _ _ ↦ True) pushSteal s := by
  have hstart : smallSystem.Run (fun _ _ ↦ True) []
      ⟨clQueueInit 0 (by decide) 0 fun _ ↦ .empty, .idle, fun _ ↦ .idle⟩ :=
    .start ⟨⟨0, fun _ ↦ .empty, rfl⟩, rfl, fun _ ↦ rfl⟩
  have hpush := hstart.step trivial (show Step _ (.push 7) _ from .push 7 rfl)
  have hbottom := smallSystem_ownerStep hpush rfl rfl
  have htop := smallSystem_ownerStep hbottom rfl rfl
  have harray := smallSystem_ownerStep htop rfl rfl
  have hset := smallSystem_ownerStep harray rfl rfl
  have hstore := smallSystem_ownerStep hset rfl rfl
  have hfinish := hstore.step trivial (show Step _ (.ownerFinish none) _ from .ownerFinish rfl)
  have hsteal := hfinish.step trivial (show Step _ (.steal ()) _ from .steal rfl)
  have hstealTop := smallSystem_thiefStep hsteal rfl
  have hstealBottom := smallSystem_thiefStep hstealTop rfl
  have hstealArray := smallSystem_thiefStep hstealBottom rfl
  have hstealGet := smallSystem_thiefStep hstealArray rfl
  have hstealCas := smallSystem_thiefStep hstealGet rfl
  exact ⟨_, hstealCas.step trivial
    (show Step _ (.thiefFinish () (.task 7)) _ from .thiefFinish rfl)⟩

theorem clQueue_delivered_once_pushSteal : (returned pushSteal).Nodup ∧
    ∃ thefts : List ℕ, (stolen pushSteal).map Prod.snd = thefts.map .task ∧
      thefts.Sublist (pushed pushSteal) := by
  obtain ⟨s, hrun⟩ := run_pushSteal
  obtain ⟨hnodup, -, hthefts, -⟩ := clQueue_delivered_once hrun (by decide)
  exact ⟨hnodup, hthefts⟩

end Libseff.Queues.ClQueue
