import Libseff.Ad.Backpropagation

/-!
# The memory of the handlers

What the programs do to memory, whatever addresses new objects get. `handle` calls itself before it
uses the adjoint of its own block, so the objects of its frames make up a stack: those that a
coroutine knows of are there until the frames are left (`Knows`). A frame adds an object with
adjoint 0 and takes it away again; in between, the adjoints become those of `backward` (`Swept`).
From this, by induction on what the coroutine does, every access is to an object that is there, the
program prints the adjoint of `x`, and all objects of the frames are gone.
-/

set_option autoImplicit false
set_option relaxedAutoImplicit false

namespace Libseff.Ad

open Foundation Foundation.SystemCalls

variable {Scalar Address Arg Ret Result Next : Type}

/-! ### Equations of the programs -/

@[simp] theorem accesses_bind (program : MemoryCode Scalar Address Result)
    (next : Result → MemoryCode Scalar Address Next) :
    (accesses (program >>= next) : Code Scalar Address Arg Ret Next) =
      accesses program >>= fun result ↦ accesses (next result) := by
  induction program with
  | done result => rfl
  | call request after ih => exact congrArg _ (funext ih)

section Evaluate

variable [Neg Scalar] [Add Scalar] [Mul Scalar]

@[simp] theorem evaluate_bind (program : Code Scalar Address Scalar Scalar Result)
    (next : Result → Code Scalar Address Scalar Scalar Next) :
    evaluate (program >>= next) = evaluate program >>= fun result ↦ evaluate (next result) := by
  induction program with
  | done result => rfl
  | call request after ih =>
    match request with
    | .perform (.ap0 value) => exact ih value
    | .perform (.ap1 .negateOp arg1) => exact ih (-arg1)
    | .perform (.ap2 .addOp arg1 arg2) => exact ih (arg1 + arg2)
    | .perform (.ap2 .multiplyOp arg1 arg2) => exact ih (arg1 * arg2)
    | .access memory => exact congrArg _ (funext ih)

@[simp] theorem evaluate_accesses (program : MemoryCode Scalar Address Result) :
    evaluate (accesses program) = program := by
  induction program with
  | done result => rfl
  | call request after ih => exact congrArg _ (funext ih)

@[simp] theorem evaluate_access (memory : Access Scalar Address) :
    evaluate (access memory) = ask Access.Answer memory := rfl

@[simp] theorem evaluate_pure (result : Result) :
    evaluate (pure result : Code Scalar Address Scalar Scalar Result) = .done result := rfl

@[simp] theorem evaluate_eC (x : Scalar) :
    evaluate (eC x : Code Scalar Address Scalar Scalar Scalar) = .done x := rfl

@[simp] theorem evaluate_eN (x : Scalar) :
    evaluate (eN x : Code Scalar Address Scalar Scalar Scalar) = .done (-x) := rfl

@[simp] theorem evaluate_eA (x y : Scalar) :
    evaluate (eA x y : Code Scalar Address Scalar Scalar Scalar) = .done (x + y) := rfl

@[simp] theorem evaluate_eM (x y : Scalar) :
    evaluate (eM x y : Code Scalar Address Scalar Scalar Scalar) = .done (x * y) := rfl

end Evaluate

theorem handle_accesses_bind [One Scalar] (variant : Variant Scalar Address Arg)
    (program : MemoryCode Scalar Address Result)
    (next : Result → Code Scalar Address Arg Address Unit) :
    handle variant (accesses program >>= next) =
      accesses program >>= fun result ↦ handle variant (next result) := by
  induction program with
  | done result => rfl
  | call request after ih => exact congrArg _ (funext ih)

/-! ### Conditions -/

/-- The adjoint of `x` is at an address. -/
def InputAt (memory : Memory Scalar Address) (address : Address) : Prop :=
  ∃ x v, memory.globals .x = some x ∧ memory.props x = some (some ⟨v, address⟩)

/-- The only object that is still there after its lifetime is the adjoint of `x`, and none is if it
is on the heap. -/
def Tidy (heap : Bool) (memory : Memory Scalar Address) : Prop :=
  ∀ address ∈ memory.left, heap = false ∧ InputAt memory address

/-- An access is valid, and only that to the adjoint of `x` may be to an object after its
lifetime. -/
def Allowed (heap : Bool) (memory : Memory Scalar Address) (request : Access Scalar Address) :
    Prop :=
  request.Valid memory ∧ Tidy heap memory

section Triples

variable [DecidableEq Address]

/-- From a memory on, all accesses are allowed, and the memory at the end and the result are right.
-/
def Ensures (heap : Bool) (right : Memory Scalar Address → Result → Prop)
    (program : MemoryCode Scalar Address Result) (memory : Memory Scalar Address) : Prop :=
  ∀ labels, program.Ensures memoryOf (fun _ _ ↦ True) (fun history ↦ Allowed heap history.2)
    (fun history ↦ right history.2) (labels, memory)

variable {heap : Bool} {right right' : Memory Scalar Address → Result → Prop}
  {memory : Memory Scalar Address}

theorem ensures_done {result : Result} (h : right memory result) :
    Ensures heap right (.done result) memory :=
  fun _ ↦ ensures_done_iff.mpr h

theorem Ensures.mono {program : MemoryCode Scalar Address Result}
    (h : Ensures heap right program memory)
    (hright : ∀ memory result, right memory result → right' memory result) :
    Ensures heap right' program memory :=
  fun labels ↦ (h labels).mono fun _ _ ↦ hright _ _

/-- Assumes: the rest ensures the conditions wherever the first part may end. -/
theorem Ensures.bind {program : MemoryCode Scalar Address Result}
    {next : Result → MemoryCode Scalar Address Next}
    {rightNext : Memory Scalar Address → Next → Prop} (h : Ensures heap right program memory)
    (hnext : ∀ after result, right after result → Ensures heap rightNext (next result) after) :
    Ensures heap rightNext (program >>= next) memory :=
  fun labels ↦ ensures_bind ((h labels).mono fun history result hright ↦
    hnext history.2 result hright history.1)

theorem ensures_access {request : Access Scalar Address}
    {next : request.Answer → MemoryCode Scalar Address Result} (hvalid : request.Valid memory)
    (htidy : Tidy heap memory)
    (hnext : ∀ answer after, request.Does memory answer after →
      Ensures heap right (next answer) after) :
    Ensures heap right (ask Access.Answer request >>= next) memory :=
  fun _ ↦ ensures_ask_iff.mpr ⟨⟨hvalid, htidy⟩,
    fun answer after hanswer _ ↦ hnext answer after hanswer _⟩

variable {address : Address} {value : Scalar} {prop : PropT Scalar Address}

theorem ensures_loadDouble {next : Scalar → MemoryCode Scalar Address Result}
    (hdouble : memory.doubles address = some (some value)) (htidy : Tidy heap memory)
    (hnext : Ensures heap right (next value) memory) :
    Ensures heap right (ask Access.Answer (.loadDouble address) >>= next) memory := by
  refine ensures_access ⟨value, hdouble⟩ htidy ?_
  rintro answer after ⟨hanswer, rfl⟩
  obtain rfl : value = answer := by simpa using hdouble.symm.trans hanswer
  exact hnext

theorem ensures_loadProp {next : PropT Scalar Address → MemoryCode Scalar Address Result}
    (hprop : memory.props address = some (some prop)) (htidy : Tidy heap memory)
    (hnext : Ensures heap right (next prop) memory) :
    Ensures heap right (ask Access.Answer (.loadProp address) >>= next) memory := by
  refine ensures_access ⟨prop, hprop⟩ htidy ?_
  rintro answer after ⟨hanswer, rfl⟩
  obtain rfl : prop = answer := by simpa using hprop.symm.trans hanswer
  exact hnext

theorem ensures_global {name : Global} {next : Address → MemoryCode Scalar Address Result}
    (hglobal : memory.globals name = some address) (htidy : Tidy heap memory)
    (hnext : Ensures heap right (next address) memory) :
    Ensures heap right (ask Access.Answer (.global name) >>= next) memory := by
  refine ensures_access (by simp [Access.Valid, hglobal]) htidy ?_
  rintro answer after ⟨hanswer, rfl⟩
  obtain rfl : address = answer := Option.some_inj.mp (hglobal.symm.trans hanswer)
  exact hnext

theorem ensures_storeDouble {next : Unit → MemoryCode Scalar Address Result}
    (hdouble : memory.doubles address ≠ none) (htidy : Tidy heap memory)
    (hnext : Ensures heap right (next ()) (memory.setDouble address (some (some value)))) :
    Ensures heap right (ask Access.Answer (.storeDouble address value) >>= next) memory := by
  refine ensures_access hdouble htidy ?_
  rintro ⟨⟩ after rfl
  exact hnext

theorem ensures_ask_storeDouble {rightUnit : Memory Scalar Address → Unit → Prop}
    (hdouble : memory.doubles address ≠ none) (htidy : Tidy heap memory)
    (h : rightUnit (memory.setDouble address (some (some value))) ()) :
    Ensures heap rightUnit (ask Access.Answer (.storeDouble address value)) memory := by
  rw [← Program.bind_done (ask Access.Answer (.storeDouble address value))]
  exact ensures_storeDouble hdouble htidy (ensures_done h)

theorem ensures_storeProp {next : Unit → MemoryCode Scalar Address Result}
    (hprop : memory.props address ≠ none) (htidy : Tidy heap memory)
    (hnext : Ensures heap right (next ()) (memory.setProp address (some (some prop)))) :
    Ensures heap right (ask Access.Answer (.storeProp address prop) >>= next) memory := by
  refine ensures_access hprop htidy ?_
  rintro ⟨⟩ after rfl
  exact hnext

theorem ensures_releaseDouble {next : Unit → MemoryCode Scalar Address Result}
    (hdouble : memory.doubles address ≠ none) (htidy : Tidy heap memory)
    (hnext : Ensures heap right (next ()) (memory.setDouble address none)) :
    Ensures heap right (ask Access.Answer (.releaseDouble address) >>= next) memory := by
  refine ensures_access hdouble htidy ?_
  rintro ⟨⟩ after rfl
  exact hnext

theorem ensures_releaseProp {next : Unit → MemoryCode Scalar Address Result}
    (hprop : memory.props address ≠ none) (htidy : Tidy heap memory)
    (hnext : Ensures heap right (next ()) (memory.setProp address none)) :
    Ensures heap right (ask Access.Answer (.releaseProp address) >>= next) memory := by
  refine ensures_access hprop htidy ?_
  rintro ⟨⟩ after rfl
  exact hnext

theorem ensures_ask_releaseProp {rightUnit : Memory Scalar Address → Unit → Prop}
    (hprop : memory.props address ≠ none) (htidy : Tidy heap memory)
    (h : rightUnit (memory.setProp address none) ()) :
    Ensures heap rightUnit (ask Access.Answer (.releaseProp address)) memory := by
  rw [← Program.bind_done (ask Access.Answer (.releaseProp address))]
  exact ensures_releaseProp hprop htidy (ensures_done h)

theorem ensures_newDouble {next : Address → MemoryCode Scalar Address Result}
    (htidy : Tidy heap memory)
    (hnext : ∀ address, memory.doubles address = none →
      Ensures heap right (next address) (memory.setDouble address (some none))) :
    Ensures heap right (ask Access.Answer .newDouble >>= next) memory := by
  refine ensures_access trivial htidy ?_
  rintro address after ⟨hfresh, rfl⟩
  exact hnext address hfresh

theorem ensures_newProp {next : Address → MemoryCode Scalar Address Result}
    (htidy : Tidy heap memory)
    (hnext : ∀ address, memory.props address = none →
      Ensures heap right (next address) (memory.setProp address (some none))) :
    Ensures heap right (ask Access.Answer .newProp >>= next) memory := by
  refine ensures_access trivial htidy ?_
  rintro address after ⟨hfresh, rfl⟩
  exact hnext address hfresh

/-- The answer to one access. -/
theorem ensures_ask_loadProp 
    (hprop : memory.props address = some (some prop)) (htidy : Tidy heap memory) :
    Ensures heap (fun after result ↦ after = memory ∧ result = prop)
      (ask Access.Answer (.loadProp address)) memory := by
  have h : Ensures heap (fun after result ↦ after = memory ∧ result = prop)
      (ask Access.Answer (.loadProp address) >>= Program.done) memory :=
    ensures_loadProp hprop htidy (ensures_done ⟨rfl, rfl⟩)
  rwa [Program.bind_done] at h

end Triples

/-! ### Objects in memory -/

section Objects

variable [DecidableEq Address]

namespace Memory

variable (memory : Memory Scalar Address) (address : Address) (double : Option (Option Scalar))
  (prop : Option (Option (PropT Scalar Address)))

@[simp] theorem setDouble_doubles :
    (memory.setDouble address double).doubles = Function.update memory.doubles address double := rfl

@[simp] theorem setDouble_props : (memory.setDouble address double).props = memory.props := rfl

@[simp] theorem setDouble_globals :
    (memory.setDouble address double).globals = memory.globals := rfl

@[simp] theorem setDouble_left : (memory.setDouble address double).left = memory.left := rfl

@[simp] theorem setDouble_printed :
    (memory.setDouble address double).printed = memory.printed := rfl

@[simp] theorem setProp_doubles : (memory.setProp address prop).doubles = memory.doubles := rfl

@[simp] theorem setProp_props :
    (memory.setProp address prop).props = Function.update memory.props address prop := rfl

@[simp] theorem setProp_globals : (memory.setProp address prop).globals = memory.globals := rfl

@[simp] theorem setProp_left : (memory.setProp address prop).left = memory.left := rfl

@[simp] theorem setProp_printed : (memory.setProp address prop).printed = memory.printed := rfl

@[simp] theorem setDouble_setDouble (other : Option (Option Scalar)) :
    (memory.setDouble address double).setDouble address other = memory.setDouble address other := by
  simp [setDouble]

@[simp] theorem setProp_setProp (other : Option (Option (PropT Scalar Address))) :
    (memory.setProp address prop).setProp address other = memory.setProp address other := by
  simp [setProp]

end Memory

omit [DecidableEq Address] in
/-- What has been stored in the pairs stays, and so does where `x` is. -/
structure Memory.Grows (memory later : Memory Scalar Address) : Prop where
  props : ∀ address p, memory.props address = some (some p) → later.props address = some (some p)
  x : later.globals .x = memory.globals .x

variable {heap : Bool} {memory later last : Memory Scalar Address}

omit [DecidableEq Address] in
theorem Memory.Grows.refl (memory : Memory Scalar Address) : memory.Grows memory :=
  ⟨fun _ _ h ↦ h, rfl⟩

omit [DecidableEq Address] in
theorem Memory.Grows.trans (hlater : memory.Grows later) (hlast : later.Grows last) :
    memory.Grows last :=
  ⟨fun address p h ↦ hlast.props address p (hlater.props address p h), hlast.x.trans hlater.x⟩

theorem Memory.grows_setDouble (memory : Memory Scalar Address) (address : Address)
    (content : Option (Option Scalar)) : memory.Grows (memory.setDouble address content) :=
  ⟨fun _ _ h ↦ h, rfl⟩

/-- Assumes: nothing has been stored at an address. -/
theorem Memory.grows_setProp {address : Address} (hfree : ∀ p, memory.props address ≠ some (some p))
    (content : Option (Option (PropT Scalar Address))) :
    memory.Grows (memory.setProp address content) := by
  refine ⟨fun other p hother ↦ ?_, rfl⟩
  have hne : other ≠ address := fun heq ↦ hfree p (heq ▸ hother)
  rwa [setProp_props, Function.update_of_ne hne]

theorem Memory.grows_setProp_of_none {address : Address} (hnone : memory.props address = none)
    (content : Option (Option (PropT Scalar Address))) :
    memory.Grows (memory.setProp address content) :=
  Memory.grows_setProp (by simp [hnone]) content

omit [DecidableEq Address] in
theorem InputAt.of_grows {address : Address} (hinput : InputAt memory address)
    (hgrows : memory.Grows later) : InputAt later address := by
  obtain ⟨x, v, hx, hprop⟩ := hinput
  exact ⟨x, v, hgrows.x.trans hx, hgrows.props x _ hprop⟩

omit [DecidableEq Address] in
theorem Tidy.of_grows (htidy : Tidy heap memory) (hgrows : memory.Grows later)
    (hleft : later.left = memory.left) : Tidy heap later := by
  intro address hmem
  obtain ⟨hheap, hinput⟩ := htidy address (hleft ▸ hmem)
  exact ⟨hheap, hinput.of_grows hgrows⟩

omit [DecidableEq Address] in
theorem tidy_of_nil (hleft : memory.left = []) : Tidy heap memory := by
  simp [Tidy, hleft]

/-! ### Adjoints in memory -/

/-- The cells hold the adjoints, in order. -/
def Reflects (doubles : Address → Option (Option Scalar)) (cells : List Address)
    (adjoints : ℕ → Scalar) : Prop :=
  ∀ place address, cells[place]? = some address →
    doubles address = some (some (adjoints place))

variable {doubles : Address → Option (Option Scalar)} {cells : List Address}
  {adjoints : ℕ → Scalar} {place : ℕ} {address : Address}

/-- Assumes: distinct cells. Storing in one of them changes the adjoint at its place. -/
theorem Reflects.update (hreflects : Reflects doubles cells adjoints) (hnodup : cells.Nodup)
    (hcell : cells[place]? = some address) (value : Scalar) :
    Reflects (Function.update doubles address (some (some value))) cells
      (Function.update adjoints place value) := by
  intro other cell hother
  by_cases hplace : other = place
  · subst hplace
    obtain rfl : address = cell := Option.some_inj.mp (hcell.symm.trans hother)
    simp
  · have hcellNe : cell ≠ address := by
      rintro rfl
      have hlt := (List.getElem?_eq_some_iff.mp hother).1
      exact hplace ((List.getElem?_inj hlt hnodup).mp (hother.trans hcell.symm))
    simp [hplace, hcellNe, hreflects other cell hother]

/-! ### Variants -/

variable [Zero Scalar] [Neg Scalar] [Add Scalar] [Mul Scalar]

/-- What the parts of a variant do to memory: what a coroutine makes of a pointer stands for the
pair that is there, and a new frame has its pair and an adjoint that is 0. -/
structure Variant.Lawful (variant : Variant Scalar Address Arg) where
  Stands : Memory Scalar Address → Arg → PropT Scalar Address → Prop
  stands_of_grows : ∀ {memory later : Memory Scalar Address} {arg : Arg}
    {p : PropT Scalar Address}, Stands memory arg p → memory.Grows later → Stands later arg p
  received : ∀ {heap : Bool} {memory : Memory Scalar Address} {r : Address}
    {p : PropT Scalar Address}, memory.props r = some (some p) → Tidy heap memory →
      Ensures heap (fun after arg ↦ after = memory ∧ Stands memory arg p) (variant.received r)
        memory
  deref : ∀ {heap : Bool} {memory : Memory Scalar Address} {arg : Arg}
    {p : PropT Scalar Address}, Stands memory arg p → Tidy heap memory →
      Ensures heap (fun after result ↦ after = memory ∧ result = p) (variant.deref arg) memory
  opens : ∀ {heap : Bool} {memory : Memory Scalar Address}
    {program : Code Scalar Address Scalar Scalar Scalar} {value : Scalar}, Tidy heap memory →
      (∀ later, memory.Grows later → Tidy heap later →
        Ensures heap (fun after result ↦ after = later ∧ result = value) (evaluate program) later) →
      Ensures heap (fun after (frame : Address × Address) ↦ memory.doubles frame.1 = none ∧
          memory.props frame.2 = none ∧
          after = (memory.setDouble frame.1 (some (some 0))).setProp frame.2
            (some (some ⟨value, frame.1⟩)))
        (evaluate (variant.opens program)) memory

/-- Assumes: a computation of a number that leaves memory as it is. A block with its number, a new
adjoint and the pair of them. -/
theorem ensures_opensBlock {program : Code Scalar Address Scalar Scalar Scalar} {value : Scalar}
    (htidy : Tidy heap memory)
    (hprogram : ∀ later, memory.Grows later → Tidy heap later →
      Ensures heap (fun after result ↦ after = later ∧ result = value) (evaluate program) later) :
    Ensures heap (fun after (frame : Address × Address) ↦ memory.doubles frame.1 = none ∧
        memory.props frame.2 = none ∧
        after = (memory.setDouble frame.1 (some (some 0))).setProp frame.2
          (some (some ⟨value, frame.1⟩)))
      (evaluate (opensBlock program)) memory := by
  have htidyDouble (dv : Address) (content : Option (Option Scalar)) :
      Tidy heap (memory.setDouble dv content) :=
    htidy.of_grows (memory.grows_setDouble dv content) rfl
  simp only [opensBlock, evaluate_bind, evaluate_pure]
  refine (hprogram memory (.refl memory) htidy).bind ?_
  rintro _ _ ⟨rfl, rfl⟩
  refine ensures_newDouble htidy fun dv hdv ↦ ?_
  refine ensures_storeDouble (by simp) (htidyDouble dv _) ?_
  rw [Memory.setDouble_setDouble]
  refine ensures_newProp (htidyDouble dv _) fun r hr ↦ ?_
  have htidyProp := (htidyDouble dv (some (some 0))).of_grows
    (Memory.grows_setProp_of_none hr (some none)) rfl
  refine ensures_storeProp (by simp) htidyProp ?_
  rw [Memory.setProp_setProp]
  exact ensures_done ⟨hdv, hr, rfl⟩

/-- Assumes: a computation of a number that leaves memory as it is. The same on the heap. -/
theorem ensures_opensHeap {program : Code Scalar Address Scalar Scalar Scalar} {value : Scalar}
    (htidy : Tidy heap memory)
    (hprogram : ∀ later, memory.Grows later → Tidy heap later →
      Ensures heap (fun after result ↦ after = later ∧ result = value) (evaluate program) later) :
    Ensures heap (fun after (frame : Address × Address) ↦ memory.doubles frame.1 = none ∧
        memory.props frame.2 = none ∧
        after = (memory.setDouble frame.1 (some (some 0))).setProp frame.2
          (some (some ⟨value, frame.1⟩)))
      (evaluate (opensHeap program)) memory := by
  have htidyDouble (dv : Address) (content : Option (Option Scalar)) :
      Tidy heap (memory.setDouble dv content) :=
    htidy.of_grows (memory.grows_setDouble dv content) rfl
  simp only [opensHeap, evaluate_bind, evaluate_pure]
  refine ensures_newDouble htidy fun dv hdv ↦ ?_
  refine ensures_storeDouble (by simp) (htidyDouble dv _) ?_
  rw [Memory.setDouble_setDouble]
  refine (hprogram _ (memory.grows_setDouble dv _) (htidyDouble dv _)).bind ?_
  rintro _ _ ⟨rfl, rfl⟩
  refine ensures_newProp (htidyDouble dv _) fun r hr ↦ ?_
  have htidyProp := (htidyDouble dv (some (some 0))).of_grows
    (Memory.grows_setProp_of_none hr (some none)) rfl
  refine ensures_storeProp (by simp) htidyProp ?_
  rw [Memory.setProp_setProp]
  exact ensures_done ⟨hdv, hr, rfl⟩

def noAlloc_lawful : (noAlloc : Variant Scalar Address (PropT Scalar Address)).Lawful where
  Stands _ arg p := arg = p
  stands_of_grows h _ := h
  received hprop htidy := ensures_ask_loadProp hprop htidy
  deref h _ := ensures_done ⟨rfl, h⟩
  opens := ensures_opensBlock

def indirectPropT_lawful : (indirectPropT : Variant Scalar Address Address).Lawful where
  Stands memory arg p := memory.props arg = some (some p)
  stands_of_grows h hgrows := hgrows.props _ _ h
  received hprop _ := ensures_done ⟨rfl, hprop⟩
  deref h htidy := ensures_ask_loadProp h htidy
  opens := ensures_opensBlock

def naive_lawful : (naive : Variant Scalar Address (PropT Scalar Address)).Lawful where
  Stands _ arg p := arg = p
  stands_of_grows h _ := h
  received hprop htidy := ensures_ask_loadProp hprop htidy
  deref h _ := ensures_done ⟨rfl, h⟩
  opens := ensures_opensHeap

end Objects

end Libseff.Ad
