import Libseff.Foundation.ParametricPrograms
import Mathlib.Logic.Function.Basic

/-!
# Differentiation by handlers

The programs of `tests/ad.c` and `bench/ad_bench`. A coroutine computes with pairs of a number and
the address of its adjoint (`PropT`), and performs an effect for each operation. `handle` answers
it with a new pair, calls itself for what the coroutine does next, and adds to the adjoints of the
operands when that call has returned, so that the adjoints are visited backwards. It runs in a
coroutine of its own and leaves the arithmetic to `evaluate`, by effects again.

The variants differ in what the coroutine gets: the pair, or a pointer to it (`indirect_prop_t.c`);
and in where the adjoints are: in the frames of `handle` and of the coroutine, or on the heap
(`naive.c`). In `ad.c` and `ptr_dbl_cast.c` the same happens as in `no_alloc.c`.

A function is a program whose calls are its effects and its accesses to memory. An access names the
object by its address; which address a new object has is not determined. The numbers of iterations
that are printed, and the variable from which `evaluate` hands a number back, are left out.
Allocations succeed.
-/

set_option autoImplicit false
set_option relaxedAutoImplicit false

namespace Libseff.Ad

open Foundation.SystemCalls

/-! ### Effects -/

/-- `op1_t`. -/
inductive Op1
  | negateOp
  deriving DecidableEq

/-- `op2_t`. -/
inductive Op2
  | addOp
  | multiplyOp
  deriving DecidableEq

/-- The effects `ap0`, `ap1` and `ap2` with their payloads, for operands of a type. -/
inductive Smooth (Scalar Arg : Type)
  | ap0 (value : Scalar)
  | ap1 (op : Op1) (arg1 : Arg)
  | ap2 (op : Op2) (arg1 arg2 : Arg)

/-- `prop_t`: a number, and where its adjoint is. -/
structure PropT (Scalar Address : Type) where
  v : Scalar
  dv : Address
  deriving DecidableEq

/-! ### Memory -/

/-- The global variables `x` and `result`. -/
inductive Global
  | x
  | result

/-- Accesses to memory. A new object is a variable of a block that is entered, or comes from
`malloc`; it is released at the end of the block or by `free`. -/
inductive Access (Scalar Address : Type)
  | newDouble
  | newProp
  | loadDouble (address : Address)
  | storeDouble (address : Address) (value : Scalar)
  | loadProp (address : Address)
  | storeProp (address : Address) (value : PropT Scalar Address)
  | releaseDouble (address : Address)
  | releaseProp (address : Address)
  /-- Where a global variable is, or where it points to. -/
  | global (name : Global)
  | setGlobal (name : Global) (address : Address)
  /-- A function of the coroutine returns: the lifetime of its variable is over, and its bytes stay
  on the stack of the coroutine. -/
  | leave (address : Address)
  /-- `seff_coroutine_delete(child)` -/
  | deleteStack
  | print (value : Scalar)

@[reducible] def Access.Answer {Scalar Address : Type} : Access Scalar Address → Type
  | .newDouble | .newProp | .global _ => Address
  | .loadDouble _ => Scalar
  | .loadProp _ => PropT Scalar Address
  | _ => Unit

/-- What a function does that only accesses memory. -/
abbrev MemoryCode (Scalar Address Result : Type) :=
  Program (Access Scalar Address) Access.Answer Result

/-- An effect that is performed, or an access to memory. -/
inductive Call (Scalar Address Arg : Type)
  | perform (request : Smooth Scalar Arg)
  | access (memory : Access Scalar Address)

@[reducible] def Call.Answer {Scalar Address Arg : Type} (Ret : Type) :
    Call Scalar Address Arg → Type
  | .perform _ => Ret
  | .access memory => memory.Answer

/-- What a function does that performs effects with operands and answers of given types. -/
abbrev Code (Scalar Address Arg Ret Result : Type) :=
  Program (Call Scalar Address Arg) (Call.Answer Ret) Result

/-- A coroutine in terms of the operations only. -/
abbrev Client (Scalar Arg Result : Type) := Program (Smooth Scalar Arg) (fun _ ↦ Arg) Result

variable {Scalar Address Arg Ret Result : Type}

/-- Accesses of a function that performs effects, too. -/
def accesses : MemoryCode Scalar Address Result → Code Scalar Address Arg Ret Result
  | .done result => .done result
  | .call memory next => .call (.access memory) fun answer ↦ accesses (next answer)

def access (memory : Access Scalar Address) : Code Scalar Address Arg Ret memory.Answer :=
  ask (Call.Answer Ret) (.access memory)

/-! ### Arithmetic by effects -/

/-- `e_c`. -/
def eC (x : Scalar) : Code Scalar Address Scalar Scalar Scalar :=
  ask (Call.Answer Scalar) (.perform (.ap0 x))

/-- `e_n`. -/
def eN (x : Scalar) : Code Scalar Address Scalar Scalar Scalar :=
  ask (Call.Answer Scalar) (.perform (.ap1 .negateOp x))

/-- `e_a`. -/
def eA (x y : Scalar) : Code Scalar Address Scalar Scalar Scalar :=
  ask (Call.Answer Scalar) (.perform (.ap2 .addOp x y))

/-- `e_m`. -/
def eM (x y : Scalar) : Code Scalar Address Scalar Scalar Scalar :=
  ask (Call.Answer Scalar) (.perform (.ap2 .multiplyOp x y))

/-- `evaluate`. The function that performs the effect reads `value` as soon as it is resumed. -/
def evaluate [Neg Scalar] [Add Scalar] [Mul Scalar] :
    Code Scalar Address Scalar Scalar Result → MemoryCode Scalar Address Result
  | .done result => .done result
  | .call (.perform (.ap0 value)) next => evaluate (next value)
  | .call (.perform (.ap1 .negateOp arg1)) next => evaluate (next (-arg1))
  | .call (.perform (.ap2 .addOp arg1 arg2)) next => evaluate (next (arg1 + arg2))
  | .call (.perform (.ap2 .multiplyOp arg1 arg2)) next => evaluate (next (arg1 * arg2))
  | .call (.access memory) next => .call memory fun answer ↦ evaluate (next answer)

/-! ### The operations of a coroutine -/

/-- `r_c`. -/
def rC (x : Scalar) : Client Scalar Arg Arg := ask (fun _ ↦ Arg) (.ap0 x)

/-- `r_n`. -/
def rN (x : Arg) : Client Scalar Arg Arg := ask (fun _ ↦ Arg) (.ap1 .negateOp x)

/-- `r_a`. -/
def rA (x y : Arg) : Client Scalar Arg Arg := ask (fun _ ↦ Arg) (.ap2 .addOp x y)

/-- `r_m`. -/
def rM (x y : Arg) : Client Scalar Arg Arg := ask (fun _ ↦ Arg) (.ap2 .multiplyOp x y)

/-- The loop of `example`. -/
def exampleLoop [One Scalar] [Neg Scalar] (x : Arg) : ℕ → Arg → Arg → Client Scalar Arg Arg
  | 0, acc, _ => return acc
  | iters + 1, acc, prev => do
    let prev ← rM prev (← rN (← rA x (← rC (-1))))
    let acc ← rA acc prev
    exampleLoop x iters acc prev

/-- What `example` computes from `x`. -/
def exampleClient [One Scalar] [Neg Scalar] (iters : ℕ) (x : Arg) : Client Scalar Arg Arg := do
  let acc ← rC 1
  let prev ← rC 1
  exampleLoop x iters acc prev

/-! ### The handler -/

/-- What the variants of the programs do differently. -/
structure Variant (Scalar Address Arg : Type) where
  /-- What a coroutine makes of a pointer to a pair: `*PERFORM(…)` or `PERFORM(…)`, `x` or `&x`. -/
  received : Address → MemoryCode Scalar Address Arg
  /-- `payload.arg1` or `*payload.arg1`. -/
  deref : Arg → MemoryCode Scalar Address (PropT Scalar Address)
  /-- The variables `dv` and `r` of `handle`, or what they point to, where a number is computed. -/
  opens : Code Scalar Address Scalar Scalar Scalar →
    Code Scalar Address Scalar Scalar (Address × Address)

/-- The end of the block of `dv` and `r`, or their `free`. -/
def closes (dv r : Address) : Code Scalar Address Arg Ret Unit := do
  access (.releaseDouble dv)
  access (.releaseProp r)

/-- The number `v` of an operation, as `handle` computes it. -/
def Smooth.computes (variant : Variant Scalar Address Arg) :
    Smooth Scalar Arg → Code Scalar Address Scalar Scalar Scalar
  | .ap0 value => eC value
  | .ap1 .negateOp arg1 => do
    eN (← accesses (variant.deref arg1)).v
  | .ap2 op arg1 arg2 => do
    let v1 := (← accesses (variant.deref arg1)).v
    let v2 := (← accesses (variant.deref arg2)).v
    match op with
    | .addOp => eA v1 v2
    | .multiplyOp => eM v1 v2

/-- What `handle` adds to the adjoints of the operands, when the adjoint of the result is at an
address. -/
def Smooth.contributes (variant : Variant Scalar Address Arg) (dv : Address) :
    Smooth Scalar Arg → Code Scalar Address Scalar Scalar Unit
  | .ap0 _ => return
  | .ap1 .negateOp arg1 => do
    let dx := (← accesses (variant.deref arg1)).dv
    access (.storeDouble dx
      (← eA (← access (.loadDouble dx)) (← eN (← access (.loadDouble dv)))))
  | .ap2 op arg1 arg2 => do
    let x := (← accesses (variant.deref arg1)).v
    let y := (← accesses (variant.deref arg2)).v
    let dx := (← accesses (variant.deref arg1)).dv
    let dy := (← accesses (variant.deref arg2)).dv
    match op with
    | .addOp =>
      access (.storeDouble dx (← eA (← access (.loadDouble dx)) (← access (.loadDouble dv))))
      access (.storeDouble dy (← eA (← access (.loadDouble dy)) (← access (.loadDouble dv))))
    | .multiplyOp =>
      access (.storeDouble dx
        (← eA (← access (.loadDouble dx)) (← eM y (← access (.loadDouble dv)))))
      access (.storeDouble dy
        (← eA (← access (.loadDouble dy)) (← eM x (← access (.loadDouble dv)))))

/-- `handle`, for a coroutine that goes on in the given way. The cases of the effects differ in what
they compute and in what they add to the adjoints. -/
def handle [One Scalar] (variant : Variant Scalar Address Arg) :
    Code Scalar Address Arg Address Unit → Code Scalar Address Scalar Scalar Unit
  | .done () => do
    let result ← access (.loadProp (← access (.global .result)))
    access (.storeDouble result.dv 1)
  | .call (.access memory) next => .call (.access memory) fun answer ↦ handle variant (next answer)
  | .call (.perform request) next => do
    let (dv, r) ← variant.opens (request.computes variant)
    handle variant (next r)
    request.contributes variant dv
    closes dv r

/-- A coroutine performs its operations, and goes on with what it makes of each answer. -/
def Variant.perform (variant : Variant Scalar Address Arg) :
    Client Scalar Arg Arg → Code Scalar Address Arg Address Arg
  | .done result => .done result
  | .call request next => do
    let r ← ask (Call.Answer Address) (.perform request)
    variant.perform (next (← accesses (variant.received r)))

/-! ### Variables of blocks: `no_alloc.c` and `indirect_prop_t.c` -/

section Blocks

variable [Zero Scalar] [One Scalar]

/-- `double dv = 0.0; prop_t r = {v, &dv};` after `v` has been computed. -/
def opensBlock (v : Code Scalar Address Scalar Scalar Scalar) :
    Code Scalar Address Scalar Scalar (Address × Address) := do
  let v ← v
  let dv ← access .newDouble
  access (.storeDouble dv 0)
  let r ← access .newProp
  access (.storeProp r ⟨v, dv⟩)
  return (dv, r)

/-- `no_alloc.c`. -/
def noAlloc : Variant Scalar Address (PropT Scalar Address) where
  received r := ask Access.Answer (.loadProp r)
  deref arg := return arg
  opens := opensBlock

/-- `indirect_prop_t.c`. -/
def indirectPropT : Variant Scalar Address Address where
  received r := return r
  deref arg := ask Access.Answer (.loadProp arg)
  opens := opensBlock

/-- `example`, for a number `x₀` and what is computed from `x`. -/
def Variant.example' (variant : Variant Scalar Address Arg) (x₀ : Scalar)
    (client : Arg → Client Scalar Arg Arg) : Code Scalar Address Arg Address Unit := do
  let dx ← access .newDouble
  access (.storeDouble dx 0)
  let x ← access (.global .x)
  access (.storeProp x ⟨x₀, dx⟩)
  let acc ← variant.perform (client (← accesses (variant.received x)))
  let result ← access (.global .result)
  access (.storeProp result (← accesses (variant.deref acc)))
  access (.leave dx)

/-- `reverse`. -/
def Variant.reverse (variant : Variant Scalar Address Arg) (x₀ : Scalar)
    (client : Arg → Client Scalar Arg Arg) : Code Scalar Address Scalar Scalar Unit := do
  handle variant (variant.example' x₀ client)
  let x ← access (.loadProp (← access (.global .x)))
  access (.print (← access (.loadDouble x.dv)))
  access .deleteStack

/-- `main`. -/
def Variant.main [Neg Scalar] [Add Scalar] [Mul Scalar] (variant : Variant Scalar Address Arg)
    (x₀ : Scalar) (client : Arg → Client Scalar Arg Arg) : MemoryCode Scalar Address Unit :=
  evaluate (variant.reverse x₀ client)

/-! ### The heap: `naive.c` -/

/-- `dv` and `r` come from `malloc`, one before and one after `v` is computed. -/
def opensHeap (v : Code Scalar Address Scalar Scalar Scalar) :
    Code Scalar Address Scalar Scalar (Address × Address) := do
  let dv ← access .newDouble
  access (.storeDouble dv 0)
  let v ← v
  let r ← access .newProp
  access (.storeProp r ⟨v, dv⟩)
  return (dv, r)

/-- `naive.c`. -/
def naive : Variant Scalar Address (PropT Scalar Address) where
  received r := ask Access.Answer (.loadProp r)
  deref arg := return arg
  opens := opensHeap

/-- `example` of `naive.c`. While it runs, nothing is stored in `*x`. -/
def naiveExample (x₀ : Scalar)
    (client : PropT Scalar Address → Client Scalar (PropT Scalar Address) (PropT Scalar Address)) :
    Code Scalar Address (PropT Scalar Address) Address Unit := do
  let x ← access .newProp
  access (.setGlobal .x x)
  let dx ← access .newDouble
  access (.storeDouble dx 0)
  access (.storeProp x ⟨x₀, dx⟩)
  let acc ← naive.perform (client (← accesses (naive.received x)))
  let result ← access .newProp
  access (.setGlobal .result result)
  access (.storeProp result acc)

/-- `reverse` of `naive.c`. -/
def naiveReverse (x₀ : Scalar)
    (client : PropT Scalar Address → Client Scalar (PropT Scalar Address) (PropT Scalar Address)) :
    Code Scalar Address Scalar Scalar Unit := do
  handle naive (naiveExample x₀ client)
  let x ← access (.loadProp (← access (.global .x)))
  access (.print (← access (.loadDouble x.dv)))
  access (.releaseDouble (← access (.loadProp (← access (.global .x)))).dv)
  access (.releaseProp (← access (.global .x)))
  access .deleteStack

/-- `main` of `naive.c`. -/
def naiveMain [Neg Scalar] [Add Scalar] [Mul Scalar] (x₀ : Scalar)
    (client : PropT Scalar Address → Client Scalar (PropT Scalar Address) (PropT Scalar Address)) :
    MemoryCode Scalar Address Unit :=
  evaluate (naiveReverse x₀ client)

end Blocks

/-! ### Objects -/

/-- The objects with their contents, where there are any yet. -/
structure Memory (Scalar Address : Type) where
  doubles : Address → Option (Option Scalar)
  props : Address → Option (Option (PropT Scalar Address))
  /-- Where the global variables are, or where they point to. -/
  globals : Global → Option Address
  /-- The variables on the stack of the coroutine whose lifetime is over. -/
  left : List Address
  printed : List Scalar

section Accesses

variable [DecidableEq Address]

def Memory.setDouble (memory : Memory Scalar Address) (address : Address)
    (content : Option (Option Scalar)) : Memory Scalar Address :=
  { memory with doubles := Function.update memory.doubles address content }

def Memory.setProp (memory : Memory Scalar Address) (address : Address)
    (content : Option (Option (PropT Scalar Address))) : Memory Scalar Address :=
  { memory with props := Function.update memory.props address content }

/-- What an access does. A new object gets an address that no other one of its type has. -/
def Access.Does (memory : Memory Scalar Address) :
    (access : Access Scalar Address) → access.Answer → Memory Scalar Address → Prop
  | .newDouble, address, after =>
    memory.doubles address = none ∧ after = memory.setDouble address (some none)
  | .newProp, address, after =>
    memory.props address = none ∧ after = memory.setProp address (some none)
  | .loadDouble address, value, after =>
    memory.doubles address = some (some value) ∧ after = memory
  | .storeDouble address value, _, after => after = memory.setDouble address (some (some value))
  | .loadProp address, value, after => memory.props address = some (some value) ∧ after = memory
  | .storeProp address value, _, after => after = memory.setProp address (some (some value))
  | .releaseDouble address, _, after => after = memory.setDouble address none
  | .releaseProp address, _, after => after = memory.setProp address none
  | .global name, address, after => memory.globals name = some address ∧ after = memory
  | .setGlobal .x address, _, after => after = { memory with
      globals := fun
        | .x => some address
        | .result => memory.globals .result }
  | .setGlobal .result address, _, after => after = { memory with
      globals := fun
        | .x => memory.globals .x
        | .result => some address }
  | .leave address, _, after => after = { memory with left := address :: memory.left }
  | .deleteStack, _, after => after = { memory with
      doubles := fun address ↦ if address ∈ memory.left then none else memory.doubles address
      left := [] }
  | .print value, _, after => after = { memory with printed := memory.printed ++ [value] }

/-- An access is to an object that is there, and reads only what has been stored. -/
def Access.Valid (memory : Memory Scalar Address) : Access Scalar Address → Prop
  | .loadDouble address => ∃ value, memory.doubles address = some (some value)
  | .storeDouble address _ | .releaseDouble address => memory.doubles address ≠ none
  | .loadProp address => ∃ value, memory.props address = some (some value)
  | .storeProp address _ | .releaseProp address => memory.props address ≠ none
  | .global name => memory.globals name ≠ none
  | .leave address => memory.doubles address ≠ none
  | _ => True

/-- The memory of the programs. -/
def memoryOf :
    Surroundings (Access Scalar Address) Access.Answer (Memory Scalar Address) Empty where
  answers := Access.Does
  happens _ event _ := event.elim

end Accesses

end Libseff.Ad
