import Libseff.Ad.AdjointSweep

/-!
# The programs for differentiation as a whole

From the start of `main` to its end, with the variables of blocks or with the heap. `example` stores
`x` before its operations and `result` after them, which sets the adjoint of the result; `reverse`
prints the adjoint of `x` when `handle` has returned, and releases what is left (`Finished`).
-/

set_option autoImplicit false
set_option relaxedAutoImplicit false

namespace Libseff.Ad

open Foundation Foundation.SystemCalls

variable {Scalar Address Arg : Type}

section Handled

variable [DecidableEq Address]

/-! ### What `handle` leaves -/

/-- What `handle` leaves in the end: the adjoint of `x`, and the pairs of `x` and `result`. The
adjoint may be a variable on the stack of the coroutine, which has been left. -/
structure Handled (heap : Bool) (x₀ adjoint : Scalar) (memory : Memory Scalar Address)
    (dx : Address) : Prop where
  left : memory.left = if heap then [] else [dx]
  doubles : memory.doubles = Function.update (fun _ ↦ none) dx (some (some adjoint))
  globals : ∃ x r p, memory.globals .x = some x ∧ memory.globals .result = some r ∧
    memory.props = Function.update (Function.update (fun _ ↦ none) x (some (some ⟨x₀, dx⟩))) r
      (some (some p)) ∧ x ≠ r
  printed : memory.printed = []

/-- Assumes: before the operations of the coroutine, the adjoint of `x` is the only one, and there
are the pair of `x` and at most an empty one for `result`. -/
theorem Swept.handled [Zero Scalar] {heap : Bool} {x₀ : Scalar} {x dx : Address}
    {memory after : Memory Scalar Address} {adjoints : ℕ → Scalar}
    (hswept : Swept heap dx memory [dx] adjoints after)
    (hdoubles : memory.doubles = Function.update (fun _ ↦ none) dx (some (some 0)))
    (hx : memory.globals .x = some x) (hpair : memory.props x = some (some ⟨x₀, dx⟩))
    (hothers : ∀ r address, ResultAt heap memory r → address ≠ x → address ≠ r →
      memory.props address = none) (hprinted : memory.printed = []) :
    Handled heap x₀ (adjoints 0) after dx where
  left := hswept.left
  doubles := by
    funext address
    by_cases haddress : address = dx
    · subst haddress
      simpa using hswept.reflects 0 address rfl
    · rw [hswept.doubles address (by simpa using haddress), hdoubles]
      simp [haddress]
  globals := by
    obtain ⟨r, p, hresult, hglobal, hprops⟩ := hswept.result
    have hne : x ≠ r := fun heq ↦ hresult.ne_some _ (heq ▸ hpair)
    refine ⟨x, r, p, hswept.x.trans hx, hglobal, ?_, hne⟩
    funext address
    rw [hprops]
    by_cases haddress : address = r
    · simp [haddress]
    · by_cases hinput : address = x
      · subst hinput
        simp [haddress, hpair]
      · simp [haddress, hinput, hothers r address hresult hinput haddress]
  printed := hswept.printed.trans hprinted

end Handled

/-! ### The programs with variables of blocks -/

section Blocks

variable [DecidableEq Address] [Zero Scalar] [One Scalar] [Neg Scalar] [Add Scalar] [Mul Scalar]
  {variant : Variant Scalar Address Arg} {memory : Memory Scalar Address} {cells : List Address}
  {dx : Address}

/-- What `example` does when it has its result. -/
def Variant.exampleEnd (variant : Variant Scalar Address Arg) (dx : Address) (acc : Arg) :
    Code Scalar Address Arg Address Unit := do
  let result ← access (.global .result)
  access (.storeProp result (← accesses (variant.deref acc)))
  access (.leave dx)

omit [DecidableEq Address] [Zero Scalar] in
theorem evaluate_handle_exampleEnd (variant : Variant Scalar Address Arg) (dx : Address)
    (acc : Arg) :
    evaluate (handle variant (variant.exampleEnd dx acc)) =
      ask Access.Answer (.global .result) >>= fun result ↦ variant.deref acc >>= fun p ↦
        ask Access.Answer (.storeProp result p) >>= fun _ ↦
        ask Access.Answer (.leave dx) >>= fun _ ↦
        ask Access.Answer (.global .result) >>= fun result ↦
        ask Access.Answer (.loadProp result) >>= fun p ↦
        ask Access.Answer (.storeDouble p.dv 1) := by
  change (ask Access.Answer (.global .result) >>= fun result ↦
    evaluate (handle variant (accesses (variant.deref acc) >>= fun p ↦
      access (.storeProp result p) >>= fun _ ↦ access (.leave dx)))) = _
  simp only [handle_accesses_bind, evaluate_bind, evaluate_accesses]
  rfl

/-- Assumes: a coroutine with its result. It stores the result and leaves its variable, and `handle`
sets the adjoint of the result. -/
theorem Variant.Lawful.ensures_exampleEnd (lawful : variant.Lawful)
    {pairs : List ((Scalar × ℕ) × Arg)} {node : Scalar × ℕ} {acc : Arg}
    (hknows : Knows lawful memory cells pairs) (hacc : (node, acc) ∈ pairs)
    (hready : Ready false dx memory) (hdx : dx ∈ cells) :
    Ensures false
      (fun after _ ↦ Swept false dx memory cells (Function.update (fun _ ↦ 0) node.2 1) after)
      (evaluate (handle variant (variant.exampleEnd dx acc))) memory := by
  obtain ⟨dv, hdv, hstands⟩ := hknows.known node acc hacc
  obtain ⟨r, hr, hempty⟩ := hready.result rfl
  have htidy : Tidy false memory := tidy_of_nil hready.left
  set stored := memory.setProp r (some (some ⟨node.1, dv⟩)) with hstored
  have hgrows : memory.Grows stored := Memory.grows_setProp (by simp [hempty]) _
  set left := { stored with left := [dx] } with hleft
  have htidyLeft : Tidy false left := by
    intro address hmem
    obtain rfl := List.mem_singleton.mp hmem
    exact ⟨rfl, hready.input.of_grows ⟨hgrows.props, hgrows.x⟩⟩
  have hzero : Reflects memory.doubles cells fun _ ↦ 0 :=
    fun place cell hcell ↦ hknows.zero cell (List.mem_of_getElem? hcell)
  rw [evaluate_handle_exampleEnd]
  refine ensures_global hr htidy ?_
  refine (lawful.deref hstands htidy).bind fun after p hderef ↦ ?_
  obtain rfl : memory = after := hderef.1.symm
  obtain rfl : ⟨node.1, dv⟩ = p := hderef.2.symm
  refine ensures_storeProp (by simp [hempty]) htidy ?_
  refine ensures_access (by simp [Access.Valid, hknows.zero dx hdx]) (htidy.of_grows hgrows rfl) ?_
  rintro ⟨⟩ after hafter
  obtain rfl : after = left := hafter.trans (by simp [hleft, hstored, hready.left])
  refine ensures_global hr htidyLeft ?_
  have hloaded : left.props r = some (some ⟨node.1, dv⟩) := by simp [hleft, hstored]
  refine ensures_loadProp hloaded htidyLeft ?_
  refine ensures_ask_storeDouble (by simp [hleft, hstored, hzero _ _ hdv]) htidyLeft ?_
  exact {
    reflects := hzero.update hknows.nodup hdv 1
    doubles := fun address hnotMem ↦ by
      have hne : address ≠ dv := fun heq ↦ hnotMem (heq ▸ List.mem_of_getElem? hdv)
      simp [hleft, hstored, hne]
    result := ⟨r, ⟨node.1, dv⟩, by simp [ResultAt, hr, hempty], hr, rfl⟩
    x := rfl
    left := rfl
    printed := rfl }

omit [DecidableEq Address] in
theorem evaluate_handle_example (variant : Variant Scalar Address Arg) (x₀ : Scalar)
    (client : Arg → Client Scalar Arg Arg) :
    evaluate (handle variant (variant.example' x₀ client)) =
      ask Access.Answer .newDouble >>= fun dx ↦
        ask Access.Answer (.storeDouble dx 0) >>= fun _ ↦
        ask Access.Answer (.global .x) >>= fun x ↦
        ask Access.Answer (.storeProp x ⟨x₀, dx⟩) >>= fun _ ↦
        variant.received x >>= fun arg ↦
        evaluate (handle variant (variant.perform (client arg) >>= variant.exampleEnd dx)) := by
  change (ask Access.Answer .newDouble >>= fun dx ↦
    ask Access.Answer (.storeDouble dx 0) >>= fun _ ↦
    ask Access.Answer (.global .x) >>= fun x ↦
    ask Access.Answer (.storeProp x ⟨x₀, dx⟩) >>= fun _ ↦
    evaluate (handle variant (accesses (variant.received x) >>= fun arg ↦
      variant.perform (client arg) >>= variant.exampleEnd dx))) = _
  simp only [handle_accesses_bind, evaluate_bind, evaluate_accesses]

omit [DecidableEq Address] in
theorem main_eq (variant : Variant Scalar Address Arg) (x₀ : Scalar)
    (client : Arg → Client Scalar Arg Arg) :
    variant.main x₀ client =
      evaluate (handle variant (variant.example' x₀ client)) >>= fun _ ↦
        ask Access.Answer (.global .x) >>= fun x ↦
        ask Access.Answer (.loadProp x) >>= fun p ↦
        ask Access.Answer (.loadDouble p.dv) >>= fun value ↦
        ask Access.Answer (.print value) >>= fun _ ↦
        ask Access.Answer .deleteStack := by
  simp only [Variant.main, Variant.reverse, evaluate_bind]
  rfl

/-- Before `main`: the two global variables, and nothing else. -/
structure StartsInBlocks (memory : Memory Scalar Address) : Prop where
  globals : ∃ x r, x ≠ r ∧ memory.globals .x = some x ∧ memory.globals .result = some r ∧
    memory.props = Function.update (Function.update (fun _ ↦ none) x (some none)) r (some none)
  doubles : memory.doubles = fun _ ↦ none
  left : memory.left = []
  printed : memory.printed = []

/-- Assumes: a coroutine that only passes its operands on. `handle` leaves the adjoint of `x` in
memory, and nothing of its frames. -/
theorem Variant.Lawful.ensures_example (lawful : variant.Lawful) {client : Family Scalar}
    (hclient : Parametric client) (x₀ : Scalar) (hstart : StartsInBlocks memory) :
    Ensures false
      (fun after _ ↦ ∃ dx,
        Handled false x₀ (backward (client (Scalar × ℕ) (x₀, 0)) 1 0) after dx)
      (evaluate (handle variant (variant.example' x₀ (client Arg)))) memory := by
  obtain ⟨x, r, hne, hx, hr, hprops⟩ := hstart.globals
  have htidy : Tidy false memory := tidy_of_nil hstart.left
  rw [evaluate_handle_example]
  refine ensures_newDouble htidy fun dx _ ↦ ?_
  refine ensures_storeDouble (by simp) (tidy_of_nil hstart.left) ?_
  rw [Memory.setDouble_setDouble]
  refine ensures_global (by exact hx) (tidy_of_nil hstart.left) ?_
  refine ensures_storeProp (by simp [hprops, hne]) (tidy_of_nil hstart.left) ?_
  set stored := (memory.setDouble dx (some (some 0))).setProp x (some (some ⟨x₀, dx⟩)) with hstored
  have hpair : stored.props x = some (some ⟨x₀, dx⟩) := by simp [hstored]
  refine (lawful.received hpair (tidy_of_nil hstart.left)).bind fun after arg hreceived ↦ ?_
  obtain rfl : stored = after := hreceived.1.symm
  have hknows : Knows lawful stored [dx] [((x₀, 0), arg)] :=
    { nodup := List.nodup_singleton dx
      zero := fun cell hcell ↦ by simp [hstored, List.mem_singleton.mp hcell]
      known := fun node other hmem ↦ by
        obtain ⟨rfl, rfl⟩ := Prod.mk.inj (List.mem_singleton.mp hmem)
        exact ⟨dx, rfl, hreceived.2⟩ }
  have hready : Ready false dx stored :=
    { left := hstart.left
      input := ⟨x, x₀, hx, hpair⟩
      result := fun _ ↦ ⟨r, hr, by simp [hstored, hne.symm, hprops]⟩ }
  refine (lawful.ensures_handle (fun memory cells pairs node acc hknows hacc hready hdx ↦
    lawful.ensures_exampleEnd hknows hacc hready hdx) (hclient _ _ _ _) hknows hready
    List.mem_cons_self).mono fun last _ hswept ↦ ⟨dx, hswept.handled ?_ hx hpair ?_ hstart.printed⟩
  · simp [hstored, hstart.doubles]
  · intro result address hresult hinput hother
    have hglobalBefore : stored.globals .result = some result ∧ stored.props result = some none :=
      hresult
    obtain rfl : r = result := Option.some_inj.mp (hr.symm.trans hglobalBefore.1)
    simp [hstored, hprops, hinput, hother]

/-- At the end of `main`: the adjoint of `x` has been printed, and of all objects only the global
variables are left, or `*result` on the heap. -/
structure Finished (heap : Bool) (adjoint : Scalar) (memory : Memory Scalar Address) : Prop where
  printed : memory.printed = [adjoint]
  doubles : memory.doubles = fun _ ↦ none
  props : ∀ address, memory.props address ≠ none ↔
    memory.globals .result = some address ∨ heap = false ∧ memory.globals .x = some address
  left : memory.left = []

/-- Assumes: a coroutine that only passes its operands on. `main` prints the adjoint of `x`. -/
theorem Variant.Lawful.ensures_main (lawful : variant.Lawful) {client : Family Scalar}
    (hclient : Parametric client) (x₀ : Scalar) (hstart : StartsInBlocks memory) :
    Ensures false
      (fun after _ ↦ Finished false (backward (client (Scalar × ℕ) (x₀, 0)) 1 0) after)
      (variant.main x₀ (client Arg)) memory := by
  rw [main_eq]
  refine (lawful.ensures_example hclient x₀ hstart).bind fun after _ ⟨dx, hhandled⟩ ↦ ?_
  obtain ⟨x, r, p, hx, hr, hprops, hne⟩ := hhandled.globals
  have hx₀ : after.props x = some (some ⟨x₀, dx⟩) := by simp [hprops, hne]
  have hadjoint : after.doubles dx =
      some (some (backward (client (Scalar × ℕ) (x₀, 0)) 1 0)) := by
    simp [hhandled.doubles]
  have htidy : Tidy false after := by
    intro address hmem
    obtain rfl : address = dx := by simpa [hhandled.left] using hmem
    exact ⟨rfl, x, x₀, hx, hx₀⟩
  refine ensures_global hx htidy ?_
  refine ensures_loadProp hx₀ htidy ?_
  refine ensures_loadDouble hadjoint htidy ?_
  refine ensures_access trivial htidy ?_
  rintro ⟨⟩ printed rfl
  rw [← Program.bind_done (ask Access.Answer .deleteStack)]
  refine ensures_access trivial (htidy.of_grows ⟨fun _ _ h ↦ h, rfl⟩ rfl) ?_
  rintro ⟨⟩ last rfl
  refine ensures_done {
    printed := by simp [hhandled.printed]
    doubles := by
      funext address
      by_cases haddress : address = dx <;> simp [hhandled.left, hhandled.doubles, haddress]
    props := fun address ↦ ?_
    left := rfl }
  simp only [hprops, hx, hr, Option.some_inj, true_and]
  by_cases hresult : address = r
  · simp [hresult]
  · by_cases hinput : address = x
    · subst hinput
      simp [hresult]
    · simp [hresult, hinput, Ne.symm hresult, Ne.symm hinput]

end Blocks

/-! ### The program with a heap -/

section Heap

variable [DecidableEq Address] [Zero Scalar] [One Scalar] [Neg Scalar] [Add Scalar] [Mul Scalar]
  {memory : Memory Scalar Address} {cells : List Address} {dx : Address}

/-- What `example` of `naive.c` does when it has its result. -/
def naiveExampleEnd (acc : PropT Scalar Address) :
    Code Scalar Address (PropT Scalar Address) Address Unit := do
  let result ← access .newProp
  access (.setGlobal .result result)
  access (.storeProp result acc)

omit [DecidableEq Address] in
theorem evaluate_handle_naiveExampleEnd (acc : PropT Scalar Address) :
    evaluate (handle naive (naiveExampleEnd acc)) =
      ask Access.Answer .newProp >>= fun result ↦
        ask Access.Answer (.setGlobal .result result) >>= fun _ ↦
        ask Access.Answer (.storeProp result acc) >>= fun _ ↦
        ask Access.Answer (.global .result) >>= fun result ↦
        ask Access.Answer (.loadProp result) >>= fun p ↦
        ask Access.Answer (.storeDouble p.dv 1) := rfl

/-- Assumes: a coroutine with its result. It stores the result in a new object, and `handle` sets
the adjoint of the result. -/
theorem ensures_naiveExampleEnd {pairs : List ((Scalar × ℕ) × PropT Scalar Address)}
    {node : Scalar × ℕ} {acc : PropT Scalar Address}
    (hknows : Knows naive_lawful memory cells pairs) (hacc : (node, acc) ∈ pairs)
    (hready : Ready true dx memory) :
    Ensures true
      (fun after _ ↦ Swept true dx memory cells (Function.update (fun _ ↦ 0) node.2 1) after)
      (evaluate (handle naive (naiveExampleEnd acc))) memory := by
  obtain ⟨dv, hdv, hstands⟩ := hknows.known node acc hacc
  obtain rfl : acc = ⟨node.1, dv⟩ := hstands
  have htidy {later : Memory Scalar Address} (hleft : later.left = memory.left) :
      Tidy true later := tidy_of_nil (hleft.trans hready.left)
  have hzero : Reflects memory.doubles cells fun _ ↦ 0 :=
    fun place cell hcell ↦ hknows.zero cell (List.mem_of_getElem? hcell)
  rw [evaluate_handle_naiveExampleEnd]
  refine ensures_newProp (htidy rfl) fun r hr ↦ ?_
  refine ensures_access trivial (htidy rfl) ?_
  rintro ⟨⟩ _ rfl
  refine ensures_storeProp (by simp) (htidy rfl) ?_
  set stored := Memory.setProp _ r _ with hstored
  have hglobal : stored.globals .result = some r := rfl
  have hpair : stored.props r = some (some ⟨node.1, dv⟩) := by simp [hstored]
  refine ensures_global hglobal (htidy rfl) ?_
  refine ensures_loadProp hpair (htidy rfl) ?_
  have hadjoint : stored.doubles dv ≠ none := by simp [hstored, hzero _ _ hdv]
  refine ensures_ask_storeDouble hadjoint (htidy rfl) ?_
  exact {
    reflects := hzero.update hknows.nodup hdv 1
    doubles := fun address hnotMem ↦ by
      have hne : address ≠ dv := fun heq ↦ hnotMem (heq ▸ List.mem_of_getElem? hdv)
      simp [hstored, hne]
    result := ⟨r, ⟨node.1, dv⟩, hr, hglobal, by simp [hstored]⟩
    x := rfl
    left := hready.left
    printed := rfl }

omit [DecidableEq Address] in
theorem evaluate_handle_naiveExample (x₀ : Scalar)
    (client : PropT Scalar Address → Client Scalar (PropT Scalar Address) (PropT Scalar Address)) :
    evaluate (handle naive (naiveExample x₀ client)) =
      ask Access.Answer .newProp >>= fun x ↦
        ask Access.Answer (.setGlobal .x x) >>= fun _ ↦
        ask Access.Answer .newDouble >>= fun dx ↦
        ask Access.Answer (.storeDouble dx 0) >>= fun _ ↦
        ask Access.Answer (.storeProp x ⟨x₀, dx⟩) >>= fun _ ↦
        naive.received x >>= fun arg ↦
        evaluate (handle naive (naive.perform (client arg) >>= naiveExampleEnd)) := rfl

omit [DecidableEq Address] in
theorem naiveMain_eq (x₀ : Scalar)
    (client : PropT Scalar Address → Client Scalar (PropT Scalar Address) (PropT Scalar Address)) :
    naiveMain x₀ client =
      evaluate (handle naive (naiveExample x₀ client)) >>= fun _ ↦
        ask Access.Answer (.global .x) >>= fun x ↦
        ask Access.Answer (.loadProp x) >>= fun p ↦
        ask Access.Answer (.loadDouble p.dv) >>= fun value ↦
        ask Access.Answer (.print value) >>= fun _ ↦
        ask Access.Answer (.global .x) >>= fun x ↦
        ask Access.Answer (.loadProp x) >>= fun p ↦
        ask Access.Answer (.releaseDouble p.dv) >>= fun _ ↦
        ask Access.Answer (.global .x) >>= fun x ↦
        ask Access.Answer (.releaseProp x) >>= fun _ ↦
        ask Access.Answer .deleteStack := by
  simp only [naiveMain, naiveReverse, evaluate_bind]
  rfl

/-- Before `main` of `naive.c`: nothing. -/
structure StartsOnHeap (memory : Memory Scalar Address) : Prop where
  props : memory.props = fun _ ↦ none
  doubles : memory.doubles = fun _ ↦ none
  left : memory.left = []
  printed : memory.printed = []

theorem ensures_naiveExample {client : Family Scalar} (hclient : Parametric client) (x₀ : Scalar)
    (hstart : StartsOnHeap memory) :
    Ensures true
      (fun after _ ↦ ∃ dx,
        Handled true x₀ (backward (client (Scalar × ℕ) (x₀, 0)) 1 0) after dx)
      (evaluate (handle naive (naiveExample x₀ (client (PropT Scalar Address))))) memory := by
  have htidy {later : Memory Scalar Address} (hleft : later.left = memory.left) :
      Tidy true later := tidy_of_nil (hleft.trans hstart.left)
  rw [evaluate_handle_naiveExample]
  refine ensures_newProp (htidy rfl) fun x _ ↦ ?_
  refine ensures_access trivial (htidy rfl) ?_
  rintro ⟨⟩ _ rfl
  refine ensures_newDouble (htidy rfl) fun dx _ ↦ ?_
  refine ensures_storeDouble (by simp) (htidy rfl) ?_
  rw [Memory.setDouble_setDouble]
  refine ensures_storeProp (by simp) (htidy rfl) ?_
  set stored := Memory.setProp _ x (some (some ⟨x₀, dx⟩)) with hstored
  have hpair : stored.props x = some (some ⟨x₀, dx⟩) := by simp [hstored]
  have hx : stored.globals .x = some x := rfl
  refine (naive_lawful.received hpair (htidy rfl)).bind fun after arg hreceived ↦ ?_
  obtain rfl : stored = after := hreceived.1.symm
  have hknows : Knows naive_lawful stored [dx] [((x₀, 0), arg)] :=
    { nodup := List.nodup_singleton dx
      zero := fun cell hcell ↦ by simp [hstored, List.mem_singleton.mp hcell]
      known := fun node other hmem ↦ by
        obtain ⟨rfl, rfl⟩ := Prod.mk.inj (List.mem_singleton.mp hmem)
        exact ⟨dx, rfl, hreceived.2⟩ }
  have hready : Ready true dx stored :=
    { left := hstart.left
      input := ⟨x, x₀, hx, hpair⟩
      result := fun h ↦ Bool.noConfusion h }
  refine (naive_lawful.ensures_handle (fun memory cells pairs node acc hknows hacc hready _ ↦
    ensures_naiveExampleEnd hknows hacc hready) (hclient _ _ _ _) hknows hready
    List.mem_cons_self).mono fun last _ hswept ↦ ⟨dx, hswept.handled ?_ hx hpair ?_ hstart.printed⟩
  · simp [hstored, hstart.doubles]
  · intro _ address _ hinput _
    simp [hstored, hstart.props, hinput]

/-- Assumes: a coroutine that only passes its operands on. `main` of `naive.c` prints the adjoint of
`x`, and all objects but `*result` have been released. -/
theorem ensures_naiveMain {client : Family Scalar} (hclient : Parametric client) (x₀ : Scalar)
    (hstart : StartsOnHeap memory) :
    Ensures true
      (fun after _ ↦ Finished true (backward (client (Scalar × ℕ) (x₀, 0)) 1 0) after)
      (naiveMain x₀ (client (PropT Scalar Address))) memory := by
  rw [naiveMain_eq]
  refine (ensures_naiveExample hclient x₀ hstart).bind fun after _ ⟨dx, hhandled⟩ ↦ ?_
  obtain ⟨x, r, p, hx, hr, hprops, hne⟩ := hhandled.globals
  have hx₀ : after.props x = some (some ⟨x₀, dx⟩) := by simp [hprops, hne]
  have hadjoint : after.doubles dx =
      some (some (backward (client (Scalar × ℕ) (x₀, 0)) 1 0)) := by
    simp [hhandled.doubles]
  have htidy {later : Memory Scalar Address} (hleft : later.left = after.left) :
      Tidy true later := tidy_of_nil (hleft.trans hhandled.left)
  refine ensures_global hx (htidy rfl) ?_
  refine ensures_loadProp hx₀ (htidy rfl) ?_
  refine ensures_loadDouble hadjoint (htidy rfl) ?_
  refine ensures_access trivial (htidy rfl) ?_
  rintro ⟨⟩ printed rfl
  refine ensures_global hx (htidy rfl) ?_
  refine ensures_loadProp hx₀ (htidy rfl) ?_
  refine ensures_releaseDouble (by simp [hadjoint]) (htidy rfl) ?_
  refine ensures_global hx (htidy rfl) ?_
  refine ensures_releaseProp (by simp [hx₀]) (htidy rfl) ?_
  rw [← Program.bind_done (ask Access.Answer .deleteStack)]
  refine ensures_access trivial (htidy rfl) ?_
  rintro ⟨⟩ last rfl
  refine ensures_done {
    printed := by simp [hhandled.printed]
    doubles := by
      funext address
      by_cases haddress : address = dx <;> simp [hhandled.left, hhandled.doubles, haddress]
    props := fun address ↦ ?_
    left := rfl }
  by_cases hresult : address = r
  · subst hresult
    simp [hprops, hr, hne.symm]
  · by_cases hinput : address = x <;>
      simp [hprops, hr, hresult, hinput, Ne.symm hresult, hne.symm]

end Heap

end Libseff.Ad
