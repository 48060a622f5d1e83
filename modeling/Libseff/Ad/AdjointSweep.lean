import Libseff.Ad.HandlerMemory

/-!
# The sweep over the adjoints

What `handle` does, in terms of memory. It opens a frame for an operation, handles what the
coroutine does next, and then adds what the operation contributes to the adjoints of its operands
(`ensures_contributes`) and closes the frame (`Swept.closed`). By induction on what the coroutine
does, the cells of the adjoints end up with those of `backward` (`ensures_handle`): an operation
that comes later has its cell above them, and has added to them before its frame was closed.
-/

set_option autoImplicit false
set_option relaxedAutoImplicit false

namespace Libseff.Ad

open Foundation Foundation.SystemCalls

variable {Scalar Address Arg : Type}

/-! ### Adding to adjoints -/

section Contributions

variable {heap : Bool} {memory after : Memory Scalar Address} {cells : List Address}
  {adjoints : ℕ → Scalar}

/-- Only doubles have changed: the cells hold given adjoints, and the others what they held. -/
structure Contributed (memory after : Memory Scalar Address) (cells : List Address)
    (adjoints : ℕ → Scalar) : Prop where
  rest : after = { memory with doubles := after.doubles }
  reflects : Reflects after.doubles cells adjoints
  doubles : ∀ address ∉ cells, after.doubles address = memory.doubles address

theorem Contributed.grows (hcontributed : Contributed memory after cells adjoints) :
    memory.Grows after := by
  rw [hcontributed.rest]
  exact ⟨fun _ _ h ↦ h, rfl⟩

theorem Contributed.tidy (hcontributed : Contributed memory after cells adjoints)
    (htidy : Tidy heap memory) : Tidy heap after :=
  htidy.of_grows hcontributed.grows (by rw [hcontributed.rest])

/-- Assumes: distinct cells. A store in one of them changes its adjoint. -/
theorem Contributed.setDouble [DecidableEq Address]
    (hcontributed : Contributed memory after cells adjoints)
    (hnodup : cells.Nodup) {place : ℕ} {address : Address} (hcell : cells[place]? = some address)
    (value : Scalar) :
    Contributed memory (after.setDouble address (some (some value))) cells
      (Function.update adjoints place value) where
  rest := by
    rw [hcontributed.rest]
    rfl
  reflects := hcontributed.reflects.update hnodup hcell value
  doubles other hother := by
    have hne : other ≠ address := fun heq ↦ hother (heq ▸ List.mem_of_getElem? hcell)
    rw [Memory.setDouble_doubles, Function.update_of_ne hne]
    exact hcontributed.doubles other hother

end Contributions

theorem Smooth.Lift.mono {Arg' : Type} {related related' : Arg → Arg' → Prop}
    {request : Smooth Scalar Arg} {request' : Smooth Scalar Arg'}
    (hrequest : Smooth.Lift related request request')
    (hrelated : ∀ arg arg', related arg arg' → related' arg arg') :
    Smooth.Lift related' request request' := by
  cases hrequest with
  | ap0 value => exact .ap0 value
  | ap1 op harg1 => exact .ap1 op (hrelated _ _ harg1)
  | ap2 op harg1 harg2 => exact .ap2 op (hrelated _ _ harg1) (hrelated _ _ harg2)

section Operations

variable [Neg Scalar] [Add Scalar] [Mul Scalar]

/-! ### One operation -/

/-- `handle` opens a frame for an operation, handles what the coroutine does next, adds to the
adjoints of the operands, and closes the frame. -/
theorem evaluate_handle_call [One Scalar] (variant : Variant Scalar Address Arg)
    (request : Smooth Scalar Arg)
    (next : Arg → Client Scalar Arg Arg) (rest : Arg → Code Scalar Address Arg Address Unit) :
    evaluate (handle variant (variant.perform (.call request next) >>= rest)) =
      evaluate (variant.opens (request.computes variant)) >>= fun frame ↦
        (variant.received frame.2 >>= fun arg ↦
          evaluate (handle variant (variant.perform (next arg) >>= rest))) >>= fun _ ↦
        evaluate (request.contributes variant frame.1) >>= fun _ ↦
        evaluate (closes frame.1 frame.2) := by
  have hnext (r : Address) :
      evaluate (handle variant ((accesses (variant.received r) >>= fun arg ↦
        variant.perform (next arg)) >>= rest)) =
      variant.received r >>= fun arg ↦
        evaluate (handle variant (variant.perform (next arg) >>= rest)) := by
    rw [Program.bind_bind, handle_accesses_bind, evaluate_bind, evaluate_accesses]
  change evaluate (variant.opens (request.computes variant) >>= fun frame ↦
    handle variant ((accesses (variant.received frame.2) >>= fun arg ↦
      variant.perform (next arg)) >>= rest) >>= fun _ ↦
    request.contributes variant frame.1 >>= fun _ ↦ closes frame.1 frame.2) = _
  simp only [evaluate_bind, hnext]

variable [DecidableEq Address] [Zero Scalar] {variant : Variant Scalar Address Arg} {heap : Bool}
  {memory later after : Memory Scalar Address} {request : Smooth Scalar (Scalar × ℕ)}
  {request' : Smooth Scalar Arg} {cells : List Address} {adjoints : ℕ → Scalar}

/-- Assumes: the operands stand for numbers. `handle` computes the number of the operation. -/
theorem Variant.Lawful.ensures_computes (lawful : variant.Lawful) (htidy : Tidy heap memory)
    (hrequest : Smooth.Lift (fun node arg ↦ ∃ dv, lawful.Stands memory arg ⟨node.1, dv⟩) request
      request') :
    Ensures heap (fun after result ↦ after = memory ∧ result = request.value)
      (evaluate (request'.computes variant)) memory := by
  cases hrequest with
  | ap0 value => exact ensures_done ⟨rfl, rfl⟩
  | ap1 op harg1 =>
    obtain ⟨dx, hstands⟩ := harg1
    cases op
    simp only [Smooth.computes, evaluate_bind, evaluate_accesses, evaluate_eN]
    refine (lawful.deref hstands htidy).bind ?_
    rintro _ _ ⟨rfl, rfl⟩
    exact ensures_done ⟨rfl, rfl⟩
  | ap2 op harg1 harg2 =>
    obtain ⟨dx, hstands1⟩ := harg1
    obtain ⟨dy, hstands2⟩ := harg2
    simp only [Smooth.computes, evaluate_bind, evaluate_accesses]
    refine (lawful.deref hstands1 htidy).bind ?_
    rintro _ _ ⟨rfl, rfl⟩
    refine (lawful.deref hstands2 htidy).bind ?_
    rintro _ _ ⟨rfl, rfl⟩
    cases op <;> exact ensures_done ⟨rfl, rfl⟩

omit [Neg Scalar] [Mul Scalar] [Zero Scalar] in
/-- Assumes: distinct cells that hold the adjoints. Two of them, which may be the same, get one
contribution after the other, computed from a third one. -/
theorem ensures_addBoth {place place1 place2 : ℕ} {dv dx dy : Address} (htidy : Tidy heap memory)
    (hnodup : cells.Nodup) (hreflects : Reflects memory.doubles cells adjoints)
    (hdv : cells[place]? = some dv) (hdx : cells[place1]? = some dx)
    (hdy : cells[place2]? = some dy) (hne : place1 ≠ place) (more1 more2 : Scalar → Scalar) :
    Ensures heap
      (fun after _ ↦ Contributed memory after cells
        (let first := Function.update adjoints place1 (adjoints place1 + more1 (adjoints place))
        Function.update first place2 (first place2 + more2 (adjoints place))))
      (ask Access.Answer (.loadDouble dx) >>= fun oldX ↦
        ask Access.Answer (.loadDouble dv) >>= fun adjoint ↦
        ask Access.Answer (.storeDouble dx (oldX + more1 adjoint)) >>= fun _ ↦
        ask Access.Answer (.loadDouble dy) >>= fun oldY ↦
        ask Access.Answer (.loadDouble dv) >>= fun adjoint ↦
        ask Access.Answer (.storeDouble dy (oldY + more2 adjoint))) memory := by
  have hstart : Contributed memory memory cells adjoints := ⟨rfl, hreflects, fun _ _ ↦ rfl⟩
  have hfirst := hstart.setDouble hnodup hdx (adjoints place1 + more1 (adjoints place))
  have hadjoint : Function.update adjoints place1 (adjoints place1 + more1 (adjoints place)) place =
      adjoints place := Function.update_of_ne hne.symm _ _
  refine ensures_loadDouble (hreflects _ _ hdx) htidy ?_
  refine ensures_loadDouble (hreflects _ _ hdv) htidy ?_
  refine ensures_storeDouble (by simp [hreflects _ _ hdx]) htidy ?_
  refine ensures_loadDouble (hfirst.reflects _ _ hdy) (hfirst.tidy htidy) ?_
  refine ensures_loadDouble (hfirst.reflects _ _ hdv) (hfirst.tidy htidy) ?_
  refine ensures_ask_storeDouble (by simp [hfirst.reflects _ _ hdy]) (hfirst.tidy htidy) ?_
  rw [hadjoint]
  exact hfirst.setDouble hnodup hdy _

/-- Assumes: the operands stand for pairs whose adjoints are in the cells, and another cell is that
of the result. `handle` adds what the operation contributes. -/
theorem Variant.Lawful.ensures_contributes (lawful : variant.Lawful) {place : ℕ} {dv : Address}
    (htidy : Tidy heap memory) (hnodup : cells.Nodup)
    (hreflects : Reflects memory.doubles cells adjoints) (hdv : cells[place]? = some dv)
    (hrequest : Smooth.Lift (fun node arg ↦ node.2 ≠ place ∧ ∃ dx, cells[node.2]? = some dx ∧
      lawful.Stands memory arg ⟨node.1, dx⟩) request request') :
    Ensures heap
      (fun after _ ↦ Contributed memory after cells (request.scatter (adjoints place) adjoints))
      (evaluate (request'.contributes variant dv)) memory := by
  have hstart : Contributed memory memory cells adjoints := ⟨rfl, hreflects, fun _ _ ↦ rfl⟩
  cases hrequest with
  | ap0 value => exact ensures_done hstart
  | ap1 op harg1 =>
    obtain ⟨-, dx, hdx, hstands⟩ := harg1
    cases op
    simp only [Smooth.contributes, evaluate_bind, evaluate_accesses, evaluate_eN, evaluate_eA,
      Program.done_bind]
    refine (lawful.deref hstands htidy).bind ?_
    rintro _ _ ⟨rfl, rfl⟩
    refine ensures_loadDouble (hreflects _ _ hdx) htidy ?_
    refine ensures_loadDouble (hreflects _ _ hdv) htidy ?_
    exact ensures_ask_storeDouble (by simp [hreflects _ _ hdx]) htidy
      (hstart.setDouble hnodup hdx _)
  | @ap2 op arg1 arg2 _ _ harg1 harg2 =>
    obtain ⟨hne1, dx, hdx, hstands1⟩ := harg1
    obtain ⟨-, dy, hdy, hstands2⟩ := harg2
    simp only [Smooth.contributes, evaluate_bind, evaluate_accesses]
    refine (lawful.deref hstands1 htidy).bind ?_
    rintro _ _ ⟨rfl, rfl⟩
    refine (lawful.deref hstands2 htidy).bind ?_
    rintro _ _ ⟨rfl, rfl⟩
    refine (lawful.deref hstands1 htidy).bind ?_
    rintro _ _ ⟨rfl, rfl⟩
    refine (lawful.deref hstands2 htidy).bind ?_
    rintro _ _ ⟨rfl, rfl⟩
    cases op with
    | addOp => exact ensures_addBoth htidy hnodup hreflects hdv hdx hdy hne1 id id
    | multiplyOp =>
      exact ensures_addBoth htidy hnodup hreflects hdv hdx hdy hne1 (arg2.1 * ·) (arg1.1 * ·)

end Operations

/-! ### Frames -/

section Frames

variable {heap : Bool} {input : Address} {memory after : Memory Scalar Address}
  {cells : List Address} {adjoints : ℕ → Scalar}

/-- The coroutine runs: `x` has been stored, and `result` is to be. -/
structure Ready (heap : Bool) (input : Address) (memory : Memory Scalar Address) : Prop where
  left : memory.left = []
  input : InputAt memory input
  result : heap = false → ∃ r, memory.globals .result = some r ∧ memory.props r = some none

/-- Where `result` is stored: in a new object if it is on the heap. -/
def ResultAt (heap : Bool) (memory : Memory Scalar Address) (r : Address) : Prop :=
  if heap then memory.props r = none
  else memory.globals .result = some r ∧ memory.props r = some none

/-- `handle` has returned: the cells hold the adjoints, `result` has been stored, the variable of
the coroutine has been left, and the rest is as it was. -/
structure Swept [DecidableEq Address] (heap : Bool) (input : Address)
    (memory : Memory Scalar Address) (cells : List Address) (adjoints : ℕ → Scalar)
    (after : Memory Scalar Address) : Prop where
  reflects : Reflects after.doubles cells adjoints
  doubles : ∀ address ∉ cells, after.doubles address = memory.doubles address
  result : ∃ r p, ResultAt heap memory r ∧ after.globals .result = some r ∧
    after.props = Function.update memory.props r (some (some p))
  x : after.globals .x = memory.globals .x
  left : after.left = if heap then [] else [input]
  printed : after.printed = memory.printed

theorem ResultAt.ne_some {r : Address} (hresult : ResultAt heap memory r)
    (p : PropT Scalar Address) : memory.props r ≠ some (some p) := by
  cases heap <;> simp_all [ResultAt]

section Opened

variable [DecidableEq Address]

theorem Swept.grows (hswept : Swept heap input memory cells adjoints after) :
    memory.Grows after := by
  obtain ⟨r, p, hresult, -, hprops⟩ := hswept.result
  refine ⟨fun address q hq ↦ ?_, hswept.x⟩
  have hne : address ≠ r := fun heq ↦ hresult.ne_some q (heq ▸ hq)
  rw [hprops, Function.update_of_ne hne, hq]

theorem Swept.tidy (hswept : Swept heap input memory cells adjoints after)
    (hready : Ready heap input memory) : Tidy heap after := by
  intro address hmem
  rw [hswept.left] at hmem
  cases heap with
  | true => simp at hmem
  | false =>
    obtain rfl : address = input := by simpa using hmem
    exact ⟨rfl, hready.input.of_grows hswept.grows⟩

variable [Zero Scalar] {dv r : Address}

/-- A frame: the memory after its objects have been created. -/
abbrev Memory.opened (memory : Memory Scalar Address) (dv r : Address) (value : Scalar) :
    Memory Scalar Address :=
  (memory.setDouble dv (some (some 0))).setProp r (some (some ⟨value, dv⟩))

theorem Memory.grows_opened (hr : memory.props r = none) (value : Scalar) :
    memory.Grows (memory.opened dv r value) :=
  (memory.grows_setDouble dv _).trans (Memory.grows_setProp (by simp [hr]) _)

theorem Ready.opened (hready : Ready heap input memory) (hr : memory.props r = none)
    (value : Scalar) : Ready heap input (memory.opened dv r value) where
  left := hready.left
  input := hready.input.of_grows (Memory.grows_opened hr value)
  result hheap := by
    obtain ⟨result, hglobal, hprop⟩ := hready.result hheap
    have hne : result ≠ r := fun heq ↦ by simp [heq, hr] at hprop
    exact ⟨result, hglobal, by simp [hne, hprop]⟩

/-- Where `result` is stored from a new frame on, it is stored from before it on, too. -/
theorem ResultAt.of_opened {result : Address} {value : Scalar} (hr : memory.props r = none)
    (hresult : ResultAt heap (memory.opened dv r value) result) :
    result ≠ r ∧ ResultAt heap memory result := by
  have hne : result ≠ r := by
    rintro rfl
    exact hresult.ne_some ⟨value, dv⟩ (by simp)
  refine ⟨hne, ?_⟩
  cases heap <;> simpa [ResultAt, hne] using hresult

/-- Assumes: what the frame has done, and what the operation has contributed to the adjoints then.
When the frame is closed its objects are gone, and the cells below it hold their adjoints. -/
theorem Swept.closed {value : Scalar} {adjoints' : ℕ → Scalar} {last : Memory Scalar Address}
    (hdv : memory.doubles dv = none) (hr : memory.props r = none) (hnew : dv ∉ cells)
    (hswept : Swept heap input (memory.opened dv r value) (cells ++ [dv]) adjoints after)
    (hcontributed : Contributed after last (cells ++ [dv]) adjoints') :
    Swept heap input memory cells adjoints' ((last.setDouble dv none).setProp r none) where
  reflects place cell hcell := by
    have hmem := List.mem_of_getElem? hcell
    have hne : cell ≠ dv := fun heq ↦ hnew (heq ▸ hmem)
    have hlt := (List.getElem?_eq_some_iff.mp hcell).1
    have hreflects := hcontributed.reflects place cell (by
      rw [List.getElem?_append_left hlt, hcell])
    simp [hne, hreflects]
  doubles address hnotMem := by
    by_cases heq : address = dv
    · simp [heq, hdv]
    · have hother : address ∉ cells ++ [dv] := by simp [hnotMem, heq]
      simp [heq, hcontributed.doubles address hother, hswept.doubles address hother]
  result := by
    obtain ⟨result, p, hresult, hglobal, hprops⟩ := hswept.result
    obtain ⟨hne, hbelow⟩ := hresult.of_opened hr
    refine ⟨result, p, hbelow, by rw [hcontributed.rest]; exact hglobal, ?_⟩
    funext address
    rw [hcontributed.rest]
    by_cases haddress : address = r
    · subst haddress
      simp [hne.symm, hr]
    · by_cases hresult' : address = result
      · subst hresult'
        simp [hne, hprops]
      · simp [haddress, hresult', hprops]
  x := by
    rw [hcontributed.rest]
    exact hswept.x
  left := by
    rw [hcontributed.rest]
    exact hswept.left
  printed := by
    rw [hcontributed.rest]
    exact hswept.printed

end Opened

end Frames

/-! ### The whole handler -/

theorem nodup_snoc {cells : List Address} {cell : Address} (hnodup : cells.Nodup)
    (hnew : cell ∉ cells) : (cells ++ [cell]).Nodup :=
  List.nodup_append.mpr ⟨hnodup, List.nodup_singleton cell,
    fun _ hold _ hother heq ↦ hnew (List.mem_singleton.mp hother ▸ heq ▸ hold)⟩

section Handler

variable [DecidableEq Address] [Zero Scalar] [Neg Scalar] [Add Scalar] [Mul Scalar]
  {variant : Variant Scalar Address Arg} {heap : Bool} {input : Address}
  {memory : Memory Scalar Address} {cells : List Address}

/-- Distinct cells with adjoint 0, and the pairs that a coroutine has been given: what it has
stands for a number whose adjoint is in one of the cells. -/
structure Knows (lawful : variant.Lawful) (memory : Memory Scalar Address) (cells : List Address)
    (pairs : List ((Scalar × ℕ) × Arg)) : Prop where
  nodup : cells.Nodup
  zero : ∀ cell ∈ cells, memory.doubles cell = some (some 0)
  known : ∀ node arg, (node, arg) ∈ pairs →
    ∃ dv, cells[node.2]? = some dv ∧ lawful.Stands memory arg ⟨node.1, dv⟩

/-- Assumes: a new frame for a number, and an answer that stands for its pair. The coroutine knows
of one more pair, in the last cell. -/
theorem Knows.opened {dv r : Address} {lawful : variant.Lawful} {pairs : List ((Scalar × ℕ) × Arg)}
    (hknows : Knows lawful memory cells pairs) (hdv : memory.doubles dv = none)
    (hr : memory.props r = none) {value : Scalar} {arg : Arg}
    (harg : lawful.Stands (memory.opened dv r value) arg ⟨value, dv⟩) :
    Knows lawful (memory.opened dv r value) (cells ++ [dv])
      (((value, cells.length), arg) :: pairs) where
  nodup := nodup_snoc hknows.nodup fun hmem ↦ by simp [hknows.zero dv hmem] at hdv
  zero cell hcell := by
    rcases List.mem_append.mp hcell with hold | hnew
    · have hne : cell ≠ dv := fun heq ↦ by simp [← heq, hknows.zero cell hold] at hdv
      simp [hne, hknows.zero cell hold]
    · simp [List.mem_singleton.mp hnew]
  known node other hmem := by
    rcases List.mem_cons.mp hmem with heq | hmem
    · obtain ⟨rfl, rfl⟩ := Prod.mk.inj heq
      exact ⟨dv, by simp, harg⟩
    · obtain ⟨cell, hcell, hstands⟩ := hknows.known node other hmem
      have hlt := (List.getElem?_eq_some_iff.mp hcell).1
      exact ⟨cell, by rw [List.getElem?_append_left hlt, hcell],
        lawful.stands_of_grows hstands (Memory.grows_opened hr value)⟩

variable [One Scalar]

/-- Assumes: the rest of the coroutine, once it has its result, leaves the adjoint 1 in the cell of
the result and 0 in the others. What `handle` leaves in the cells is `backward` of what the
coroutine does from here on. -/
theorem Variant.Lawful.ensures_handle (lawful : variant.Lawful)
    {rest : Arg → Code Scalar Address Arg Address Unit}
    (hrest : ∀ (memory : Memory Scalar Address) (cells : List Address)
      (pairs : List ((Scalar × ℕ) × Arg)) (node : Scalar × ℕ) (arg : Arg),
      Knows lawful memory cells pairs → (node, arg) ∈ pairs → Ready heap input memory →
        input ∈ cells → Ensures heap
          (fun after _ ↦ Swept heap input memory cells (Function.update (fun _ ↦ 0) node.2 1) after)
          (evaluate (handle variant (rest arg))) memory)
    {pairs : List ((Scalar × ℕ) × Arg)} {client : Client Scalar (Scalar × ℕ) (Scalar × ℕ)}
    {client' : Client Scalar Arg Arg}
    (hparallel : Program.Parallel Smooth.Lift pairs client client')
    (hknows : Knows lawful memory cells pairs) (hready : Ready heap input memory)
    (hinput : input ∈ cells) :
    Ensures heap
      (fun after _ ↦ Swept heap input memory cells (backward client cells.length) after)
      (evaluate (handle variant (variant.perform client' >>= rest))) memory := by
  induction hparallel generalizing memory cells with
  | done hresult => exact hrest memory cells _ _ _ hknows hresult hready hinput
  | @call pairs request request' next next' hrequest _ ih =>
    have htidy : Tidy heap memory := tidy_of_nil hready.left
    rw [evaluate_handle_call]
    refine (lawful.opens htidy fun later hgrows hlaterTidy ↦ lawful.ensures_computes hlaterTidy
      (hrequest.mono fun node arg hmem ↦ ?_)).bind ?_
    · obtain ⟨cell, -, hstands⟩ := hknows.known node arg hmem
      exact ⟨cell, lawful.stands_of_grows hstands hgrows⟩
    rintro opened ⟨dv, r⟩ ⟨hdv, hr, rfl⟩
    have hopenedTidy : Tidy heap (memory.opened dv r request.value) :=
      tidy_of_nil hready.left
    have hnew : dv ∉ cells := fun hmem ↦ by simp [hknows.zero dv hmem] at hdv
    have hlast : (cells ++ [dv])[cells.length]? = some dv := by simp
    have hinner : Ensures heap
        (fun after _ ↦ Swept heap input (memory.opened dv r request.value) (cells ++ [dv])
          (backward (next (request.value, cells.length)) (cells.length + 1)) after)
        (variant.received r >>= fun arg ↦
          evaluate (handle variant (variant.perform (next' arg) >>= rest)))
        (memory.opened dv r request.value) := by
      refine (lawful.received (p := ⟨request.value, dv⟩) (by simp) hopenedTidy).bind ?_
      rintro _ arg ⟨rfl, hstands⟩
      have h := ih (request.value, cells.length) arg (hknows.opened hdv hr hstands)
        (hready.opened hr request.value) (List.mem_append_left _ hinput)
      rwa [List.length_append, List.length_singleton] at h
    refine hinner.bind fun after _ hswept ↦ ?_
    have htidyAfter := hswept.tidy (hready.opened hr request.value)
    have hopened : memory.Grows (memory.opened dv r request.value) :=
      Memory.grows_opened hr request.value
    have hgrows := hopened.trans hswept.grows
    refine (lawful.ensures_contributes htidyAfter (nodup_snoc hknows.nodup hnew) hswept.reflects
      hlast (hrequest.mono fun node arg hmem ↦ ?_)).bind fun last _ hcontributed ↦ ?_
    · obtain ⟨cell, hcell, hstands⟩ := hknows.known node arg hmem
      have hlt := (List.getElem?_eq_some_iff.mp hcell).1
      exact ⟨hlt.ne, cell, by rw [List.getElem?_append_left hlt, hcell],
        lawful.stands_of_grows hstands hgrows⟩
    have htidyLast := hcontributed.tidy htidyAfter
    have hpair : last.props r = some (some ⟨request.value, dv⟩) :=
      hcontributed.grows.props r _ (hswept.grows.props r _ (by simp))
    refine ensures_releaseDouble (by simp [hcontributed.reflects _ _ hlast]) htidyLast ?_
    exact ensures_ask_releaseProp (by simp [hpair])
      (htidyLast.of_grows (last.grows_setDouble dv none) rfl)
      (hswept.closed hdv hr hnew hcontributed)

end Handler

end Libseff.Ad
