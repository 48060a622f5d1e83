import Libseff.Stack.Morestack
import Libseff.Stack.SegmentLists

/-!
# Stack growth and the calling convention

A function that grows its stack should run and return as if it had not. The memory that
`__morestack` works on is divided by `Layout`; what it saves, copies and restores is read back from
`Cpu.allocatedMemory` and `releasedMemory`, which give the start of the body (`morestackEnter_eq`)
and the return to the caller (`morestackReturn_eq`). The routines do not save the vector registers,
and `__morestack_non_split` loads `%rax`; `GrowingCall.transparent_iff` says what this costs.
-/

set_option autoImplicit false
set_option relaxedAutoImplicit false

namespace Libseff.Stack

open Foundation Foundation.ByteMemory Coroutine

namespace Cpu

variable (linkage : Linkage) (s : Cpu)

/-- The words that `__morestack` has pushed on the system stack when `seff_mem_allocate_frame`
starts. -/
def savedWords : List Word :=
  [s.rbp, s.rbp, s.r10, s.rax, s.rdi, s.rsi, s.rdx, s.rcx, s.r8, s.r9, linkage.allocateReturn]

/-- The memory then. -/
def savedMemory : ByteMemory :=
  (s.memory.storeDown s.rsp [s.rbx]).storeDown s.systemStack (s.savedWords linkage)

/-- The memory when `seff_mem_allocate_frame` returns. -/
def allocatedMemory (frame : AllocatedFrame) (clobber : Clobber) : ByteMemory :=
  (((s.savedMemory linkage).store64 (s.systemStack - 24) frame.frameSize).copyBytes frame.newStack
    (s.rsp + 16) s.r11.toNat).overwrite clobber.written

/-- The parameters on the caller's stack. -/
def parameters (index : ℕ) : BitVec 8 := s.memory (s.rsp + 16 + BitVec.ofNat 64 index)

/-- The state then. -/
def allocated (frame : AllocatedFrame) (clobber : Clobber) : Cpu :=
  { s with
    rax := frame.newStack
    rbx := s.rsp - 8
    rcx := clobber.rcx
    rdx := clobber.rdx
    rsi := clobber.rsi
    rdi := clobber.rdi
    rbp := s.systemStack - 16
    rsp := s.systemStack - 80
    r8 := clobber.r8
    r9 := clobber.r9
    r10 := clobber.r10
    r11 := clobber.r11
    xmm := clobber.xmm
    memory := s.allocatedMemory linkage frame clobber
    heap := frame.heap
    current := frame.current }

theorem load64_savedMemory {index : ℕ} {word : Word}
    (hword : (s.savedWords linkage)[index]? = some word) {address : Word}
    (haddress : address = s.systemStack - BitVec.ofNat 64 (8 * (index + 1))) :
    (s.savedMemory linkage).load64 address = word := by
  obtain ⟨hindex, hget⟩ := List.getElem?_eq_some_iff.mp hword
  rw [haddress, ← hget]
  exact load64_storeDown _ _ (s.savedWords linkage) (by simp [savedWords]) hindex

variable {linkage s}

/-- The call of `seff_mem_allocate_frame`. -/
theorem callAllocateFrame_morestackSave {block : Word} {entered frame : AllocatedFrame}
    (clobber : Clobber)
    (hentered : enterSegment linkage.minSegmentSize block s.r10 s.r11 s.heap s.current =
      some entered)
    (hframe : entered.copyParameters s.r11 (fun index ↦
      (s.savedMemory linkage).store64 (s.systemStack - 24) entered.frameSize
        (s.rsp + 16 + BitVec.ofNat 64 index)) = some frame) :
    s.morestackSave.callAllocateFrame linkage block clobber =
      some (s.allocated linkage frame clobber) := by
  have hwords : s.savedWords linkage = [s.rbp, s.rbp] ++
      ([s.r10, s.rax, s.rdi, s.rsi, s.rdx, s.rcx, s.r8, s.r9] ++ [linkage.allocateReturn]) := rfl
  have hmemory : (s.morestackSave.push [linkage.allocateReturn]).memory =
      s.savedMemory linkage := by
    rw [savedMemory, hwords, storeDown_append, storeDown_append]
    rfl
  have hrdi : (s.morestackSave.push [linkage.allocateReturn]).rdi = s.systemStack - 24 := by
    simp only [morestackSave, push, List.length_cons, List.length_nil]
    bv_omega
  have hrsi : (s.morestackSave.push [linkage.allocateReturn]).rsi = s.rsp + 16 := by
    simp only [morestackSave, push, List.length_cons, List.length_nil]
    bv_omega
  have hframeSize : (s.savedMemory linkage).load64 (s.systemStack - 24) = s.r10 :=
    s.load64_savedMemory linkage (show (s.savedWords linkage)[2]? = some s.r10 from rfl) rfl
  have hrdx : (s.morestackSave.push [linkage.allocateReturn]).rdx = s.r11 := rfl
  have hheap : (s.morestackSave.push [linkage.allocateReturn]).heap = s.heap := rfl
  have hcurrent : (s.morestackSave.push [linkage.allocateReturn]).current = s.current := rfl
  unfold callAllocateFrame
  simp only [hmemory, hrdi, hrsi, hrdx, hheap, hcurrent, hframeSize, hentered, hframe,
    Option.bind_eq_bind, Option.bind_some, Option.some.injEq]
  have hrbx : (s.morestackSave.push [linkage.allocateReturn]).rbx = s.rsp - 8 := rfl
  have hrbp : (s.morestackSave.push [linkage.allocateReturn]).rbp = s.systemStack - 16 := rfl
  have hrsp : (s.morestackSave.push [linkage.allocateReturn]).rsp + 8 = s.systemStack - 80 := by
    simp only [morestackSave, push, List.length_cons, List.length_nil]
    bv_omega
  simp only [returnFromC, pop, hrbx, hrbp, hrsp, ← AllocatedFrame.frameSize_copyParameters hframe]
  rfl

end Cpu

/-- The ranges of memory that a call of `__morestack` uses. The caller's stack from the saved `%rbx`
to the last parameter, the frame on the system stack, and the top of the new stack with the
parameters do not overlap, and the C functions write their own memory elsewhere. -/
structure Layout (s : Cpu) (newStack : Word) (allocate release : Clobber) : Prop where
  size : 24 + s.r11.toNat ≤ 2 ^ 64
  callerSystem : ∀ address, Within (s.rsp - 8) (24 + s.r11.toNat) address →
    ¬ Within (s.systemStack - 88) 88 address
  callerNew : ∀ address, Within (s.rsp - 8) (24 + s.r11.toNat) address →
    ¬ Within (newStack - 24) (24 + s.r11.toNat) address
  systemNew : ∀ address, Within (s.systemStack - 88) 88 address →
    ¬ Within (newStack - 24) (24 + s.r11.toNat) address
  allocateOwn : ∀ address, Within (s.rsp - 8) (24 + s.r11.toNat) address ∨
    Within (s.systemStack - 80) 80 address ∨ Within newStack s.r11.toNat address →
      allocate.written address = none
  releaseOwn : ∀ address, Within (s.rsp - 8) 24 address ∨ Within (newStack - 16) 16 address →
    release.written address = none

namespace Layout

variable (linkage : Linkage) {s : Cpu} {frame : AllocatedFrame} {allocate release : Clobber}

/-- The parameters lie in the range of the new stack. -/
theorem within_new (h : Layout s frame.newStack allocate release) {address : Word}
    (haddress : Within frame.newStack s.r11.toNat address) :
    Within (frame.newStack - 24) (24 + s.r11.toNat) address :=
  within_extend 24 haddress h.size

/-- What `seff_mem_allocate_frame` leaves of the saved registers and of the caller's stack. -/
theorem allocatedMemory_eq (h : Layout s frame.newStack allocate release) {address : Word}
    (haddress : Within (s.rsp - 8) (24 + s.r11.toNat) address ∨
      Within (s.systemStack - 80) 80 address ∧ ¬ Within (s.systemStack - 24) 8 address) :
    s.allocatedMemory linkage frame allocate address = s.savedMemory linkage address := by
  have hsystem : Within (s.systemStack - 80) 80 address → Within (s.systemStack - 88) 88 address :=
    fun hin ↦ by
      rw [Within] at hin ⊢
      bv_omega
  have hstore : ¬ Within (s.systemStack - 24) 8 address := by
    rcases haddress with hin | hin
    · have hnot := h.callerSystem address hin
      rw [Within] at hnot ⊢
      bv_omega
    · exact hin.2
  have hnew : ¬ Within frame.newStack s.r11.toNat address := fun hin ↦ by
    rcases haddress with hcaller | hsaved
    · exact h.callerNew address hcaller (h.within_new hin)
    · exact h.systemNew address (hsystem hsaved.1) (h.within_new hin)
  have hown : allocate.written address = none :=
    h.allocateOwn address (haddress.imp id fun hin ↦ .inl hin.1)
  rw [Cpu.allocatedMemory, overwrite_of_eq_none hown, copyBytes_of_not_within hnew,
    store64_of_not_within hstore]

/-- The registers that `__morestack` restores. -/
theorem load64_saved (h : Layout s frame.newStack allocate release) {index : ℕ} {word : Word}
    (hword : (s.savedWords linkage)[index]? = some word) (hindex : index < 10) (hne : index ≠ 2)
    {address : Word} (haddress : address = s.systemStack - BitVec.ofNat 64 (8 * (index + 1))) :
    (s.allocatedMemory linkage frame allocate).load64 address = word := by
  rw [← s.load64_savedMemory linkage hword haddress]
  refine load64_congr fun other hother ↦ h.allocatedMemory_eq linkage (.inr ?_)
  rw [haddress, Within] at hother
  constructor <;> rw [Within] <;> bv_omega

/-- The frame size that `seff_mem_allocate_frame` stored. -/
theorem load64_frameSize (h : Layout s frame.newStack allocate release) :
    (s.allocatedMemory linkage frame allocate).load64 (s.systemStack - 24) = frame.frameSize := by
  rw [← load64_store64 (s.savedMemory linkage) (s.systemStack - 24) frame.frameSize]
  refine load64_congr fun other hother ↦ ?_
  have hsystem : Within (s.systemStack - 80) 80 other ∧ Within (s.systemStack - 88) 88 other := by
    rw [Within] at hother
    constructor <;> rw [Within] <;> bv_omega
  rw [Cpu.allocatedMemory, overwrite_of_eq_none (h.allocateOwn other (.inr (.inl hsystem.1))),
    copyBytes_of_not_within fun hin ↦ h.systemNew other hsystem.2 (h.within_new hin)]

/-- The caller's stack above the saved `%rbx` is as it was. -/
theorem caller_eq (h : Layout s frame.newStack allocate release) {address : Word}
    (haddress : Within (s.rsp - 8) (24 + s.r11.toNat) address)
    (hsaved : ¬ Within (s.rsp - 8) 8 address) :
    s.allocatedMemory linkage frame allocate address = s.memory address := by
  have hsystem := h.callerSystem address haddress
  rw [h.allocatedMemory_eq linkage (.inl haddress), Cpu.savedMemory, storeDown_of_not_within,
    storeDown_of_not_within]
  · intro index hindex
    obtain rfl : index = 0 := by simpa using hindex
    exact hsaved
  · intro index hindex
    simp only [Cpu.savedWords, List.length_cons, List.length_nil] at hindex
    rw [Within] at hsystem ⊢
    bv_omega

/-- The `%rbx` that `__morestack` saved on the caller's stack. -/
theorem load64_rbx (h : Layout s frame.newStack allocate release) :
    (s.allocatedMemory linkage frame allocate).load64 (s.rsp - 8) = s.rbx := by
  rw [← load64_store64 s.memory (s.rsp - 8) s.rbx]
  refine load64_congr fun other hother ↦ ?_
  have hcaller : Within (s.rsp - 8) (24 + s.r11.toNat) other := hother.trans_le (by omega)
  have hsystem := h.callerSystem other hcaller
  rw [h.allocatedMemory_eq linkage (.inl hcaller), Cpu.savedMemory, storeDown_of_not_within]
  · rfl
  · intro index hindex
    simp only [Cpu.savedWords, List.length_cons, List.length_nil] at hindex
    rw [Within] at hsystem ⊢
    bv_omega

/-- The words of the caller's stack above the saved `%rbx`: the return addresses to the prologue and
to the caller. -/
theorem load64_caller (h : Layout s frame.newStack allocate release) {address : Word}
    (haddress : address = s.rsp ∨ address = s.rsp + 8) :
    (s.allocatedMemory linkage frame allocate).load64 address = s.memory.load64 address := by
  refine load64_congr fun other hother ↦ h.caller_eq linkage ?_ ?_
  · have hbase : Within (s.rsp - 8) 24 other := by
      rw [Within] at hother ⊢
      rcases haddress with rfl | rfl <;> bv_omega
    exact hbase.trans_le (by omega)
  · rw [Within] at hother ⊢
    rcases haddress with rfl | rfl <;> bv_omega

/-- The parameters when they are copied. -/
theorem savedParameters_eq (h : Layout s frame.newStack allocate release) (frameSize : Word)
    {offset : ℕ} (hoffset : offset < s.r11.toNat) :
    (s.savedMemory linkage).store64 (s.systemStack - 24) frameSize
      (s.rsp + 16 + BitVec.ofNat 64 offset) = s.parameters offset := by
  have hsize := h.size
  have hcaller : Within (s.rsp - 8) (24 + s.r11.toNat) (s.rsp + 16 + BitVec.ofNat 64 offset) := by
    have hsource :=
      within_extend 24 (within_add (by omega) hoffset : Within (s.rsp + 16) _ _) h.size
    have hbase : s.rsp + 16 - BitVec.ofNat 64 24 = s.rsp - 8 := by bv_omega
    rwa [hbase] at hsource
  have hsaved : ¬ Within (s.rsp - 8) 8 (s.rsp + 16 + BitVec.ofNat 64 offset) := by
    rw [Within]
    bv_omega
  have hstored : ¬ Within (s.systemStack - 24) 8 (s.rsp + 16 + BitVec.ofNat 64 offset) := by
    have hsystem := h.callerSystem _ hcaller
    rw [Within] at hsystem ⊢
    bv_omega
  rw [store64_of_not_within hstored, ← h.allocatedMemory_eq linkage (.inl hcaller),
    h.caller_eq linkage hcaller hsaved, Cpu.parameters]

/-- The copied parameters. -/
theorem parameters_eq (h : Layout s frame.newStack allocate release) {offset : ℕ}
    (hoffset : offset < s.r11.toNat) :
    s.allocatedMemory linkage frame allocate (frame.newStack + BitVec.ofNat 64 offset) =
      s.parameters offset := by
  have hsize := h.size
  have hnew : Within frame.newStack s.r11.toNat (frame.newStack + BitVec.ofNat 64 offset) :=
    within_add (by omega) hoffset
  have hown := h.allocateOwn _ (.inr (.inr hnew))
  rw [Cpu.allocatedMemory, overwrite_of_eq_none hown, copyBytes_add _ _ _ (by omega) hoffset,
    h.savedParameters_eq linkage _ hoffset]

/-- `__morestack` up to the return of `seff_mem_allocate_frame`. -/
theorem callAllocateFrame (h : Layout s frame.newStack allocate release) {block : Word}
    (hframe : seffMemAllocateFrame linkage.minSegmentSize block s.r10 s.r11 s.parameters s.heap
      s.current = some frame) :
    s.morestackSave.callAllocateFrame linkage block allocate =
      some (s.allocated linkage frame allocate) := by
  obtain ⟨entered, hentered, hcopied⟩ := Option.bind_eq_some_iff.mp hframe
  refine Cpu.callAllocateFrame_morestackSave allocate hentered (Eq.trans ?_ hcopied)
  exact entered.copyParameters_congr fun _ hindex ↦ h.savedParameters_eq linkage _ hindex

end Layout

/-! ### The start of the body -/

/-- The body starts behind the `ret` of the prologue with the argument registers and the stack
parameters of the caller. -/
structure StartsUnchanged (s start : Cpu) : Prop where
  ip : start.ip = s.top + 1
  rdi : start.rdi = s.rdi
  rsi : start.rsi = s.rsi
  rdx : start.rdx = s.rdx
  rcx : start.rcx = s.rcx
  r8 : start.r8 = s.r8
  r9 : start.r9 = s.r9
  rax : start.rax = s.rax
  xmm : ∀ index : Fin 16, index.val < 8 → start.xmm index = s.xmm index
  parameters : ∀ offset < s.r11.toNat,
    start.memory (start.rsp + 8 + BitVec.ofNat 64 offset) =
      s.memory (s.rsp + 16 + BitVec.ofNat 64 offset)

section Start

variable (linkage : Linkage) {s : Cpu} {frame : AllocatedFrame} {allocate release : Clobber}

/-- The state in which `__morestack` enters the body, but for its memory and the vector
registers. -/
theorem morestackEnter_eq (h : Layout s frame.newStack allocate release) :
    ((s.allocated linkage frame allocate).morestackEnter linkage) =
      { s.allocated linkage frame allocate with
        rax := s.rax
        rcx := s.rcx
        rdx := s.rdx
        rsi := s.rsi
        rdi := s.rdi
        rbp := s.rbp
        rsp := frame.newStack - 8
        r8 := s.r8
        r9 := s.r9
        r10 := s.top + 1
        ip := s.top + 1
        memory := (s.allocatedMemory linkage frame allocate).storeDown frame.newStack
          [linkage.bodyReturn]
        stackTop := frame.newStack - frame.frameSize } := by
  have hsaved : ∀ (index : ℕ) (word : Word), (s.savedWords linkage)[index]? = some word →
      index < 10 → index ≠ 2 → ∀ address,
        address = s.systemStack - BitVec.ofNat 64 (8 * (index + 1)) →
          (s.allocatedMemory linkage frame allocate).load64 address = word :=
    fun index word hword hindex hne address haddress ↦
      h.load64_saved linkage hword hindex hne haddress
  have hrbp := hsaved 1 s.rbp rfl (by omega) (by omega) (s.systemStack - 16) rfl
  have hframeSize : (s.allocatedMemory linkage frame allocate).load64 (s.systemStack - 16 - 8) =
      frame.frameSize := by
    have haddress : s.systemStack - 16 - 8 = s.systemStack - 24 := by bv_omega
    rw [haddress, h.load64_frameSize linkage]
  have hrax := hsaved 3 s.rax rfl (by omega) (by omega) (s.systemStack - 16 - 16) (by bv_omega)
  have hrdi := hsaved 4 s.rdi rfl (by omega) (by omega) (s.systemStack - 16 - 24) (by bv_omega)
  have hrsi := hsaved 5 s.rsi rfl (by omega) (by omega) (s.systemStack - 16 - 32) (by bv_omega)
  have hrdx := hsaved 6 s.rdx rfl (by omega) (by omega) (s.systemStack - 16 - 40) (by bv_omega)
  have hrcx := hsaved 7 s.rcx rfl (by omega) (by omega) (s.systemStack - 16 - 48) (by bv_omega)
  have hr8 := hsaved 8 s.r8 rfl (by omega) (by omega) (s.systemStack - 16 - 56) (by bv_omega)
  have hr9 := hsaved 9 s.r9 rfl (by omega) (by omega) (s.systemStack - 16 - 64) (by bv_omega)
  have htop : (s.allocatedMemory linkage frame allocate).load64 (s.rsp - 8 + 8) = s.top := by
    have hrsp : s.rsp - 8 + 8 = s.rsp := by bv_omega
    rw [hrsp, h.load64_caller linkage (.inl rfl), Cpu.top]
  simp only [Cpu.morestackEnter, Cpu.push, Cpu.allocated, hframeSize, hrax, hrdi, hrsi, hrdx, hrcx,
    hr8, hr9, hrbp, htop]
  rfl

/-- The body starts unchanged when `seff_mem_allocate_frame` leaves the vector registers of the
arguments alone, and `%rax` was not changed on the way to `__morestack`. -/
theorem startsUnchanged_iff {cpu : Cpu} {rax r10 : Word}
    (h : Layout { cpu with rax := rax, r10 := r10 } frame.newStack allocate release) :
    StartsUnchanged cpu
        ((({ cpu with rax := rax, r10 := r10 } : Cpu).allocated linkage frame
          allocate).morestackEnter linkage) ↔
      rax = cpu.rax ∧ ∀ index : Fin 16, index.val < 8 → allocate.xmm index = cpu.xmm index := by
  rw [morestackEnter_eq linkage h]
  constructor
  · intro hstarts
    exact ⟨hstarts.rax, hstarts.xmm⟩
  · rintro ⟨hrax, hxmm⟩
    refine ⟨rfl, rfl, rfl, rfl, rfl, rfl, rfl, hrax, hxmm, fun offset hoffset ↦ ?_⟩
    have haddress : frame.newStack - 8 + 8 + BitVec.ofNat 64 offset =
        frame.newStack + BitVec.ofNat 64 offset := by
      bv_omega
    have hsize : 24 + cpu.r11.toNat ≤ 2 ^ 64 := h.size
    refine Eq.trans ?_ (h.parameters_eq linkage hoffset)
    rw [← haddress]
    refine storeDown_of_not_within fun index hindex ↦ ?_
    obtain rfl : index = 0 := by simpa using hindex
    rw [haddress, Within]
    bv_omega

end Start

/-! ### The return of the body -/

/-- The body obeys the System V ABI: it restores the callee-saved registers and returns with `%rsp`
at its return address. -/
structure ObeysAbi (start exit : Cpu) : Prop where
  rsp : exit.rsp = start.rsp
  rbx : exit.rbx = start.rbx
  rbp : exit.rbp = start.rbp
  r12 : exit.r12 = start.r12
  r13 : exit.r13 = start.r13
  r14 : exit.r14 = start.r14
  r15 : exit.r15 = start.r15
  returnAddress : exit.top = start.top

/-- The caller goes on behind its call, with its own callee-saved registers and the return registers
of the body. -/
structure ReturnsUnchanged (s exit finish : Cpu) : Prop where
  ip : finish.ip = s.memory.load64 (s.rsp + 8)
  rsp : finish.rsp = s.rsp + 16
  rbx : finish.rbx = s.rbx
  rbp : finish.rbp = s.rbp
  r12 : finish.r12 = s.r12
  r13 : finish.r13 = s.r13
  r14 : finish.r14 = s.r14
  r15 : finish.r15 = s.r15
  rax : finish.rax = exit.rax
  rdx : finish.rdx = exit.rdx
  xmm0 : finish.xmm 0 = exit.xmm 0
  xmm1 : finish.xmm 1 = exit.xmm 1

section Return

variable {s : Cpu} {newStack : Word} {allocate release : Clobber}

/-- The memory when `seff_mem_release_frame` returns to `__morestack`. -/
def releasedMemory (linkage : Linkage) (release : Clobber) (exit : Cpu) : ByteMemory :=
  (exit.memory.storeDown (exit.rsp + 8) [exit.rax, exit.rdx, linkage.releaseReturn]).overwrite
    release.written

/-- The results of the body, saved on the new stack. -/
theorem Layout.load64_result (h : Layout s newStack allocate release) (linkage : Linkage)
    {exit : Cpu} (hexit : exit.rsp = newStack - 8) :
    (releasedMemory linkage release exit).load64 (newStack - 8) = exit.rax ∧
      (releasedMemory linkage release exit).load64 (newStack - 16) = exit.rdx := by
  have htop : exit.rsp + 8 = newStack := by rw [hexit]; bv_omega
  have hsaved : ∀ (index : ℕ) (word : Word),
      [exit.rax, exit.rdx, linkage.releaseReturn][index]? = some word → index < 2 →
        (releasedMemory linkage release exit).load64
          (newStack - BitVec.ofNat 64 (8 * (index + 1))) = word := by
    intro index word hword hindex
    obtain ⟨hlength, hget⟩ := List.getElem?_eq_some_iff.mp hword
    rw [← hget, ← load64_storeDown exit.memory newStack _ (by simp) hlength, releasedMemory, htop]
    refine load64_congr fun other hother ↦ overwrite_of_eq_none (h.releaseOwn other (.inr ?_))
    rw [Within] at hother ⊢
    bv_omega
  exact ⟨hsaved 0 _ rfl (by omega), hsaved 1 _ rfl (by omega)⟩

/-- The caller's stack is as the body left it. -/
theorem Layout.load64_released (h : Layout s newStack allocate release) (linkage : Linkage)
    {exit : Cpu} (hexit : exit.rsp = newStack - 8) {address : Word}
    (haddress : address = s.rsp - 8 ∨ address = s.rsp ∨ address = s.rsp + 8) :
    (releasedMemory linkage release exit).load64 address = exit.memory.load64 address := by
  have htop : exit.rsp + 8 = newStack := by rw [hexit]; bv_omega
  refine load64_congr fun other hother ↦ ?_
  have hbase : Within (s.rsp - 8) 24 other := by
    rw [Within] at hother ⊢
    rcases haddress with rfl | rfl | rfl <;> bv_omega
  have hnew := h.callerNew other (hbase.trans_le (by omega))
  rw [releasedMemory, htop, overwrite_of_eq_none (h.releaseOwn other (.inl hbase))]
  refine storeDown_of_not_within fun index hindex hin ↦ hnew ?_
  simp only [List.length_cons, List.length_nil] at hindex
  rw [Within] at hin ⊢
  bv_omega

/-- The tail of `__morestack`. -/
theorem morestackReturn_eq (h : Layout s newStack allocate release) (linkage : Linkage) {exit : Cpu}
    (hexit : exit.rsp = newStack - 8) (hrbx : exit.rbx = s.rsp - 8) {stackTop : Word}
    {current : SeffCoroutine}
    (hrelease : seffMemReleaseFrame exit.heap exit.current = some (stackTop, current)) :
    exit.ret.morestackReturn linkage release = some
      { exit with
        rax := exit.rax
        rdx := exit.rdx
        rbx := exit.memory.load64 (s.rsp - 8)
        rcx := release.rcx
        rsi := release.rsi
        rdi := release.rdi
        rsp := s.rsp + 8
        r8 := release.r8
        r9 := release.r9
        r10 := release.r10
        r11 := release.r11
        xmm := release.xmm
        ip := exit.memory.load64 s.rsp
        memory := releasedMemory linkage release exit
        stackTop := stackTop
        current := current } := by
  obtain ⟨pushed, hpushed⟩ : ∃ pushed, pushed = exit.ret.push [exit.rax, exit.rdx] := ⟨_, rfl⟩
  have hmemory : (pushed.push [linkage.releaseReturn]).memory =
      exit.memory.storeDown (exit.rsp + 8) [exit.rax, exit.rdx, linkage.releaseReturn] := by
    rw [show [exit.rax, exit.rdx, linkage.releaseReturn] =
      [exit.rax, exit.rdx] ++ [linkage.releaseReturn] from rfl, storeDown_append, hpushed]
    rfl
  have hrsp : (pushed.push [linkage.releaseReturn]).rsp + 8 = newStack - 16 := by
    simp only [hpushed, Cpu.push, Cpu.ret, Cpu.pop, List.length_cons, List.length_nil, hexit]
    bv_omega
  have hheap : (pushed.push [linkage.releaseReturn]).heap = exit.heap := by
    simp only [hpushed, Cpu.push, Cpu.ret, Cpu.pop]
  have hcurrent : (pushed.push [linkage.releaseReturn]).current = exit.current := by
    simp only [hpushed, Cpu.push, Cpu.ret, Cpu.pop]
  have hcall : pushed.callReleaseFrame linkage release = some
      { pushed with
        rax := stackTop
        rcx := release.rcx
        rdx := release.rdx
        rsi := release.rsi
        rdi := release.rdi
        rsp := newStack - 16
        r8 := release.r8
        r9 := release.r9
        r10 := release.r10
        r11 := release.r11
        xmm := release.xmm
        memory := releasedMemory linkage release exit
        heap := exit.heap
        current := current } := by
    unfold Cpu.callReleaseFrame
    simp only [hheap, hcurrent, hrelease, Option.bind_eq_bind, Option.bind_some, Option.some.injEq]
    simp only [Cpu.returnFromC, Cpu.pop, hmemory, hrsp]
    rfl
  have hresult := h.load64_result linkage hexit
  have hpop : newStack - 16 + 8 = newStack - 8 := by bv_omega
  have hcaller : s.rsp - 8 + 8 = s.rsp := by bv_omega
  have hsaved := h.load64_released linkage hexit (.inl rfl)
  have htop := h.load64_released linkage hexit (.inr (.inl rfl))
  have hpushedRbx : pushed.rbx = s.rsp - 8 := by rw [hpushed]; exact hrbx
  have hpushes : exit.ret.push [exit.ret.rax, exit.ret.rdx] = pushed := hpushed.symm
  rw [Cpu.morestackReturn, hpushes, hcall, Option.bind_eq_bind, Option.bind_some,
    Option.some.injEq]
  simp only [Cpu.morestackLeave, Cpu.pop, Cpu.top, Cpu.ret, hresult.1, hresult.2, hpop, hpushedRbx,
    hcaller, hsaved, htop]
  rw [hpushed]
  rfl

end Return

/-! ### Both entries -/

namespace GrowingCall

/-- The stack is grown: `__morestack` always grows it, `__morestack_non_split` where the frame with
the extra room for system calls does not fit below the stack pointer. -/
def Reserves (linkage : Linkage) (call : GrowingCall) : Prop :=
  call.entry = .nonSplit →
    call.cpu.rsp - (call.cpu.r10 + linkage.syscallSegmentSize) < call.cpu.stackTop

/-- What a call relies on. The parameters end before the address space does, and the body obeys the
ABI. Where the stack is grown, no size that is computed wraps, memory for the frame is allocated,
the ranges of memory do not overlap, and the body leaves the frames of its callers and its segment
as it found them. -/
structure Setting (linkage : Linkage) (call : GrowingCall) : Prop where
  size : 24 + call.cpu.r11.toNat ≤ 2 ^ 64
  abi : ∀ start, call.start linkage = some start → ObeysAbi start call.exit
  sizes : ∀ s, call.grows linkage = some s → SizesFit linkage.minSegmentSize s.r10 s.r11
  growth : ∀ s, call.grows linkage = some s → ∃ frame,
    seffMemAllocateFrame linkage.minSegmentSize call.block s.r10 s.r11 s.parameters s.heap
      s.current = some frame ∧ Layout s frame.newStack call.allocate call.release
  frames : ∀ s, call.grows linkage = some s → ∀ start, call.start linkage = some start →
    ∀ address, Within (s.rsp - 8) 24 address → call.exit.memory address = start.memory address
  segment : ∀ s, call.grows linkage = some s → (call.exit.heap call.exit.current.framePtr).isSome

/-- Growing the stack is transparent: the body starts with what the caller passed it, and the caller
goes on with what the body returned. -/
def Transparent (linkage : Linkage) (call : GrowingCall) : Prop :=
  ∃ start finish, call.start linkage = some start ∧ StartsUnchanged call.cpu start ∧
    call.finish linkage = some finish ∧ ReturnsUnchanged call.cpu call.exit finish

/-- The registers that the routines do not save happen to be kept: `%rax` by
`__morestack_non_split`, and where the stack is grown the vector registers of the arguments by
`seff_mem_allocate_frame`, and those of the results by `seff_mem_release_frame`. -/
def RegistersKept (linkage : Linkage) (call : GrowingCall) : Prop :=
  (call.entry = .nonSplit → call.cpu.rax = linkage.syscallSegmentSize) ∧
    (call.Reserves linkage →
      (∀ index : Fin 16, index.val < 8 → call.allocate.xmm index = call.cpu.xmm index) ∧
      call.release.xmm 0 = call.exit.xmm 0 ∧ call.release.xmm 1 = call.exit.xmm 1)

variable {linkage : Linkage} {call : GrowingCall}

/-- Where the stack is grown, `__morestack` is reached with all registers but two unchanged. -/
theorem exists_grows (h : call.Reserves linkage) : ∃ rax r10,
    call.grows linkage = some { call.cpu with rax := rax, r10 := r10 } ∧
      (rax = call.cpu.rax ↔
        (call.entry = .nonSplit → call.cpu.rax = linkage.syscallSegmentSize)) := by
  cases hentry : call.entry with
  | split => exact ⟨call.cpu.rax, call.cpu.r10, by simp [grows, hentry], by simp⟩
  | nonSplit =>
    have hbelow := h hentry
    have hrsp : call.cpu.rsp - (call.cpu.r10 + linkage.syscallSegmentSize) +
        (call.cpu.r10 + linkage.syscallSegmentSize) = call.cpu.rsp := by
      bv_omega
    refine ⟨linkage.syscallSegmentSize, call.cpu.r10 + linkage.syscallSegmentSize, ?_, ?_⟩
    · simp only [grows, hentry, Cpu.morestackNonSplit, if_pos hbelow, if_true, hrsp]
    · exact ⟨fun heq _ ↦ heq.symm, fun heq ↦ (heq rfl).symm⟩

/-- Where it is not, the body starts in place. -/
theorem start_of_not_reserves (h : ¬ call.Reserves linkage) :
    call.entry = .nonSplit ∧ call.grows linkage = none ∧ call.start linkage = some
      { call.cpu with
        rax := linkage.syscallSegmentSize
        r10 := call.cpu.r10 + linkage.syscallSegmentSize
        rsp := call.cpu.rsp + 8
        ip := call.cpu.top + 1
        memory := call.cpu.memory.store64 call.cpu.rsp (call.cpu.top + 1) } := by
  simp only [Reserves, not_forall] at h
  obtain ⟨hentry, habove⟩ := h
  have hrsp : call.cpu.rsp - (call.cpu.r10 + linkage.syscallSegmentSize) +
      (call.cpu.r10 + linkage.syscallSegmentSize) = call.cpu.rsp := by
    bv_omega
  have hgrows : call.grows linkage = none := by
    simp only [grows, hentry, Cpu.morestackNonSplit, if_neg habove]
    rfl
  refine ⟨hentry, hgrows, ?_⟩
  simp only [start, hgrows, Cpu.morestackNonSplit, if_neg habove, hrsp, Cpu.ret, Cpu.pop, Cpu.top,
    load64_store64]

/-- The caller's stack when the body returns. -/
theorem Setting.caller (h : Setting linkage call) {s start : Cpu}
    (hgrows : call.grows linkage = some s) (hstart : call.start linkage = some start)
    {frame : AllocatedFrame} (hlayout : Layout s frame.newStack call.allocate call.release)
    (hmemory : start.memory =
      (s.allocatedMemory linkage frame call.allocate).storeDown frame.newStack
        [linkage.bodyReturn]) :
    call.exit.memory.load64 (s.rsp - 8) = s.rbx ∧ call.exit.memory.load64 s.rsp = s.top ∧
      call.exit.memory.load64 (s.rsp + 8) = s.memory.load64 (s.rsp + 8) := by
  have hkept : ∀ address, address = s.rsp - 8 ∨ address = s.rsp ∨ address = s.rsp + 8 →
      call.exit.memory.load64 address =
        (s.allocatedMemory linkage frame call.allocate).load64 address := by
    intro address haddress
    refine load64_congr fun other hother ↦ ?_
    have hbase : Within (s.rsp - 8) 24 other := by
      rw [Within] at hother ⊢
      rcases haddress with rfl | rfl | rfl <;> bv_omega
    have hnew := hlayout.callerNew other (hbase.trans_le (by omega))
    rw [h.frames s hgrows start hstart other hbase, hmemory]
    refine storeDown_of_not_within fun index hindex hin ↦ hnew ?_
    obtain rfl : index = 0 := by simpa using hindex
    rw [Within] at hin ⊢
    bv_omega
  refine ⟨?_, ?_, ?_⟩
  · rw [hkept _ (.inl rfl), hlayout.load64_rbx]
  · rw [hkept _ (.inr (.inl rfl)), hlayout.load64_caller linkage (.inl rfl), Cpu.top]
  · rw [hkept _ (.inr (.inr rfl)), hlayout.load64_caller linkage (.inr rfl)]

/-- `seff_mem_release_frame` returns when the current segment is allocated. -/
theorem exists_release {heap : Heap} {k : SeffCoroutine} (h : (heap k.framePtr).isSome) :
    ∃ stackTop current, seffMemReleaseFrame heap k = some (stackTop, current) := by
  obtain ⟨header, hheader⟩ := Option.isSome_iff_exists.mp h
  refine ⟨header.prev + segmentHeader, { k with framePtr := header.prev }, ?_⟩
  rw [seffMemReleaseFrame, hheader]
  rfl

/-- Where the stack was grown, control gets back to the caller, and unchanged when
`seff_mem_release_frame` keeps the vector registers of the results. -/
theorem Setting.exists_finish (h : Setting linkage call) {rax r10 : Word}
    (hgrows : call.grows linkage = some { call.cpu with rax := rax, r10 := r10 })
    {frame : AllocatedFrame}
    (hlayout : Layout { call.cpu with rax := rax, r10 := r10 } frame.newStack call.allocate
      call.release)
    (hstart : call.start linkage = some
      ((({ call.cpu with rax := rax, r10 := r10 } : Cpu).allocated linkage frame
        call.allocate).morestackEnter linkage)) :
    ∃ finish, call.finish linkage = some finish ∧
      (ReturnsUnchanged call.cpu call.exit finish ↔
        call.release.xmm 0 = call.exit.xmm 0 ∧ call.release.xmm 1 = call.exit.xmm 1) := by
  have hentered := morestackEnter_eq linkage hlayout
  obtain ⟨hsavedRbx, -, hsavedCaller⟩ := h.caller hgrows hstart hlayout (by rw [hentered])
  have habi := h.abi _ hstart
  rw [hentered] at habi
  obtain ⟨stackTop, current, hrelease⟩ := exists_release (h.segment _ hgrows)
  have hreturn : call.exit.ret.ip = linkage.bodyReturn := habi.returnAddress.trans
    (load64_storeDown _ _ [linkage.bodyReturn] (by simp) (show 0 < 1 by omega))
  have htail := morestackReturn_eq hlayout linkage habi.rsp habi.rbx hrelease
  have hcaller := hlayout.load64_released linkage habi.rsp (.inr (.inr rfl))
  have hrsp : call.cpu.rsp + 8 + 8 = call.cpu.rsp + 16 := by bv_omega
  have hfinish : call.finish linkage =
      (call.exit.ret.morestackReturn linkage call.release).bind fun s ↦ some s.ret := by
    simp only [finish, hgrows, hreturn, if_true, Option.bind_eq_bind]
  rw [htail, Option.bind_some] at hfinish
  refine ⟨_, hfinish, fun hreturns ↦ ⟨hreturns.xmm0, hreturns.xmm1⟩, ?_⟩
  rintro ⟨hxmm0, hxmm1⟩
  exact ⟨hcaller.trans hsavedCaller, hrsp, hsavedRbx, habi.rbp, habi.r12, habi.r13, habi.r14,
    habi.r15, rfl, rfl, hxmm0, hxmm1⟩

/-- Where `__morestack` is reached. -/
theorem transparent_iff_of_reserves (h : Setting linkage call) (hreserves : call.Reserves linkage) :
    call.Transparent linkage ↔ call.RegistersKept linkage := by
  obtain ⟨rax, r10, hgrows, hrax⟩ := exists_grows hreserves
  obtain ⟨frame, hframe, hlayout⟩ := h.growth _ hgrows
  have hstart : call.start linkage = some
      ((({ call.cpu with rax := rax, r10 := r10 } : Cpu).allocated linkage frame
        call.allocate).morestackEnter linkage) := by
    simp only [start, hgrows, Cpu.morestack, hlayout.callAllocateFrame linkage hframe,
      Option.bind_eq_bind, Option.bind_some]
  have hstarts := startsUnchanged_iff linkage hlayout
  obtain ⟨finish, hfinish, hreturns⟩ := h.exists_finish hgrows hlayout hstart
  constructor
  · rintro ⟨start', finish', hstart', hstarts', hfinish', hreturns'⟩
    obtain rfl := Option.some.inj (hstart.symm.trans hstart')
    obtain rfl := Option.some.inj (hfinish.symm.trans hfinish')
    obtain ⟨hsame, hxmm⟩ := hstarts.mp hstarts'
    exact ⟨hrax.mp hsame, fun _ ↦ ⟨hxmm, hreturns.mp hreturns'⟩⟩
  · rintro ⟨hsame, hkept⟩
    obtain ⟨hxmm, hresults⟩ := hkept hreserves
    exact ⟨_, finish, hstart, hstarts.mpr ⟨hrax.mpr hsame, hxmm⟩, hfinish, hreturns.mpr hresults⟩

/-- **Growing the stack.** It is transparent to the calling convention exactly where the C functions
keep the vector registers, and `__morestack_non_split` was entered with the value it loads. -/
theorem transparent_iff (h : Setting linkage call) :
    call.Transparent linkage ↔ call.RegistersKept linkage := by
  by_cases hreserves : call.Reserves linkage
  · exact transparent_iff_of_reserves h hreserves
  · obtain ⟨hentry, hgrows, hstart⟩ := start_of_not_reserves hreserves
    have habi := h.abi _ hstart
    have hfinish : call.finish linkage = some call.exit.ret := by
      simp only [finish, hgrows]
    constructor
    · rintro ⟨start, finish, hstart', hstarts, -⟩
      obtain rfl := Option.some.inj (hstart.symm.trans hstart')
      exact ⟨fun _ ↦ hstarts.rax.symm, fun hreserves' ↦ absurd hreserves' hreserves⟩
    · rintro ⟨hrax, -⟩
      refine ⟨_, _, hstart,
        ⟨rfl, rfl, rfl, rfl, rfl, rfl, rfl, (hrax hentry).symm, fun _ _ ↦ rfl, ?_⟩, hfinish, ?_⟩
      · intro offset hoffset
        have hsize := h.size
        have haddress : call.cpu.rsp + 8 + 8 + BitVec.ofNat 64 offset =
            call.cpu.rsp + 16 + BitVec.ofNat 64 offset := by
          bv_omega
        rw [haddress]
        refine store64_of_not_within ?_
        rw [Within]
        bv_omega
      · have htop : call.exit.top = call.cpu.memory.load64 (call.cpu.rsp + 8) :=
          habi.returnAddress.trans (load64_store64_of_le (by bv_omega) (by bv_omega))
        have hrsp : call.exit.rsp + 8 = call.cpu.rsp + 16 := by
          rw [habi.rsp]
          bv_omega
        exact ⟨htop, hrsp, habi.rbx, habi.rbp, habi.r12, habi.r13, habi.r14, habi.r15, rfl, rfl,
          rfl, rfl⟩

/-- The sizes of the library. -/
def smallLinkage : Linkage :=
  { allocateReturn := 0x401000
    bodyReturn := 0x401040
    releaseReturn := 0x401050
    minSegmentSize := 4096
    syscallSegmentSize := 8192 }

/-- C functions that leave no register but their result changed to anything but zero, and write no
memory. -/
def quietClobber : Clobber :=
  { rcx := 0, rdx := 0, rsi := 0, rdi := 0, r8 := 0, r9 := 0, r10 := 0, r11 := 0, xmm := fun _ ↦ 0
    written := fun _ ↦ none }

/-- A function with 16 bytes of stack parameters and one vector argument is called from the segment
at `0x8000`. -/
def callingCpu (stackTop : Word) : Cpu :=
  { rax := 1, rbx := 2, rcx := 3, rdx := 4, rsi := 5, rdi := 6, rbp := 7, rsp := 0x10000
    r8 := 8, r9 := 9, r10 := 24, r11 := 16, r12 := 10, r13 := 11, r14 := 12, r15 := 13
    xmm := fun _ ↦ 0, ip := 0x400000, memory := fun _ ↦ 0
    stackTop := stackTop, systemStack := 0x20000
    heap := Function.update (fun _ ↦ none) 0x8000 (some ⟨0, 0, 0x9000, 0x999999999999, 0x90A0⟩)
    current := ⟨0x8000, ⟨0, 0, 0, 0, 0, 0, 0, 0, 0, 0⟩, .paused, 0, 0⟩ }

/-- The function returns at once. -/
def returningCall (entry : Entry) (stackTop : Word) : GrowingCall :=
  let call : GrowingCall :=
    ⟨entry, callingCpu stackTop, 0x30000, quietClobber, quietClobber, callingCpu stackTop⟩
  { call with exit := (call.start smallLinkage).getD call.cpu }

theorem returningCall_start (entry : Entry) (stackTop : Word) {start : Cpu}
    (hstart : (returningCall entry stackTop).start smallLinkage = some start) :
    (returningCall entry stackTop).exit = start := by
  have hexit : (returningCall entry stackTop).exit =
      ((returningCall entry stackTop).start smallLinkage).getD (callingCpu stackTop) := rfl
  rw [hexit, hstart, Option.getD_some]

/-- `__morestack_non_split` has room for the frame, and passes on the size of the extra room as the
number of vector arguments. -/
theorem not_transparent_of_variadic : ∃ linkage call, Setting linkage call ∧
    call.entry = .nonSplit ∧ call.cpu.rax = 1 ∧ ¬ call.Transparent linkage := by
  refine ⟨smallLinkage, returningCall .nonSplit 0, ?_, rfl, rfl, ?_⟩
  · have hgrows : ∀ s, (returningCall .nonSplit 0).grows smallLinkage ≠ some s := nofun
    refine ⟨by decide, fun start hstart ↦ ?_, fun s hs ↦ absurd hs (hgrows s),
      fun s hs ↦ absurd hs (hgrows s), fun s hs ↦ absurd hs (hgrows s),
      fun s hs ↦ absurd hs (hgrows s)⟩
    rw [returningCall_start _ _ hstart]
    exact ⟨rfl, rfl, rfl, rfl, rfl, rfl, rfl, rfl⟩
  · rintro ⟨start, finish, hstart, hstarts, -⟩
    have hrax : start.rax = 8192 := by
      rw [← returningCall_start _ _ hstart]
      rfl
    have hkept : start.rax = 1 := hstarts.rax
    rw [hrax] at hkept
    exact absurd hkept (by decide)

/-- The new stack of the call that grows. -/
theorem layout_returningCall : Layout (callingCpu 0x8100) 0x31090 quietClobber quietClobber := by
  refine ⟨by decide, fun address ↦ ?_, fun address ↦ ?_, fun address ↦ ?_, fun _ _ ↦ rfl,
    fun _ _ ↦ rfl⟩ <;>
  · simp only [Within, callingCpu]
    bv_omega

theorem transparent_iff_returningCall : (returningCall .split 0x8100).Transparent smallLinkage ↔
    (returningCall .split 0x8100).RegistersKept smallLinkage := by
  have hgrows : ∀ s, (returningCall .split 0x8100).grows smallLinkage = some s →
      callingCpu 0x8100 = s := fun s ↦ Option.some.inj
  refine transparent_iff ⟨by decide, fun start hstart ↦ ?_, fun s hs ↦ ?_, fun s hs ↦ ?_,
    fun _ _ start hstart _ _ ↦ ?_, fun _ _ ↦ rfl⟩
  · rw [returningCall_start _ _ hstart]
    exact ⟨rfl, rfl, rfl, rfl, rfl, rfl, rfl, rfl⟩
  · rw [← hgrows s hs]
    decide
  · rw [← hgrows s hs]
    exact ⟨_, rfl, layout_returningCall⟩
  · rw [returningCall_start _ _ hstart]

end GrowingCall

end Libseff.Stack
