import Libseff.Net.Await

/-!
# The buffer of a receive

What a caller of `await_recv` relies on: nothing is stored behind the buffer, and a positive result
counts the bytes that have been received into it, with a zero byte behind them if there is room. The
first attempt stores that byte wherever the received bytes end, so behind a buffer that they fill;
the second one does not store it (`recvsInto_iff`).
-/

set_option autoImplicit false
set_option relaxedAutoImplicit false

namespace Libseff.Net

open Libseff.Foundation
open Libseff.Foundation.SystemCalls

/-! ### The kernel -/

/-- A kernel that delivers up to the requested number of bytes or fails, and that reports any
events. -/
def recvKernel : Surroundings Call Answer Buffer Empty where
  answers buffer request answer after :=
    match request, answer with
    | .recv capacity, some bytes => bytes.length ≤ capacity ∧ after = fill buffer bytes
    | .store index byte, _ => after = Function.update buffer index byte
    | _, _ => after = buffer
  happens _ event _ := event.elim

/-- One call of `await_recv`. -/
def recvSystem (bufsz : ℕ) (buffer : Buffer) :
    TransitionSystem (Activity Call Answer Unit (Option ℤ) × Buffer) (Label Call Answer Empty) :=
  (awaitRecv bufsz).once.system recvKernel () (· = buffer)

/-! ### What has been received -/

/-- The answers to `recv`. -/
def recvs (labels : List (Label Call Answer Empty)) : List (Option (List UInt8)) :=
  labels.filterMap fun
    | .answer (.recv _) bytes => some bytes
    | _ => none

/-- The bytes that have been delivered. -/
def delivered (labels : List (Label Call Answer Empty)) : List UInt8 :=
  (recvs labels).flatMap (·.getD [])

/-- An access stays in the buffer. -/
def Inside (bufsz : ℕ) : Call → Prop
  | .recv capacity => capacity ≤ bufsz
  | .store index _ => 0 ≤ index ∧ index < bufsz
  | _ => True

def AllInside (bufsz : ℕ) (labels : List (Label Call Answer Empty)) : Prop :=
  ∀ label ∈ labels, match label with
    | .answer request _ => Inside bufsz request
    | .event event => event.elim

/-- A positive result counts the delivered bytes, which are in the buffer, and a zero byte stands
behind them. -/
def Holds (bufsz : ℕ) (history : History Call Answer Buffer Empty) (result : Option ℤ) : Prop :=
  ∀ n, result = some n → 0 < n → n = (delivered history.1).length ∧
    (∀ index (hindex : index < (delivered history.1).length),
      history.2 index = (delivered history.1)[index]) ∧
    (n < bufsz → history.2 n = 0)

/-- What a caller relies on at the end of a run: all accesses and the next one are in the buffer,
and the buffer holds what the result says. -/
def RecvsInto (bufsz : ℕ) (labels : List (Label Call Answer Empty)) (buffer : Buffer)
    (activity : Activity Call Answer Unit (Option ℤ)) : Prop :=
  AllInside bufsz labels ∧
    activity.Meets (fun _ request ↦ Inside bufsz request) (Holds bufsz) (labels, buffer)

/-- The first attempt leaves room, and the second one delivers bytes before a zero byte. -/
def Terminated (bufsz : ℕ) (buffer : Buffer) (labels : List (Label Call Answer Empty)) : Prop :=
  match recvs labels with
  | some bytes :: _ => bytes.length < bufsz
  | [_, some bytes] => 0 < bytes.length → bytes.length < bufsz → buffer bytes.length = 0
  | _ => True

/-! ### The attempts -/

variable {bufsz : ℕ} {buffer : Buffer}

theorem holds_of_nonpos {history : History Call Answer Buffer Empty} {result : Option ℤ}
    (hresult : ∀ n, result = some n → n ≤ 0) : Holds bufsz history result :=
  fun n hn hpos ↦ absurd (hresult n hn) (not_le.mpr hpos)

/-- The conditions of a call in all runs in which the bytes are counted. -/
abbrev EnsuresTerminated (bufsz : ℕ) (buffer : Buffer)
    (program : Program Call Answer (Option ℤ)) (history : History Call Answer Buffer Empty) :
    Prop :=
  program.Ensures recvKernel (fun _ ↦ Counted)
    (fun history request ↦ AllInside bufsz history.1 ∧ Inside bufsz request ↔
      Terminated bufsz buffer history.1)
    (fun history result ↦ AllInside bufsz history.1 ∧ Holds bufsz history result ↔
      Terminated bufsz buffer history.1) history

theorem allInside_nil : AllInside bufsz [] := fun _ hmem ↦ absurd hmem List.not_mem_nil

theorem allInside_cons_iff {request : Call} {answer : Answer request}
    {labels : List (Label Call Answer Empty)} :
    AllInside bufsz (.answer request answer :: labels) ↔
      Inside bufsz request ∧ AllInside bufsz labels :=
  List.forall_mem_cons

/-- Assumes: the delivered bytes are in the buffer. The buffer holds what their number says if there
is a zero byte behind them where it has to be. -/
theorem holds_iff (bufsz : ℕ) (labels : List (Label Call Answer Empty)) {bytes : List UInt8}
    {after : Buffer} (hdelivered : delivered labels = bytes)
    (hbytes : ∀ index (hindex : index < bytes.length), after index = bytes[index]) :
    Holds bufsz (labels, after) (some (bytes.length : ℤ)) ↔
      (0 < bytes.length → bytes.length < bufsz → after bytes.length = 0) := by
  subst hdelivered
  constructor
  · intro h hpos hroom
    exact (h _ rfl (by omega)).2.2 (by omega)
  · intro h n hn hpos
    obtain rfl := Option.some_inj.mp hn
    exact ⟨rfl, hbytes, fun hroom ↦ h (by omega) (by omega)⟩

theorem recvs_concat (labels : List (Label Call Answer Empty))
    (label : Label Call Answer Empty) : recvs (labels ++ [label]) = recvs labels ++ recvs [label] :=
  List.filterMap_append

/-- The first attempt has delivered bytes. -/
theorem ensures_immediate {bytes : List UInt8} {nRead : ℤ} (hint : nRead = bytes.length) :
    EnsuresTerminated bufsz buffer (ask Answer (.store nRead 0) >>= fun _ ↦ pure (some nRead))
      ([.answer (.recv bufsz) (some bytes)], fill buffer bytes) := by
  subst hint
  have hinside : AllInside bufsz [.answer (.recv bufsz) (some bytes)] :=
    allInside_cons_iff.mpr ⟨le_rfl, allInside_nil⟩
  have hroom : Inside bufsz (.store bytes.length 0) ↔ bytes.length < bufsz := by
    rw [Inside, Nat.cast_lt]
    exact and_iff_right (Int.natCast_nonneg _)
  refine ensures_ask_iff.mpr ⟨(and_iff_right hinside).trans hroom,
    fun stored after hafter _ ↦ ensures_done_iff.mpr ?_⟩
  change after = Function.update (fill buffer bytes) bytes.length 0 at hafter
  have hbytes : ∀ index (hindex : index < bytes.length), after index = bytes[index] := by
    intro index hindex
    rw [hafter, Function.update_of_ne (by omega), fill_of_lt buffer hindex]
  have hholds := (holds_iff bufsz [.answer (.recv bufsz) (some bytes),
    .answer (.store bytes.length 0) stored] (List.append_nil bytes) hbytes).mpr fun _ _ ↦ by
      rw [hafter, Function.update_self]
  refine (and_iff_left hholds).trans ?_
  rw [List.singleton_append, allInside_cons_iff, allInside_cons_iff, hroom]
  exact ⟨fun h ↦ h.2.1, fun h ↦ ⟨le_rfl, h, allInside_nil⟩⟩

/-- The first attempt has failed, nothing has been delivered since, and no access has left the
buffer. -/
structure Waits (bufsz : ℕ) (buffer : Buffer) (history : History Call Answer Buffer Empty) :
    Prop where
  inside : AllInside bufsz history.1
  recvs_eq : recvs history.1 = [none]
  same : history.2 = buffer

/-- What waits goes on with any answer that delivers nothing. -/
theorem Waits.concat {history : History Call Answer Buffer Empty} (h : Waits bufsz buffer history)
    (request : Call) (answer : Answer request) {after : Buffer} (hinside : Inside bufsz request)
    (hnothing : recvs [.answer request answer] = []) (hafter : after = history.2) :
    Waits bufsz buffer (history.1 ++ [.answer request answer], after) where
  inside := List.forall_mem_append.mpr ⟨h.inside, allInside_cons_iff.mpr ⟨hinside, allInside_nil⟩⟩
  recvs_eq := by rw [recvs_concat, h.recvs_eq, hnothing, List.append_nil]
  same := hafter.trans h.same

theorem Waits.terminated {history : History Call Answer Buffer Empty}
    (h : Waits bufsz buffer history) : Terminated bufsz buffer history.1 := by
  rw [Terminated, h.recvs_eq]
  trivial

/-- A call ends without bytes. -/
theorem Waits.ensures_done {history : History Call Answer Buffer Empty}
    (h : Waits bufsz buffer history) {result : Option ℤ} (hresult : ∀ n, result = some n → n ≤ 0) :
    EnsuresTerminated bufsz buffer (pure result) history :=
  ensures_done_iff.mpr (iff_of_true ⟨h.inside, holds_of_nonpos hresult⟩ h.terminated)

/-- The second attempt delivers bytes or fails. -/
theorem Waits.ensures_recv {history : History Call Answer Buffer Empty}
    (h : Waits bufsz buffer history) :
    EnsuresTerminated bufsz buffer
      (ask Answer (.recv bufsz) >>= fun delivery ↦ pure (some (asInt (received delivery))))
      history := by
  refine ensures_ask_iff.mpr ⟨iff_of_true ⟨h.inside, le_rfl⟩ h.terminated,
    fun delivery after hanswer hcounted ↦ ensures_done_iff.mpr ?_⟩
  have hinside : AllInside bufsz (history.1 ++ [.answer (.recv bufsz) delivery]) :=
    List.forall_mem_append.mpr ⟨h.inside, allInside_cons_iff.mpr ⟨le_rfl, allInside_nil⟩⟩
  have hrecvs : recvs (history.1 ++ [.answer (.recv bufsz) delivery]) = [none, delivery] := by
    rw [recvs_concat, h.recvs_eq]
    rfl
  rw [Terminated, hrecvs]
  cases delivery with
  | none => exact iff_of_true ⟨hinside, holds_of_nonpos (by simp [received, asInt])⟩ trivial
  | some bytes =>
    obtain ⟨-, rfl⟩ : bytes.length ≤ bufsz ∧ after = fill history.2 bytes := hanswer
    have hdelivered : delivered (history.1 ++ [.answer (.recv bufsz) (some bytes)]) = bytes := by
      rw [delivered, hrecvs]
      exact List.append_nil bytes
    have hholds := holds_iff bufsz _ hdelivered fun index hindex ↦ fill_of_lt history.2 hindex
    rw [asInt_received hcounted, ← h.same]
    rw [fill_length] at hholds
    exact (and_iff_right hinside).trans hholds

theorem awaitRecv_ensures :
    EnsuresTerminated bufsz buffer (awaitRecv bufsz) ([], buffer) := by
  have hminus : asInt (received none) = -1 := by decide
  unfold awaitRecv
  refine ensures_ask_iff.mpr ⟨iff_of_true ⟨allInside_nil, le_rfl⟩ trivial,
    fun delivery after hanswer hcounted ↦ ?_⟩
  cases delivery with
  | some bytes =>
    change bytes.length ≤ bufsz ∧ after = fill buffer bytes at hanswer
    simp only [Counted] at hcounted
    have hint := asInt_received hcounted
    rw [hanswer.2]
    simp only [ge_iff_le, if_pos (show 0 ≤ asInt (received (some bytes)) by omega)]
    exact ensures_immediate hint
  | none =>
    have hrefused : Waits bufsz buffer ([.answer (.recv bufsz) none], after) :=
      ⟨allInside_cons_iff.mpr ⟨le_rfl, allInside_nil⟩, rfl, hanswer⟩
    simp only [hminus, ge_iff_le, Int.reduceNeg, Int.reduceLE, if_false]
    refine ensures_ask_iff.mpr ⟨iff_of_true ⟨hrefused.inside, trivial⟩ trivial,
      fun err asked hsame _ ↦ ?_⟩
    have hasked := hrefused.concat .errno err trivial rfl hsame
    split_ifs
    · exact hasked.ensures_done (by simp)
    · rw [pollAwait]
      refine ensures_ask_iff.mpr ⟨iff_of_true ⟨hasked.inside, trivial⟩ hasked.terminated,
        fun revents polled hsame _ ↦ ?_⟩
      have hpolled := hasked.concat (.poll READ) revents trivial rfl hsame
      cases revents with
      | none => exact hpolled.ensures_done (by simp)
      | some events =>
        dsimp only
        split_ifs
        · exact hpolled.ensures_done (by simp)
        · exact hpolled.ensures_done (by simp)
        · exact hpolled.ensures_recv

/-! ### The call -/

/-- Assumes: an `int` counts the bytes of every delivery. At the end of every run all that a caller
relies on is so if and only if the first attempt has not filled the buffer, and the second one has
delivered bytes only where a zero byte stood behind them or the buffer ends. -/
theorem recvsInto_iff {labels : List (Label Call Answer Empty)}
    {reached : Activity Call Answer Unit (Option ℤ) × Buffer}
    (hrun : (recvSystem bufsz buffer).Run (fun _ label ↦ Counted label) labels reached) :
    RecvsInto bufsz labels reached.2 reached.1 ↔ Terminated bufsz buffer labels := by
  have hensures : ∀ state, state = buffer →
      EnsuresTerminated bufsz buffer (awaitRecv bufsz) ([], state) := by
    rintro state rfl
    exact awaitRecv_ensures
  have hmeets := Program.meets_of_run (fun _ ↦ Counted) hrun hensures
  obtain ⟨activity, state⟩ := reached
  cases activity with
  | calling request next => exact hmeets
  | returned result => exact hmeets

/-- The first attempt has received one byte into a buffer of two. -/
theorem recvsInto_short :
    ∃ reached, (recvSystem 2 fun _ ↦ 1).Run (fun _ label ↦ Counted label)
        [.answer (.recv 2) (some [65])] reached ∧
      RecvsInto 2 [.answer (.recv 2) (some [65])] reached.2 reached.1 := by
  have hrecv : (recvSystem 2 fun _ ↦ 1).Run (fun _ label ↦ Counted label) []
      (.calling (.recv 2) _, fun _ ↦ 1) :=
    .start ⟨.call _ _, rfl⟩
  have hreceived : (recvSystem 2 fun _ ↦ 1).Run (fun _ label ↦ Counted label)
      [.answer (.recv 2) (some [65])] (.calling (.store 1 0) _, fill (fun _ ↦ 1) [65]) :=
    hrecv.step (by simp [Counted]) (.answer ⟨by decide, rfl⟩ (.call _ _))
  exact ⟨_, hreceived, (recvsInto_iff hreceived).mpr (show [65].length < 2 by decide)⟩

/-- The first attempt fills the buffer and goes on to store a zero byte behind it; the second one
leaves what stands behind its byte. -/
theorem recvsInto_counterexample :
    (∃ reached, (recvSystem 1 fun _ ↦ 1).Run (fun _ _ ↦ True) [.answer (.recv 1) (some [65])]
        reached ∧ ¬RecvsInto 1 [.answer (.recv 1) (some [65])] reached.2 reached.1) ∧
      ∃ reached, (recvSystem 2 fun _ ↦ 1).Run (fun _ _ ↦ True) [.answer (.recv 2) none,
          .answer .errno EAGAIN, .answer (.poll READ) (some READ),
          .answer (.recv 2) (some [65])] reached ∧
        ¬RecvsInto 2 [.answer (.recv 2) none, .answer .errno EAGAIN,
          .answer (.poll READ) (some READ), .answer (.recv 2) (some [65])] reached.2
          reached.1 := by
  constructor
  · have hrecv : (recvSystem 1 fun _ ↦ 1).Run (fun _ _ ↦ True) []
        (.calling (.recv 1) _, fun _ ↦ 1) :=
      .start ⟨.call _ _, rfl⟩
    have hreceived : (recvSystem 1 fun _ ↦ 1).Run (fun _ _ ↦ True)
        [.answer (.recv 1) (some [65])] (.calling (.store 1 0) _, fill (fun _ ↦ 1) [65]) :=
      hrecv.step trivial (.answer ⟨by decide, rfl⟩ (.call _ _))
    exact ⟨_, hreceived, fun h ↦ absurd h.2.2 (by decide)⟩
  · have hrecv : (recvSystem 2 fun _ ↦ 1).Run (fun _ _ ↦ True) []
        (.calling (.recv 2) _, fun _ ↦ 1) :=
      .start ⟨.call _ _, rfl⟩
    have hrefused : (recvSystem 2 fun _ ↦ 1).Run (fun _ _ ↦ True) [.answer (.recv 2) none]
        (.calling .errno _, fun _ ↦ 1) :=
      hrecv.step trivial (.answer rfl (.call _ _))
    have hasked : (recvSystem 2 fun _ ↦ 1).Run (fun _ _ ↦ True)
        [.answer (.recv 2) none, .answer .errno EAGAIN] (.calling (.poll READ) _, fun _ ↦ 1) :=
      hrefused.step trivial (.answer rfl (.call _ _))
    have hpolled : (recvSystem 2 fun _ ↦ 1).Run (fun _ _ ↦ True)
        [.answer (.recv 2) none, .answer .errno EAGAIN, .answer (.poll READ) (some READ)]
        (.calling (.recv 2) _, fun _ ↦ 1) :=
      hasked.step trivial (.answer rfl (.call _ _))
    have hreceived : (recvSystem 2 fun _ ↦ 1).Run (fun _ _ ↦ True)
        [.answer (.recv 2) none, .answer .errno EAGAIN, .answer (.poll READ) (some READ),
          .answer (.recv 2) (some [65])] (.returned (some 1), fill (fun _ ↦ 1) [65]) :=
      hpolled.step trivial (.answer ⟨by decide, rfl⟩ (.returned _))
    refine ⟨_, hreceived, fun h ↦ ?_⟩
    exact absurd ((h.2 1 rfl (by decide)).2.2 (by decide)) (by decide)

end Libseff.Net
